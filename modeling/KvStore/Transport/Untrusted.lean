import KvStore.Transport.Codec

/-!
# Untrusted input to `decodeMessage`

Counts and lengths in the input decide how far the decoder moves. Each of its reads is covered by
one of its checks: the first one by the fixed fields, which say nothing any more once entries with
data have been read, and then one before every entry and two after them.

* `Returns x P`: decoding ends without a panic, with the decoder's own error or with a value of
  which `P` holds; `Returns.bind` and the `*_bind` lemmas run a decoder one read at a time.
* `decodeMessage_returns`: a message that is accepted takes at least its own size of the input.
* `decodeMessage_safe`: on any input of at most `maxMessageSize` bytes the decoder does not panic,
  and neither what it allocates nor what it returns is longer than the input.
-/

namespace KvStore.Transport

open Codec Wal

/-- Decoding ends without a panic: with its own error, or with a value of which `P` holds. -/
def Returns {α : Type} (x : Except DecodeFault α) (P : α → Prop) : Prop :=
  x = .error .malformed ∨ ∃ a, x = .ok a ∧ P a

section

variable {α β : Type} {x : Except DecodeFault α} {f : α → Except DecodeFault β} {P : α → Prop}
    {Q : β → Prop}
  {data : Bytes}

theorem Returns.malformed : Returns (.error .malformed) P := .inl rfl

theorem Returns.ok {a : α} (h : P a) : Returns (.ok a) P := .inr ⟨a, rfl, h⟩

theorem Returns.in_range (h : Returns x P) : x ≠ .error .outOfRange := by
  rcases h with rfl | ⟨a, rfl, -⟩ <;> nofun

theorem Returns.bind (hx : Returns x P) (hf : ∀ a, P a → Returns (f a) Q) :
    Returns (x >>= f) Q := by
  rcases hx with rfl | ⟨a, rfl, ha⟩
  · exact .inl rfl
  · exact hf a ha

/-- A read that is in range goes on with what it read and a shorter rest. -/
theorem getByte_bind {f : UInt8 × Bytes → Except DecodeFault β} (h : 1 ≤ data.length)
    (hf : ∀ b rest, data.length = rest.length + 1 → Returns (f (b, rest)) Q) :
    Returns (getByte data >>= f) Q := by
  cases data with
  | nil => simp at h
  | cons b data => exact hf b data rfl

theorem readLe32_isSome (h : 4 ≤ data.length) : ∃ n rest, readLe32 data = some (n, rest) := by
  match data, h with
  | _ :: _ :: _ :: _ :: rest, _ => exact ⟨_, rest, rfl⟩

theorem getUint32_bind {f : ℕ × Bytes → Except DecodeFault β} (h : 4 ≤ data.length)
    (hf : ∀ n rest, data.length = rest.length + 4 → Returns (f (n, rest)) Q) :
    Returns (getUint32 data >>= f) Q := by
  obtain ⟨n, rest, hr⟩ := readLe32_isSome h
  rw [getUint32, hr]
  exact hf n rest (readLe32_length hr)

theorem getUint64_bind {f : UInt64 × Bytes → Except DecodeFault β} (h : 8 ≤ data.length)
    (hf : ∀ v rest, data.length = rest.length + 8 → Returns (f (v, rest)) Q) :
    Returns (getUint64 data >>= f) Q := by
  obtain ⟨lo, rest, hlo⟩ := readLe32_isSome (Nat.le_trans (by decide) h)
  have hlen := readLe32_length hlo
  have hfour : 4 ≤ rest.length := by omega
  obtain ⟨hi, rest', hhi⟩ := readLe32_isSome hfour
  have hlen' := readLe32_length hhi
  simp only [getUint64, readLe64, hlo, hhi, Option.bind_eq_bind, Option.bind_some, pure]
  exact hf _ rest' (by omega)

/-- The declared length is never more than what is left, so that the slice is in range. -/
theorem getData_bind {f : Bytes × Bytes → Except DecodeFault β} (h : 4 ≤ data.length)
    (hmax : data.length < 2 ^ 32)
    (hf : ∀ d rest, data.length = d.length + rest.length + 4 → Returns (f (d, rest)) Q) :
    Returns (getData data >>= f) Q := by
  have hdata : Returns (getData data) fun p => data.length = p.1.length + p.2.length + 4 := by
    refine getUint32_bind h fun dlen rest hlen => ?_
    dsimp only
    split_ifs with hd
    · exact .malformed
    · rw [Nat.mod_eq_of_lt (by omega)] at hd
      rw [getSlice, if_pos (by omega)]
      refine .ok ?_
      simp only [List.length_take, List.length_drop]
      omega
  exact hdata.bind fun p hp => hf p.1 p.2 hp

theorem decodeHead_returns (hmax : data.length < 2 ^ 32) :
    Returns (decodeHead data) fun p =>
      data.length = p.2.length + 62 ∧ p.1.2 * entryHeaderSize ≤ p.2.length := by
  unfold decodeHead
  split_ifs with hfixed
  · exact .malformed
  unfold fixedFieldsSize at hfixed
  refine getByte_bind (by omega) fun type data₁ h₁ => ?_
  refine getUint64_bind (by omega) fun fromId data₂ h₂ => ?_
  refine getUint64_bind (by omega) fun toId data₃ h₃ => ?_
  refine getUint64_bind (by omega) fun term data₄ h₄ => ?_
  refine getUint64_bind (by omega) fun lastLogIndex data₅ h₅ => ?_
  refine getUint64_bind (by omega) fun lastLogTerm data₆ h₆ => ?_
  refine getByte_bind (by omega) fun voteGranted data₇ h₇ => ?_
  refine getUint64_bind (by omega) fun prevLogIndex data₈ h₈ => ?_
  refine getUint64_bind (by omega) fun prevLogTerm data₉ h₉ => ?_
  refine getUint32_bind (by omega) fun count rest h₁₀ => ?_
  dsimp only
  split_ifs with hcount
  · exact .malformed
  · refine .ok ⟨by dsimp only; omega, ?_⟩
    rw [Nat.mod_eq_of_lt (by omega), Nat.not_lt, Nat.le_div_iff_mul_le (by decide)] at hcount
    exact hcount

end

/-- The entries that are read make up what was read. -/
theorem decodeEntries_returns (count : ℕ) {data : Bytes} (hmax : data.length < 2 ^ 32) :
    Returns (decodeEntries count data) fun p => data.length = entriesSize p.1 + p.2.length := by
  induction count generalizing data with
  | zero => exact .ok (Nat.zero_add _).symm
  | succ count ih =>
    unfold decodeEntries
    split_ifs with hlen
    · exact .malformed
    unfold entryHeaderSize at hlen
    refine getUint64_bind (by omega) fun term data₁ h₁ => ?_
    refine getUint64_bind (by omega) fun index data₂ h₂ => ?_
    refine getData_bind (by omega) (by omega) fun bytes data₃ h₃ => ?_
    refine (ih (by omega)).bind ?_
    rintro ⟨entries, rest⟩ h₄
    dsimp only at h₄ ⊢
    refine .ok ?_
    have hcons : entriesSize (⟨term, index, bytes⟩ :: entries) =
        20 + bytes.length + entriesSize entries := rfl
    dsimp only
    omega

theorem decodeTail_returns (m : WireMessage) {data : Bytes} (hmax : data.length < 2 ^ 32) :
    Returns (decodeTail m data) fun m' =>
      m'.entries = m.entries ∧ m'.snapshot.data.length + 45 ≤ data.length := by
  unfold decodeTail
  split_ifs with hlen
  · exact .malformed
  refine getUint64_bind (by omega) fun leaderCommit data₁ h₁ => ?_
  refine getByte_bind (by omega) fun success data₂ h₂ => ?_
  refine getUint64_bind (by omega) fun matchIndex data₃ h₃ => ?_
  refine getUint64_bind (by omega) fun readContext data₄ h₄ => ?_
  dsimp only
  -- the initial check does not cover these fields any more
  split_ifs with hsnap
  · exact .malformed
  refine getUint64_bind (by omega) fun lastIncludedIndex data₅ h₅ => ?_
  dsimp only
  refine getUint64_bind (by omega) fun lastIncludedTerm data₆ h₆ => ?_
  dsimp only
  refine getData_bind (by omega) (by omega) fun bytes rest h₇ => ?_
  exact .ok ⟨rfl, by dsimp only; omega⟩

/-- Decoding does not panic, and the message it returns would not be longer than the input. -/
theorem decodeMessage_returns {data : Bytes} (hmax : data.length < 2 ^ 32) :
    (decodeMessage data).allocated * entryHeaderSize ≤ data.length ∧
      Returns (decodeMessage data).result fun m => messageSize m ≤ data.length := by
  unfold decodeMessage
  rcases decodeHead_returns hmax with hhead | ⟨⟨⟨m, count⟩, rest⟩, hhead, hrest, hcount⟩
  · rw [hhead]
    exact ⟨by simp, .malformed⟩
  rw [hhead]
  dsimp only at hrest hcount ⊢
  refine ⟨by omega, (decodeEntries_returns count (by omega)).bind ?_⟩
  rintro ⟨entries, data'⟩ hentries
  dsimp only at hentries ⊢
  have hmax' : data'.length < 2 ^ 32 := by omega
  rcases decodeTail_returns { m with entries } hmax' with htail | ⟨m', htail, hes, hsnap⟩
  · rw [htail]
    exact .malformed
  · rw [htail]
    refine .ok ?_
    dsimp only at hes
    rw [messageSize_eq, hes, show fixedFieldsSize = 107 from rfl]
    omega

/-- The bytes that entries carry. -/
def dataLength (es : List WireEntry) : ℕ := (es.map fun e => e.data.length).sum

theorem dataLength_le_entriesSize (es : List WireEntry) : dataLength es ≤ entriesSize es := by
  induction es with
  | nil => exact Nat.le_refl _
  | cons e es ih =>
    have hdata : dataLength (e :: es) = e.data.length + dataLength es := rfl
    have hsize : entriesSize (e :: es) = entryHeaderSize + e.data.length + entriesSize es := rfl
    omega

/-- **The decoder is safe on untrusted input.** On an input that `readFramed` lets through, every
read and every slice is in range, the slice for the entries has no more elements than there are
entry headers in the input, and the decoder either returns `errMalformedMessage` or a message that
carries no more bytes than the input has. -/
theorem decodeMessage_safe (data : Bytes) (h : data.length ≤ maxMessageSize) :
    (decodeMessage data).allocated * entryHeaderSize ≤ data.length ∧
    (decodeMessage data).result ≠ .error .outOfRange ∧
    ((decodeMessage data).result = .error .malformed ∨
      ∃ m, (decodeMessage data).result = .ok m ∧
        dataLength m.entries + m.snapshot.data.length ≤ data.length) := by
  have hmax : maxMessageSize = 67108864 := rfl
  have hdata : data.length < 2 ^ 32 := by omega
  obtain ⟨halloc, hreturns⟩ := decodeMessage_returns hdata
  refine ⟨halloc, hreturns.in_range, ?_⟩
  rcases hreturns with hres | ⟨m, hres, hm⟩
  · exact .inl hres
  · refine .inr ⟨m, hres, ?_⟩
    have hle := dataLength_le_entriesSize m.entries
    rw [messageSize_eq] at hm
    omega

/-- A message that declares two entries and has none. -/
theorem decodeMessage_safe_short :
    (decodeMessage (headBytes { type := 4, entries := [⟨0, 0, []⟩, ⟨0, 0, []⟩] } ++
      tailBytes { type := 4 })).allocated * entryHeaderSize ≤ 107 := by
  have hlen : (headBytes { type := 4, entries := [⟨0, 0, []⟩, ⟨0, 0, []⟩] } ++
      tailBytes { type := 4 }).length =
        107 := by rw [List.length_append, length_headBytes, length_tailBytes]; rfl
  have hsafe := decodeMessage_safe (headBytes { type := 4, entries := [⟨0, 0, []⟩, ⟨0, 0, []⟩] } ++
    tailBytes { type := 4 }) (by rw [hlen]; decide)
  rw [hlen] at hsafe
  exact hsafe.1

end KvStore.Transport
