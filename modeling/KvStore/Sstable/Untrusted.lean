import KvStore.Sstable.Reader
import KvStore.Transport.Untrusted

/-!
# Untrusted blocks of a sorted table

A block whose checksum verifies may still hold any bytes. The decoders of `block.go` check every
length against what is left before they use it, and every round of a scan consumes at least one
byte, so that no read is out of range and every scan ends. `decodeBloomFilter` checks the size of
the bit array with `(m + 7) / 8`, which wraps around for the seven greatest numbers `m`: it then
accepts a filter of that many bits with an empty array.

* `decodeEntry_returns`, `decodeIndexEntry_returns`: a part is decoded in range and is not empty.
* `decodeAll_returns`, `scanBlock_returns`: so is a series, to its end or to the key.
* `block_decoding_safe_iff`: decoding a block is safe iff it is not a `WrappedHeader`.
-/

namespace KvStore.Sstable

open Codec Wal Transport

section Reads

variable {β : Type} {Q : β → Prop} {data : Bytes}

theorem readUvarintFrom_shorter {n x : ℕ} {data rest : Bytes}
    (h : readUvarintFrom n data = some (x, rest)) : rest.length < data.length := by
  induction n generalizing data x with
  | zero => cases h
  | succ n ih =>
    cases data with
    | nil => cases h
    | cons b data =>
      rw [readUvarintFrom] at h
      split_ifs at h with hlast hbig
      · obtain ⟨-, rfl⟩ := Prod.mk.inj (Option.some.inj h)
        exact Nat.lt_succ_self _
      · obtain ⟨p, hp, heq⟩ := Option.map_eq_some_iff.mp h
        obtain ⟨-, rfl⟩ := Prod.mk.inj heq
        exact (ih hp).trans (Nat.lt_succ_self _)

theorem readLe64_length {v : UInt64} {data rest : Bytes} (h : readLe64 data = some (v, rest)) :
    data.length = rest.length + 8 := by
  obtain ⟨⟨lo, data₁⟩, hlo, h⟩ := Option.bind_eq_some_iff.mp h
  obtain ⟨⟨hi, data₂⟩, hhi, h⟩ := Option.bind_eq_some_iff.mp h
  obtain ⟨-, rfl⟩ := Prod.mk.inj (Option.some.inj h)
  have hlen := readLe32_length hlo
  have hlen' := readLe32_length hhi
  omega

/-- A number is read from a part of the input that is not empty. -/
theorem getUvarint_bind {f : ℕ × Bytes → Except DecodeFault β}
    (hf : ∀ n rest, rest.length < data.length → Returns (f (n, rest)) Q) :
    Returns (getUvarint data >>= f) Q := by
  rw [getUvarint]
  cases hr : readUvarint data with
  | none => exact .malformed
  | some p => exact hf p.1 p.2 (readUvarintFrom_shorter hr)

/-- The declared length is compared with what is left, so that the slice is in range. -/
theorem getCounted_bind {f : Bytes × Bytes → Except DecodeFault β}
    (hf : ∀ d rest, rest.length < data.length → Returns (f (d, rest)) Q) :
    Returns (getCounted data >>= f) Q := by
  have hslice : Returns (getCounted data) fun p => p.2.length < data.length := by
    refine getUvarint_bind fun n rest hrest => ?_
    dsimp only
    split_ifs with hn
    · exact .malformed
    · rw [getSlice, if_pos (by omega)]
      refine .ok ?_
      rw [List.length_drop]
      omega
  exact hslice.bind fun p hp => hf p.1 p.2 hp

/-- An entry is decoded in range, and is not empty. -/
theorem decodeEntry_returns (data : Bytes) :
    Returns (decodeEntry data) fun p => p.2.length < data.length := by
  refine getCounted_bind fun key data₁ h₁ => ?_
  dsimp only
  split_ifs with hnil
  · exact .malformed
  refine getByte_bind (List.length_pos_iff.mpr hnil) fun type data₂ h₂ => ?_
  refine getUvarint_bind fun seq data₃ h₃ => ?_
  refine getCounted_bind fun value rest h₄ => ?_
  dsimp only at h₃ h₄ ⊢
  exact .ok (by dsimp only; omega)

/-- An index entry is decoded in range, and is not empty. -/
theorem decodeIndexEntry_returns (data : Bytes) :
    Returns (decodeIndexEntry data) fun p => p.2.length < data.length := by
  refine getCounted_bind fun key data₁ h₁ => ?_
  dsimp only
  split_ifs with hlen
  · exact .malformed
  refine getUint64_bind (by omega) fun offset data₂ h₂ => ?_
  dsimp only
  refine getUint64_bind (by omega) fun length rest h₃ => ?_
  exact .ok (by dsimp only; omega)

end Reads

/-! ## Scans -/

section Scans

variable {α : Type} {one : Bytes → Except DecodeFault (α × Bytes)}

theorem decodeAllFrom_returns (hone : ∀ data, Returns (one data) fun p => p.2.length < data.length)
    {fuel : ℕ} {data : Bytes} (hfuel : data.length ≤ fuel) :
    Returns (decodeAllFrom one fuel data) fun _ => True := by
  induction fuel generalizing data with
  | zero =>
    rw [List.eq_nil_of_length_eq_zero (Nat.le_zero.mp hfuel)]
    exact .ok trivial
  | succ fuel ih =>
    cases data with
    | nil => exact .ok trivial
    | cons b data =>
      refine (hone (b :: data)).bind fun p hp => ?_
      rw [List.length_cons] at hp hfuel
      exact (ih (by omega)).bind fun as _ => .ok trivial

/-- A scan whose rounds are in range and consume something is in range and ends. -/
theorem decodeAll_returns (hone : ∀ data, Returns (one data) fun p => p.2.length < data.length)
    (data : Bytes) : Returns (decodeAll one data) fun _ => True :=
  decodeAllFrom_returns hone le_rfl

theorem scanBlockFrom_returns (key : Bytes) {fuel : ℕ} {data : Bytes} (hfuel : data.length ≤ fuel) :
    Returns (scanBlockFrom key fuel data) fun _ => True := by
  induction fuel generalizing data with
  | zero =>
    rw [List.eq_nil_of_length_eq_zero (Nat.le_zero.mp hfuel)]
    exact .ok trivial
  | succ fuel ih =>
    cases data with
    | nil => exact .ok trivial
    | cons b data =>
      refine (decodeEntry_returns (b :: data)).bind fun p hp => ?_
      rw [List.length_cons] at hp hfuel
      dsimp only
      split_ifs
      · exact .ok trivial
      · exact .ok trivial
      · exact ih (by omega)

/-- The scan of `Get` is in range and ends, at the key or after the last entry. -/
theorem scanBlock_returns (key data : Bytes) : Returns (scanBlock key data) fun _ => True :=
  scanBlockFrom_returns key le_rfl

end Scans

/-! ## Filters -/

namespace BloomFilter

variable {fnv : Bytes → UInt64} {b : BloomFilter} {data key : Bytes}

/-- What `decodeBloomFilter` accepts: a header, and as many bytes as it computes from the number of
bits. -/
theorem decode_ok_iff : decode data = .ok b ↔
    ∃ rest, readLe32 data = some (b.k, rest) ∧ readLe64 rest = some (b.m, b.bits) ∧
      b.bits.length = ((b.m + 7) / 8).toNat := by
  constructor
  · intro h
    unfold decode at h
    split_ifs at h with hlen
    have hfour : 4 ≤ data.length := by omega
    obtain ⟨k, rest, hk⟩ := readLe32_isSome hfour
    simp only [getUint32, hk, getUint64, bind, Except.bind] at h
    cases hm : readLe64 rest with
    | none =>
      rw [hm] at h
      cases h
    | some p =>
      simp only [hm] at h
      split_ifs at h with hbits
      cases Except.ok.inj h
      exact ⟨rest, hk, hm, not_ne_iff.mp hbits⟩
  · rintro ⟨rest, hk, hm, hsize⟩
    have hlen : ¬data.length < 12 := by
      have h₁ := readLe32_length hk
      have h₂ := readLe64_length hm
      omega
    rw [decode, if_neg hlen]
    simp only [getUint32, hk, getUint64, hm, bind, Except.bind, hsize, ne_eq,
      not_true_eq_false, if_false]
    rfl

/-- Decoding a filter is in range. -/
theorem decode_returns (data : Bytes) : Returns (decode data) fun b =>
    b.bits.length = ((b.m + 7) / 8).toNat := by
  unfold decode
  split_ifs with hlen
  · exact .malformed
  refine getUint32_bind (by omega) fun k data₁ h₁ => ?_
  refine getUint64_bind (by omega) fun m bits h₂ => ?_
  dsimp only
  split_ifs with hbits
  · exact .malformed
  · exact .ok (not_ne_iff.mp hbits)

end BloomFilter

/-- A filter block that is a header only, with a number of bits whose size wraps around and a number
of places to ask. -/
def WrappedHeader (data : Bytes) : Prop :=
  ∃ k rest m, readLe32 data = some (k, rest) ∧ readLe64 rest = some (m, []) ∧ k ≠ 0 ∧
    2 ^ 64 ≤ m.toNat + 7

/-- **Decoding a block is safe iff it is not a wrapped header.** Whatever bytes a block has, the
decoders of entries and of the index, the scans over a block and the decoder of a filter return
their own error or a result, with every read in range. A filter that the decoder accepts is asked in
range for every key unless the block is a header whose number of bits wraps around. -/
theorem block_decoding_safe_iff (fnv : Bytes → UInt64) (data key : Bytes) :
    (decodeEntry data ≠ .error .outOfRange ∧ decodeIndex data ≠ .error .outOfRange ∧
      decodeBlock data ≠ .error .outOfRange ∧ scanBlock key data ≠ .error .outOfRange ∧
      BloomFilter.decode data ≠ .error .outOfRange ∧
      ∀ b, BloomFilter.decode data = .ok b → b.mayContain fnv key ≠ none) ↔
        ¬WrappedHeader data := by
  constructor
  · rintro ⟨-, -, -, -, -, hask⟩ ⟨k, rest, m, hk, hm, hne, hwrap⟩
    have hnil : ((m + 7) / 8).toNat = 0 := BloomFilter.wrapped_size hwrap
    have haccepted : BloomFilter.decode data = .ok ⟨m, k, []⟩ :=
      BloomFilter.decode_ok_iff.mpr ⟨rest, hk, hm, hnil.symm⟩
    rcases (BloomFilter.mayContain_isSome_iff (b := ⟨m, k, []⟩) hnil.symm).mp
      (hask _ haccepted) with hfits | hzero
    · exact absurd hwrap (Nat.not_le.mpr hfits)
    · exact hne hzero
  · intro hno
    refine ⟨(decodeEntry_returns data).in_range,
      (decodeAll_returns decodeIndexEntry_returns data).in_range,
        (decodeAll_returns decodeEntry_returns data).in_range,
          (scanBlock_returns key data).in_range,
      (BloomFilter.decode_returns data).in_range, fun b hb => ?_⟩
    obtain ⟨rest, hk, hm, hsize⟩ := BloomFilter.decode_ok_iff.mp hb
    rw [BloomFilter.mayContain_isSome_iff hsize]
    by_contra hor
    obtain ⟨hwrap, hne⟩ := not_or.mp hor
    rw [BloomFilter.bits_eq_nil_of_wrapped hsize (Nat.not_lt.mp hwrap)] at hm
    exact hno ⟨b.k, rest, b.m, hk, hm, hne, Nat.not_lt.mp hwrap⟩

/-- A filter of `2 ^ 64 - 1` bits, of which one is asked for a key, in no bytes. -/
theorem wrapped_filter_panics :
    ∃ b, BloomFilter.decode (le32 1 ++ le64 (-1)) = .ok b ∧
      ∀ fnv key, b.mayContain fnv key = none := by
  refine ⟨⟨-1, 1, []⟩, by decide +kernel, fun fnv key => ?_⟩
  rw [BloomFilter.mayContain, if_neg (by decide)]
  rfl

end KvStore.Sstable
