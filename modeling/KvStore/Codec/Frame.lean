import KvStore.Codec.LengthPrefix

/-!
# Checksummed frames

A stream of values, each written as a frame: the checksum of its encoding, the encoding's length,
both in four bytes, and the encoding. A reader scans the frames from the front and stops at the
first place where there is no whole frame with the right checksum and a well-formed encoding. What
it stops at is the tail.

* `scan_writeAll_append`: whole frames are read back, and scanning goes on with what follows them.
* `scan_torn`: a proper prefix of a frame is a tail.
* `scan_take`: of frames that were cut anywhere, the whole ones are read.
* `scan_front`: what stands before the tail is read in the same way without it.

Any function may be the checksum: a cut is found by the length.
-/

namespace KvStore.Codec

/-- How values are written in frames. -/
structure Framing (α : Type*) where
  checksum : List UInt8 → UInt32
  encode : α → List UInt8
  decode : List UInt8 → Option α

namespace Framing

variable {α : Type*} (F : Framing α)

/-- The frame of a value. -/
def write (a : α) : List UInt8 :=
  le32 (F.checksum (F.encode a)).toNat ++ (le32 (F.encode a).length ++ F.encode a)

/-- The frames of values. -/
def writeAll (as : List α) : List UInt8 := as.flatMap F.write

/-- Read a frame from the front. -/
def read (data : List UInt8) : Option (α × List UInt8) :=
  match readLe32 data with
  | none => none
  | some (sum, data) =>
    match readLe32 data with
    | none => none
    | some (len, data) =>
      if data.length < len then none
      else if (F.checksum (data.take len)).toNat ≠ sum then none
      else (F.decode (data.take len)).map fun a => (a, data.drop len)

/-- Read frames from the front, at most `fuel` of them. -/
def scanFrom : ℕ → List UInt8 → List α × List UInt8
  | 0, data => ([], data)
  | fuel + 1, data =>
    match F.read data with
    | none => ([], data)
    | some (a, rest) => (a :: (scanFrom fuel rest).1, (scanFrom fuel rest).2)

/-- Read all frames from the front, and the tail they leave. A frame is at least eight bytes long,
so that there are fewer frames than bytes. -/
def scan (data : List UInt8) : List α × List UInt8 := F.scanFrom data.length data

/-- The length of the value's encoding fits its field, and the encoding is read back. -/
def Fits (a : α) : Prop := (F.encode a).length < 2 ^ 32 ∧ F.decode (F.encode a) = some a

variable {F} {a : α} {as : List α} {data rest t : List UInt8}

theorem read_length (h : F.read data = some (a, rest)) : rest.length + 8 ≤ data.length := by
  unfold read at h
  split at h
  · cases h
  next sum data₁ h₁ =>
  split at h
  · cases h
  next len data₂ h₂ =>
  split_ifs at h
  obtain ⟨a', -, heq⟩ := Option.map_eq_some_iff.mp h
  obtain ⟨-, rfl⟩ := Prod.mk.inj heq
  rw [readLe32_length h₁, readLe32_length h₂, List.length_drop]
  omega

/-- Enough fuel reads all. -/
theorem scanFrom_eq_scan {n : ℕ} (h : data.length ≤ n) : F.scanFrom n data = F.scan data := by
  -- both sides read frame by frame; the rest is shorter than the data
  induction hlen : data.length using Nat.strongRecOn generalizing data n with
  | ind len ih =>
    subst hlen
    unfold scan
    cases hr : F.read data with
    | none => cases n <;> cases hd : data.length <;> simp [scanFrom, hr]
    | some p =>
      obtain ⟨a, rest⟩ := p
      have hlt := read_length hr
      obtain ⟨n, rfl⟩ : ∃ k, n = k + 1 := ⟨n - 1, by omega⟩
      obtain ⟨m, hm⟩ : ∃ k, data.length = k + 1 := ⟨data.length - 1, by omega⟩
      rw [hm]
      simp only [scanFrom, hr]
      rw [ih rest.length (by omega) (n := n) (by omega) rfl,
        ih rest.length (by omega) (n := m) (by omega) rfl]

/-- Scanning, frame by frame. -/
theorem scan_eq (data : List UInt8) : F.scan data =
    match F.read data with
    | none => ([], data)
    | some (a, rest) => (a :: (F.scan rest).1, (F.scan rest).2) := by
  cases hr : F.read data with
  | none => cases hd : data.length <;> simp [scan, hd, scanFrom, hr]
  | some p =>
    obtain ⟨a, rest⟩ := p
    have hlt := read_length hr
    obtain ⟨m, hm⟩ : ∃ k, data.length = k + 1 := ⟨data.length - 1, by omega⟩
    unfold scan
    rw [hm]
    simp only [scanFrom, hr]
    rw [scanFrom_eq_scan (by omega)]
    rfl

theorem read_write_append (h : F.Fits a) (rest : List UInt8) :
    F.read (F.write a ++ rest) = some (a, rest) := by
  unfold read write
  rw [List.append_assoc, readLe32_le32 (UInt32.toNat_lt _)]
  dsimp only
  rw [List.append_assoc, readLe32_le32 h.1]
  dsimp only
  rw [if_neg (by rw [List.length_append]; omega), List.take_left, List.drop_left,
    if_neg (not_not.mpr rfl), h.2]
  rfl

theorem scan_writeAll_append (h : ∀ a ∈ as, F.Fits a) (t : List UInt8) :
    F.scan (F.writeAll as ++ t) = (as ++ (F.scan t).1, (F.scan t).2) := by
  induction as with
  | nil => rfl
  | cons a as ih =>
    unfold writeAll
    rw [List.flatMap_cons, List.append_assoc, scan_eq,
      read_write_append (h a List.mem_cons_self)]
    have ih := ih fun b hb => h b (List.mem_cons_of_mem _ hb)
    unfold writeAll at ih
    dsimp only
    rw [ih]
    rfl

theorem writeAll_append (as bs : List α) : F.writeAll (as ++ bs) = F.writeAll as ++ F.writeAll bs :=
  List.flatMap_append

/-! ## Frames that were cut -/

theorem readLe32_none (h : data.length < 4) : readLe32 data = none := by
  match data, h with
  | [], _ | [_], _ | [_, _], _ | [_, _, _], _ => rfl
  | _ :: _ :: _ :: _ :: _, h => simp at h; omega

theorem length_le32 (n : ℕ) : (le32 n).length = 4 := rfl

/-- What is left of a frame that was cut short is not a frame. -/
theorem read_torn (h : F.Fits a) {k : ℕ} (hk : k < (F.write a).length) :
    F.read ((F.write a).take k) = none := by
  unfold read
  by_cases h4 : k < 4
  · rw [readLe32_none (by rw [List.length_take]; omega)]
  unfold write at hk ⊢
  simp only [List.length_append, length_le32] at hk
  -- the checksum is whole
  rw [List.take_append, List.take_of_length_le (by rw [length_le32]; omega), length_le32,
    readLe32_le32 (UInt32.toNat_lt _)]
  dsimp only
  by_cases h8 : k < 8
  · rw [readLe32_none (by rw [List.length_take]; omega)]
  -- so is the length, and it is more than what follows
  rw [List.take_append, List.take_of_length_le (by rw [length_le32]; omega), length_le32,
    readLe32_le32 h.1]
  dsimp only
  rw [if_pos (by rw [List.length_take]; omega)]

theorem scan_torn (h : F.Fits a) {k : ℕ} (hk : k < (F.write a).length) :
    F.scan ((F.write a).take k) = ([], (F.write a).take k) := by
  rw [scan_eq, read_torn h hk]

/-- **Of frames that were cut, the whole ones are read.** -/
theorem scan_take (h : ∀ a ∈ as, F.Fits a) (k : ℕ) : ∃ bs t, bs <+: as ∧
    (F.writeAll as).take k = F.writeAll bs ++ t ∧ F.scan ((F.writeAll as).take k) = (bs, t) := by
  induction as generalizing k with
  | nil => exact ⟨[], [], List.prefix_rfl, by simp [writeAll], by simp [writeAll]; rfl⟩
  | cons a as ih =>
    have ha := h a List.mem_cons_self
    have hcons : F.writeAll (a :: as) = F.write a ++ F.writeAll as := List.flatMap_cons
    rw [hcons, List.take_append]
    by_cases hk : k < (F.write a).length
    · refine ⟨[], (F.write a).take k, List.nil_prefix, ?_, ?_⟩
      · rw [Nat.sub_eq_zero_of_le (Nat.le_of_lt hk), List.take_zero, List.append_nil]
        rfl
      · rw [Nat.sub_eq_zero_of_le (Nat.le_of_lt hk), List.take_zero, List.append_nil,
          scan_torn ha hk]
    · obtain ⟨bs, t, hbs, htake, hscan⟩ :=
        ih (fun b hb => h b (List.mem_cons_of_mem _ hb)) (k - (F.write a).length)
      refine ⟨a :: bs, t, List.cons_prefix_cons.mpr ⟨rfl, hbs⟩, ?_, ?_⟩
      · rw [List.take_of_length_le (by omega), htake, ← List.append_assoc]
        rfl
      · rw [List.take_of_length_le (by omega), scan_eq, read_write_append ha]
        dsimp only
        rw [hscan]

/-! ## What stands before the tail -/

theorem readLe32_front {n : ℕ} (h : readLe32 data = some (n, rest)) :
    ∃ front, data = front ++ rest ∧ ∀ rest', readLe32 (front ++ rest') = some (n, rest') := by
  match data, h with
  | a :: b :: c :: d :: _, h =>
    obtain ⟨rfl, rfl⟩ := Prod.mk.inj (Option.some.inj h)
    exact ⟨[a, b, c, d], rfl, fun _ => rfl⟩

/-- A frame is read in the same way whatever follows it. -/
theorem read_front (h : F.read data = some (a, rest)) :
    ∃ front, data = front ++ rest ∧ ∀ rest', F.read (front ++ rest') = some (a, rest') := by
  unfold read at h
  split at h
  · cases h
  next sum data₁ h₁ =>
  split at h
  · cases h
  next len data₂ h₂ =>
  split_ifs at h with hlen hsum
  obtain ⟨a', hdec, heq⟩ := Option.map_eq_some_iff.mp h
  obtain ⟨rfl, rfl⟩ := Prod.mk.inj heq
  obtain ⟨front₁, rfl, hread₁⟩ := readLe32_front h₁
  obtain ⟨front₂, rfl, hread₂⟩ := readLe32_front h₂
  have hpayload : (data₂.take len).length = len := by rw [List.length_take]; omega
  refine ⟨front₁ ++ (front₂ ++ data₂.take len), ?_, fun rest' => ?_⟩
  · simp only [List.append_assoc, List.take_append_drop]
  · simp only [read, List.append_assoc, hread₁, hread₂]
    rw [if_neg (by rw [List.length_append]; omega), List.take_left' hpayload,
      List.drop_left' hpayload, if_neg hsum, hdec]
    rfl

/-- **Without its tail a stream is read in the same way**, to its end. -/
theorem scan_front (data : List UInt8) :
    ∃ front, data = front ++ (F.scan data).2 ∧ F.scan front = ((F.scan data).1, []) := by
  induction hlen : data.length using Nat.strongRecOn generalizing data with
  | ind len ih =>
    subst hlen
    rw [scan_eq data]
    cases hr : F.read data with
    | none => exact ⟨[], rfl, rfl⟩
    | some p =>
      obtain ⟨a, rest⟩ := p
      have hlt := read_length hr
      obtain ⟨front, hdata, hread⟩ := read_front hr
      obtain ⟨more, hmore, hscan⟩ := ih rest.length (by omega) rest rfl
      refine ⟨front ++ more, ?_, ?_⟩
      · dsimp only
        rw [List.append_assoc, ← hmore]
        exact hdata
      · rw [scan_eq, hread more]
        dsimp only
        rw [hscan]

end Framing

end KvStore.Codec
