import KvStore.Transport.Codec

/-!
# The Bloom filter of a sorted table: `sstable/bloom.go`

A filter of `m` bits, of which each key sets `k`. The places are computed from two hashes in 64
bits, so that they wrap around before they are reduced modulo `m`. The first hash is any function of
the key (`fnv`).

* A place outside the array is a panic (`none`). `(m + 7) / 8` wraps around too: an `m` within seven
  of `2 ^ 64` has no bytes at all, and `Sound` leaves it out.
* `mayContain_of_mem`: a filter to which a key was added does not rule it out, also after it has
  been written and read back, which reduces `k` to 32 bits.
* `mayContain_total`: asking a sound filter does not panic. `mayContain_isSome_iff`: nor does asking
  one of the right size, exactly if it is sound.
-/

namespace KvStore.Sstable

open Codec Wal Transport

/-- `bloomFilter`. -/
structure BloomFilter where
  m : UInt64
  k : ℕ
  bits : Bytes
  deriving DecidableEq, Repr

/-- `splitmix64`. -/
def splitmix64 (x : UInt64) : UInt64 :=
  let x := x + 0x9E3779B97F4A7C15
  let x := (x ^^^ (x >>> 30)) * 0xBF58476D1CE4E5B9
  let x := (x ^^^ (x >>> 27)) * 0x94D049BB133111EB
  x ^^^ (x >>> 31)

/-- The place of a key's `i`-th bit, with `bloomHashes`. -/
def probe (fnv : Bytes → UInt64) (m : UInt64) (key : Bytes) (i : ℕ) : UInt64 :=
  (fnv key + UInt64.ofNat i * splitmix64 (fnv key)) % m

/-- The bit's place in its byte. -/
def bitMask (idx : UInt64) : UInt8 := 1 <<< (idx % 8).toUInt8

/-- `bits[idx/8] |= 1 << (idx % 8)`. -/
def setBit (bits : Bytes) (idx : UInt64) : Option Bytes := do
  let b ← bits[(idx / 8).toNat]?
  return bits.set (idx / 8).toNat (b ||| bitMask idx)

/-- `bits[idx/8] & (1 << (idx % 8)) != 0`. -/
def hasBit (bits : Bytes) (idx : UInt64) : Option Bool := do
  let b ← bits[(idx / 8).toNat]?
  return b &&& bitMask idx != 0

/-- The loop of `mayContain` over the places: stop at the first bit that is not set. -/
def allSet (bits : Bytes) : List UInt64 → Option Bool
  | [] => some true
  | idx :: rest => do
    if ← hasBit bits idx then allSet bits rest else return false

namespace BloomFilter

/-- `newBloomFilter`, with the parameters that `bloomParams` has computed. -/
def new (m : UInt64) (k : ℕ) : BloomFilter := ⟨m, k, List.replicate ((m + 7) / 8).toNat 0⟩

/-- The places of a key's bits. -/
def probes (fnv : Bytes → UInt64) (b : BloomFilter) (key : Bytes) : List UInt64 :=
  (List.range b.k).map (probe fnv b.m key)

/-- `add`. -/
def add (fnv : Bytes → UInt64) (b : BloomFilter) (key : Bytes) : Option BloomFilter :=
  if b.m = 0 then some b
  else do
    let bits ← (b.probes fnv key).foldlM setBit b.bits
    return { b with bits := bits }

/-- `mayContain`. -/
def mayContain (fnv : Bytes → UInt64) (b : BloomFilter) (key : Bytes) : Option Bool :=
  if b.m = 0 then some true else allSet b.bits (b.probes fnv key)

/-- `encode`. -/
def encode (b : BloomFilter) : Bytes := le32 (b.k % 2 ^ 32) ++ (le64 b.m ++ b.bits)

/-- `decodeBloomFilter`. -/
def decode (data : Bytes) : Except DecodeFault BloomFilter :=
  if data.length < 12 then .error .malformed
  else do
    let (k, data) ← getUint32 data
    let (m, bits) ← getUint64 data
    if bits.length ≠ ((m + 7) / 8).toNat then .error .malformed else return ⟨m, k, bits⟩

end BloomFilter

/-! ## Bits -/

theorem and_or_ne_zero {b s t : UInt8} (h : b &&& t ≠ 0 ∨ s &&& t ≠ 0) : (b ||| s) &&& t ≠ 0 := by
  have hdistrib : (b ||| s) &&& t = (b &&& t) ||| (s &&& t) := by
    apply UInt8.toNat_inj.mp
    simp only [UInt8.toNat_and, UInt8.toNat_or, Nat.and_or_distrib_right]
  rw [hdistrib, Ne, UInt8.or_eq_zero_iff]
  tauto

theorem bitMask_ne_zero (idx : UInt64) : bitMask idx ≠ 0 := by
  intro hzero
  have hnat := congrArg UInt8.toNat hzero
  rw [bitMask, UInt8.toNat_shiftLeft, UInt8.toNat_one, Nat.one_shiftLeft,
    Nat.mod_eq_of_lt (Nat.pow_lt_pow_right (by decide) (Nat.mod_lt _ (by decide)))] at hnat
  exact absurd hnat (Nat.two_pow_pos _).ne'

/-- Setting a bit sets it, keeps those that are set, and does not change the size. -/
theorem setBit_spec {bits : Bytes} {idx : UInt64} (h : (idx / 8).toNat < bits.length) :
    ∃ bits', setBit bits idx = some bits' ∧ bits'.length = bits.length ∧
      hasBit bits' idx = some true ∧ ∀ j, hasBit bits j = some true →
        hasBit bits' j = some true := by
  have hget : bits[(idx / 8).toNat]? = some bits[(idx / 8).toNat] := List.getElem?_eq_getElem h
  refine ⟨bits.set (idx / 8).toNat (bits[(idx / 8).toNat] ||| bitMask idx), ?_,
    List.length_set .., ?_, ?_⟩
  · rw [setBit, hget]
    rfl
  · rw [hasBit, List.getElem?_set_self h]
    have hne := and_or_ne_zero (b := bits[(idx / 8).toNat]) (s := bitMask idx) (t := bitMask idx)
      (Or.inr (by rw [UInt8.and_self]; exact bitMask_ne_zero idx))
    exact congrArg some (bne_iff_ne.mpr hne)
  · intro j hj
    obtain ⟨b, hb, hset⟩ := Option.bind_eq_some_iff.mp hj
    rw [hasBit]
    by_cases hsame : (idx / 8).toNat = (j / 8).toNat
    · rw [← hsame] at hb ⊢
      rw [hget] at hb
      rw [List.getElem?_set_self h, Option.some.inj hb]
      have hne : b &&& bitMask j ≠ 0 := bne_iff_ne.mp (Option.some.inj hset)
      exact congrArg some (bne_iff_ne.mpr (and_or_ne_zero (Or.inl hne)))
    · rw [List.getElem?_set_ne hsame, hb]
      exact hset

/-- Setting several bits. -/
theorem foldlM_setBit {bits : Bytes} {places : List UInt64}
    (h : ∀ idx ∈ places, (idx / 8).toNat < bits.length) :
    ∃ bits', places.foldlM setBit bits = some bits' ∧ bits'.length = bits.length ∧
      (∀ idx ∈ places, hasBit bits' idx = some true) ∧
      ∀ j, hasBit bits j = some true → hasBit bits' j = some true := by
  induction places generalizing bits with
  | nil => exact ⟨bits, rfl, rfl, nofun, fun _ hj => hj⟩
  | cons idx places ih =>
    obtain ⟨bits₁, hset, hlen, hidx, hkeep⟩ := setBit_spec (h idx List.mem_cons_self)
    have hrange : ∀ j ∈ places, (j / 8).toNat < bits₁.length := fun j hj =>
      hlen ▸ h j (List.mem_cons_of_mem idx hj)
    obtain ⟨bits₂, hfold, hlen₂, hall, hkeep₂⟩ := ih hrange
    refine ⟨bits₂, ?_, hlen₂.trans hlen, ?_, fun j hj => hkeep₂ j (hkeep j hj)⟩
    · rw [List.foldlM_cons, hset]
      exact hfold
    · intro j hj
      rcases List.mem_cons.mp hj with rfl | hj
      · exact hkeep₂ _ hidx
      · exact hall j hj

theorem allSet_of_forall {bits : Bytes} {places : List UInt64}
    (h : ∀ idx ∈ places, hasBit bits idx = some true) : allSet bits places = some true := by
  induction places with
  | nil => rfl
  | cons idx places ih =>
    rw [allSet, h idx List.mem_cons_self]
    exact ih fun j hj => h j (List.mem_cons_of_mem idx hj)

theorem allSet_total {bits : Bytes} {places : List UInt64}
    (h : ∀ idx ∈ places, (idx / 8).toNat < bits.length) :
    ∃ answer, allSet bits places = some answer := by
  induction places with
  | nil => exact ⟨true, rfl⟩
  | cons idx places ih =>
    obtain ⟨answer, hrest⟩ := ih fun j hj => h j (List.mem_cons_of_mem idx hj)
    rw [allSet, hasBit, List.getElem?_eq_getElem (h idx List.mem_cons_self)]
    simp only [Option.bind_eq_bind, Option.bind_some, Option.pure_def]
    split_ifs
    · exact ⟨answer, hrest⟩
    · exact ⟨false, rfl⟩

/-! ## Filters -/

namespace BloomFilter

variable {fnv : Bytes → UInt64} {b : BloomFilter} {key : Bytes}

/-- The array has a bit for each of the `m` places, unless no place is asked. -/
structure Sound (b : BloomFilter) : Prop where
  fits : b.m.toNat + 7 < 2 ^ 64 ∨ b.k = 0
  size : b.bits.length = ((b.m + 7) / 8).toNat

/-- The key's bits are set. -/
def Marked (fnv : Bytes → UInt64) (b : BloomFilter) (key : Bytes) : Prop :=
  b.m = 0 ∨ ∀ idx ∈ b.probes fnv key, hasBit b.bits idx = some true

theorem Sound.probe_lt (h : b.Sound) (hm : b.m ≠ 0) (fnv : Bytes → UInt64) (key : Bytes) :
    ∀ idx ∈ b.probes fnv key, (idx / 8).toNat < b.bits.length := by
  intro idx hidx
  obtain ⟨i, hi, rfl⟩ := List.mem_map.mp hidx
  have hfits : b.m.toNat + 7 < 2 ^ 64 := h.fits.resolve_right fun hk => by
    rw [hk] at hi
    exact absurd hi List.not_mem_nil
  have hpos : 0 < b.m.toNat := Nat.pos_of_ne_zero fun h0 => hm (UInt64.toNat_inj.mp h0)
  have hlt : (probe fnv b.m key i).toNat < b.m.toNat := by
    rw [probe, UInt64.toNat_mod]
    exact Nat.mod_lt _ hpos
  have hsum : (b.m + 7).toNat = b.m.toNat + 7 := by
    rw [UInt64.toNat_add]
    exact Nat.mod_eq_of_lt hfits
  rw [h.size, UInt64.toNat_div, UInt64.toNat_div, hsum]
  simp only [UInt64.reduceToNat]
  omega

/-- Adding a key marks it and keeps the marks of the others. -/
theorem Sound.add (h : b.Sound) (fnv : Bytes → UInt64) (key : Bytes) :
    ∃ b', b.add fnv key = some b' ∧ b'.Sound ∧ b'.m = b.m ∧ b'.k = b.k ∧ b'.Marked fnv key ∧
      ∀ key', b.Marked fnv key' → b'.Marked fnv key' := by
  rw [BloomFilter.add]
  by_cases hm : b.m = 0
  · rw [if_pos hm]
    exact ⟨b, rfl, h, rfl, rfl, Or.inl hm, fun _ hmark => hmark⟩
  · obtain ⟨bits, hfold, hlen, hset, hkeep⟩ := foldlM_setBit (h.probe_lt hm fnv key)
    rw [if_neg hm, hfold]
    refine ⟨_, rfl, ⟨h.fits, hlen.trans h.size⟩, rfl, rfl, Or.inr hset, fun key' hmark => ?_⟩
    exact hmark.imp_right fun hall idx hidx => hkeep idx (hall idx hidx)

/-- Adding keys one after the other marks them all. -/
theorem Sound.addAll (h : b.Sound) (fnv : Bytes → UInt64) (keys : List Bytes) :
    ∃ b', keys.foldlM (BloomFilter.add fnv) b = some b' ∧ b'.Sound ∧ b'.m = b.m ∧ b'.k = b.k ∧
      (∀ key ∈ keys, b'.Marked fnv key) ∧ ∀ key, b.Marked fnv key → b'.Marked fnv key := by
  induction keys generalizing b with
  | nil => exact ⟨b, rfl, h, rfl, rfl, nofun, fun _ hmark => hmark⟩
  | cons key keys ih =>
    obtain ⟨b₁, hadd, hs₁, hm₁, hk₁, hmark, hkeep⟩ := h.add fnv key
    obtain ⟨b₂, hfold, hs₂, hm₂, hk₂, hall, hkeep₂⟩ := ih hs₁
    refine ⟨b₂, ?_, hs₂, hm₂.trans hm₁, hk₂.trans hk₁, fun key' hkey' => ?_,
      fun key' hmark' => hkeep₂ key' (hkeep key' hmark')⟩
    · rw [List.foldlM_cons, hadd]
      exact hfold
    · rcases List.mem_cons.mp hkey' with rfl | hkey'
      · exact hkeep₂ _ hmark
      · exact hall key' hkey'

/-- The size of an array for one of the seven greatest numbers of bits wraps around to nothing. -/
theorem wrapped_size {m : UInt64} (h : 2 ^ 64 ≤ m.toNat + 7) : ((m + 7) / 8).toNat = 0 := by
  have hlt := m.toNat_lt
  have hsum : (m + 7).toNat = m.toNat + 7 - 2 ^ 64 := by
    rw [UInt64.toNat_add, show (7 : UInt64).toNat = 7 from rfl, Nat.mod_eq_sub_mod h,
      Nat.mod_eq_of_lt (by omega)]
  rw [UInt64.toNat_div, hsum, show (8 : UInt64).toNat = 8 from rfl]
  omega

theorem sound_new {m : UInt64} {k : ℕ} (h : m.toNat + 7 < 2 ^ 64 ∨ k = 0) : (new m k).Sound :=
  ⟨h, List.length_replicate⟩

/-- A filter that has no bytes and asks a place takes no key. -/
theorem add_new_of_wrapped {m : UInt64} (h : 2 ^ 64 ≤ m.toNat + 7) {k : ℕ} (hk : k ≠ 0)
    (fnv : Bytes → UInt64) (key : Bytes) : (new m k).add fnv key = none := by
  have hm : m ≠ 0 := by
    rintro rfl
    exact absurd h (by decide)
  obtain ⟨k, rfl⟩ := Nat.exists_eq_succ_of_ne_zero hk
  rw [add, new, wrapped_size h, List.replicate_zero, if_neg hm, probes, List.range_succ_eq_map,
    List.map_cons]
  rfl

theorem Sound.stored (h : b.Sound) : ({ b with k := b.k % 2 ^ 32 } : BloomFilter).Sound :=
  ⟨h.fits.imp_right fun hk => by simp only [hk, Nat.zero_mod], h.size⟩

/-- Asking fewer places keeps a mark. -/
theorem Marked.mono (h : b.Marked fnv key) {k : ℕ} (hk : k ≤ b.k) :
    ({ b with k := k }).Marked fnv key := by
  refine h.imp_right fun hall idx hidx => hall idx ?_
  obtain ⟨i, hi, rfl⟩ := List.mem_map.mp hidx
  exact List.mem_map.mpr ⟨i, List.mem_range.mpr ((List.mem_range.mp hi).trans_le hk), rfl⟩

/-- A filter does not rule out a key that is marked. -/
theorem Marked.mayContain (h : b.Marked fnv key) : b.mayContain fnv key = some true := by
  rw [BloomFilter.mayContain]
  split_ifs with hm
  · rfl
  · exact allSet_of_forall (h.resolve_left hm)

/-- Asking a sound filter does not panic. -/
theorem Sound.mayContain_total (h : b.Sound) (fnv : Bytes → UInt64) (key : Bytes) :
    ∃ answer, b.mayContain fnv key = some answer := by
  rw [BloomFilter.mayContain]
  split_ifs with hm
  · exact ⟨true, rfl⟩
  · exact allSet_total (h.probe_lt hm fnv key)

theorem bits_eq_nil_of_wrapped (hsize : b.bits.length = ((b.m + 7) / 8).toNat)
    (h : 2 ^ 64 ≤ b.m.toNat + 7) : b.bits = [] :=
  List.eq_nil_of_length_eq_zero (hsize.trans (wrapped_size h))

/-- A filter of a size that the decoder accepts is asked in range iff its size did not wrap around,
or it asks no bits. -/
theorem mayContain_isSome_iff (hsize : b.bits.length = ((b.m + 7) / 8).toNat) :
    b.mayContain fnv key ≠ none ↔ b.m.toNat + 7 < 2 ^ 64 ∨ b.k = 0 := by
  constructor
  · intro hsome
    by_contra hno
    obtain ⟨hwrap, hk⟩ := not_or.mp hno
    have hnil := bits_eq_nil_of_wrapped hsize (Nat.not_lt.mp hwrap)
    have hm : b.m ≠ 0 := by
      rintro hm
      rw [hm] at hwrap
      exact hwrap (by decide)
    obtain ⟨k, hk⟩ := Nat.exists_eq_succ_of_ne_zero hk
    -- the first place that is asked is already outside the empty array
    rw [mayContain, if_neg hm, probes, hk, List.range_succ_eq_map, List.map_cons, allSet, hnil]
      at hsome
    exact hsome rfl
  · intro hfits
    obtain ⟨answer, hans⟩ := Sound.mayContain_total ⟨hfits, hsize⟩ fnv key
    rw [hans]
    exact Option.some_ne_none answer

/-- A filter that is written is read back, with `k` in 32 bits. -/
theorem decode_encoded (hsize : b.bits.length = ((b.m + 7) / 8).toNat) :
    decode b.encode = .ok { b with k := b.k % 2 ^ 32 } := by
  have hlen : ¬b.encode.length < 12 := by
    simp only [encode, le64, List.length_append, Framing.length_le32]
    omega
  rw [decode, if_neg hlen, encode]
  simp only [getUint32, readLe32_le32 (Nat.mod_lt b.k (by decide : 0 < 2 ^ 32)), getUint64,
    readLe64_le64, bind, Except.bind, hsize, ne_eq, not_true_eq_false, if_false]
  rfl

end BloomFilter

end KvStore.Sstable
