import KvStore.Codec.Uvarint
import KvStore.Engine.Table
import KvStore.Transport.Codec

/-!
# Blocks of a sorted table: `sstable/block.go`

A data block is a series of entries, and the index block a series of index entries. Lengths and
sequence numbers are written as variable-length numbers. The decoders' place is the part of the
block from their offset on; a read outside it is a panic (`outOfRange`), which is not their error
(`malformed`).

* `decodeEntry_encode`, `decodeIndexEntry_encode`: an entry is read back and what follows is left.
* `decodeBlock_encode`, `decodeIndex_encode`: so is a series.
* `scanBlock_encode`: the scan of `Get` finds what the block has for a key, since its keys are in
  order.
-/

namespace KvStore.Sstable

open Codec Wal Transport Layered

/-- `entryDelete`. -/
def entryDelete : UInt8 := 1

/-- `entryPut`. -/
def entryPut : UInt8 := 0

/-- `encodeEntry`. -/
def encodeEntry (a : Bytes × Entry) : Bytes :=
  uvarint a.1.length ++ (a.1 ++ ((if a.2.deleted then entryDelete else entryPut) ::
    (uvarint a.2.seq.toNat ++ (uvarint a.2.value.length ++ a.2.value))))

/-- `binary.Uvarint`, with the error its callers return for a number that is not whole or too
large. -/
def getUvarint (data : Bytes) : Except DecodeFault (ℕ × Bytes) :=
  match readUvarint data with
  | none => .error .malformed
  | some p => .ok p

/-- Bytes with their length before them. -/
def getCounted (data : Bytes) : Except DecodeFault (Bytes × Bytes) := do
  let (n, data) ← getUvarint data
  if data.length < n then .error .malformed else getSlice n data

/-- `decodeEntry`: the entry, and what follows it. -/
def decodeEntry (data : Bytes) : Except DecodeFault ((Bytes × Entry) × Bytes) := do
  let (key, data) ← getCounted data
  if data = [] then .error .malformed
  else
    let (type, data) ← getByte data
    let (seq, data) ← getUvarint data
    let (value, data) ← getCounted data
    return ((key, ⟨value, UInt64.ofNat seq, type == entryDelete⟩), data)

/-- The loop `for off < len(data)` of `loadBlock` and `decodeIndex`, which decodes one part after
the other. -/
def decodeAllFrom {α : Type} (one : Bytes → Except DecodeFault (α × Bytes)) :
    ℕ → Bytes → Except DecodeFault (List α)
  | _, [] => .ok []
  | 0, _ :: _ => .error .outOfRange
  | fuel + 1, b :: data => do
    let (a, rest) ← one (b :: data)
    let as ← decodeAllFrom one fuel rest
    return a :: as

/-- All parts of a block. -/
def decodeAll {α : Type} (one : Bytes → Except DecodeFault (α × Bytes)) (data : Bytes) :
    Except DecodeFault (List α) := decodeAllFrom one data.length data

/-- The entries of a block. -/
def decodeBlock (data : Bytes) : Except DecodeFault (List (Bytes × Entry)) :=
  decodeAll decodeEntry data

/-- The loop of `Get` over the entries of a block: stop at the key or at a greater one. -/
def scanBlockFrom (key : Bytes) : ℕ → Bytes → Except DecodeFault (Option Entry)
  | _, [] => .ok none
  | 0, _ :: _ => .error .outOfRange
  | fuel + 1, b :: data => do
    let (a, rest) ← decodeEntry (b :: data)
    if a.1 = key then return some a.2
    else if key < a.1 then return none
    else scanBlockFrom key fuel rest

/-- What the scan of a block finds for a key. -/
def scanBlock (key data : Bytes) : Except DecodeFault (Option Entry) :=
  scanBlockFrom key data.length data

/-- `indexEntry`. -/
structure IndexEntry where
  lastKey : Bytes
  offset : UInt64
  length : UInt64
  deriving DecidableEq, Repr

/-- One round of `encodeIndex`. -/
def encodeIndexEntry (e : IndexEntry) : Bytes :=
  uvarint e.lastKey.length ++ (e.lastKey ++ (le64 e.offset ++ le64 e.length))

/-- `encodeIndex`. -/
def encodeIndex (entries : List IndexEntry) : Bytes := entries.flatMap encodeIndexEntry

/-- One round of `decodeIndex`. -/
def decodeIndexEntry (data : Bytes) : Except DecodeFault (IndexEntry × Bytes) := do
  let (key, data) ← getCounted data
  if data.length < 16 then .error .malformed
  else
    let (offset, data) ← getUint64 data
    let (length, data) ← getUint64 data
    return (⟨key, offset, length⟩, data)

/-- `decodeIndex`. -/
def decodeIndex (data : Bytes) : Except DecodeFault (List IndexEntry) :=
  decodeAll decodeIndexEntry data

/-! ## Round trips -/

theorem getUvarint_append {x : ℕ} (h : x < 2 ^ 64) (rest : Bytes) :
    getUvarint (uvarint x ++ rest) = .ok (x, rest) := by
  rw [getUvarint, readUvarint_append h]

theorem getCounted_append {p : Bytes} (h : p.length < 2 ^ 64) (rest : Bytes) :
    getCounted (uvarint p.length ++ (p ++ rest)) = .ok (p, rest) := by
  simp only [getCounted, getUvarint_append h, bind, Except.bind, List.length_append, getSlice]
  rw [if_neg (by omega), if_pos (by omega), List.take_left, List.drop_left]

/-- An entry whose lengths are 64-bit numbers. -/
def Fits (a : Bytes × Entry) : Prop := a.1.length < 2 ^ 64 ∧ a.2.value.length < 2 ^ 64

theorem decodeEntry_encode {a : Bytes × Entry} (h : Fits a) (rest : Bytes) :
    decodeEntry (encodeEntry a ++ rest) = .ok (a, rest) := by
  obtain ⟨key, value, seq, deleted⟩ := a
  have hseq : seq.toNat < 2 ^ 64 := seq.toNat_lt
  simp only [encodeEntry, List.append_assoc, List.cons_append, decodeEntry,
    getCounted_append h.1, bind, Except.bind, List.cons_ne_nil, if_false, getByte,
      getUvarint_append hseq, getCounted_append h.2,
    UInt64.ofNat_toNat]
  cases deleted <;> rfl

theorem encodeEntry_ne_nil (a : Bytes × Entry) : encodeEntry a ≠ [] := by
  intro h
  exact uvarint_ne_nil _ (List.append_eq_nil_iff.mp h).1

section Series

variable {α : Type} {one : Bytes → Except DecodeFault (α × Bytes)} {encode : α → Bytes}
    {as : List α}

theorem length_le_flatMap (hne : ∀ a, encode a ≠ []) (as : List α) :
    as.length ≤ (as.flatMap encode).length := by
  induction as with
  | nil => exact le_rfl
  | cons a as ih =>
    have := List.length_pos_iff.mpr (hne a)
    rw [List.flatMap_cons, List.length_append, List.length_cons]
    omega

theorem decodeAllFrom_encode (hne : ∀ a, encode a ≠ [])
    (h : ∀ a ∈ as, ∀ rest, one (encode a ++ rest) = .ok (a, rest)) {fuel : ℕ}
    (hfuel : as.length ≤ fuel) : decodeAllFrom one fuel (as.flatMap encode) = .ok as := by
  induction as generalizing fuel with
  | nil => cases fuel <;> rfl
  | cons a as ih =>
    obtain ⟨fuel, rfl⟩ := Nat.exists_eq_add_one.mpr (Nat.zero_lt_of_lt hfuel)
    rw [List.flatMap_cons]
    obtain ⟨b, bs, hb⟩ := List.exists_cons_of_ne_nil (hne a)
    have hdec := h a List.mem_cons_self (as.flatMap encode)
    rw [hb, List.cons_append] at hdec ⊢
    simp only [decodeAllFrom, hdec, bind, Except.bind,
      ih (fun x hx => h x (List.mem_cons_of_mem a hx)) (Nat.le_of_succ_le_succ hfuel)]
    rfl

/-- A series is read back if its parts are. -/
theorem decodeAll_encode (hne : ∀ a, encode a ≠ [])
    (h : ∀ a ∈ as, ∀ rest, one (encode a ++ rest) = .ok (a, rest)) :
    decodeAll one (as.flatMap encode) = .ok as :=
  decodeAllFrom_encode hne h (length_le_flatMap hne as)

end Series

/-- A block is read back. -/
theorem decodeBlock_encode {es : List (Bytes × Entry)} (h : ∀ a ∈ es, Fits a) :
    decodeBlock (es.flatMap encodeEntry) = .ok es :=
  decodeAll_encode encodeEntry_ne_nil fun a ha => decodeEntry_encode (h a ha)

theorem scanBlockFrom_encode {es : List (Bytes × Entry)} (h : ∀ a ∈ es, Fits a)
    (hsorted : es.Pairwise fun a b => a.1 < b.1) (key : Bytes) {fuel : ℕ}
    (hfuel : es.length ≤ fuel) : scanBlockFrom key fuel (es.flatMap encodeEntry) =
      .ok (es.lookup key) := by
  induction es generalizing fuel with
  | nil => cases fuel <;> rfl
  | cons a es ih =>
    obtain ⟨hlt, hes⟩ := List.pairwise_cons.mp hsorted
    obtain ⟨fuel, rfl⟩ := Nat.exists_eq_add_one.mpr (Nat.zero_lt_of_lt hfuel)
    rw [List.flatMap_cons]
    obtain ⟨b, bs, hb⟩ := List.exists_cons_of_ne_nil (encodeEntry_ne_nil a)
    have hdec := decodeEntry_encode (h a List.mem_cons_self) (es.flatMap encodeEntry)
    rw [hb, List.cons_append] at hdec ⊢
    simp only [scanBlockFrom, hdec, bind, Except.bind]
    rw [SortedMap.lookup_cons_eq]
    by_cases hk : a.1 = key
    · rw [if_pos hk, if_pos hk.symm]
      rfl
    rw [if_neg hk, if_neg (Ne.symm hk)]
    by_cases hgt : key < a.1
    · -- the keys that follow are greater still
      rw [if_pos hgt, List.lookup_eq_none_iff.mpr fun x hx => by
        simpa using (hgt.trans (hlt x hx)).ne]
      rfl
    · rw [if_neg hgt]
      exact ih (fun x hx => h x (List.mem_cons_of_mem a hx)) hes (Nat.le_of_succ_le_succ hfuel)

/-- The scan of a block finds what it has for the key. -/
theorem scanBlock_encode {es : List (Bytes × Entry)} (h : ∀ a ∈ es, Fits a)
    (hsorted : es.Pairwise fun a b => a.1 < b.1) (key : Bytes) :
    scanBlock key (es.flatMap encodeEntry) = .ok (es.lookup key) :=
  scanBlockFrom_encode h hsorted key (length_le_flatMap encodeEntry_ne_nil es)

theorem decodeIndexEntry_encode {e : IndexEntry} (h : e.lastKey.length < 2 ^ 64) (rest : Bytes) :
    decodeIndexEntry (encodeIndexEntry e ++ rest) = .ok (e, rest) := by
  have hlen : ∀ n r, (le64 n ++ r).length = r.length + 8 := fun n r => by
    rw [le64, List.length_append, List.length_append, Framing.length_le32, Framing.length_le32,
      Nat.add_comm]
  simp only [encodeIndexEntry, List.append_assoc, decodeIndexEntry, getCounted_append h, bind,
    Except.bind, hlen, getUint64, readLe64_le64]
  rw [if_neg (by omega)]
  rfl

theorem encodeIndexEntry_ne_nil (e : IndexEntry) : encodeIndexEntry e ≠ [] := by
  intro h
  exact uvarint_ne_nil _ (List.append_eq_nil_iff.mp h).1

/-- An index is read back. -/
theorem decodeIndex_encode {entries : List IndexEntry}
    (h : ∀ e ∈ entries, e.lastKey.length < 2 ^ 64) :
    decodeIndex (encodeIndex entries) = .ok entries :=
  decodeAll_encode encodeIndexEntry_ne_nil fun e he => decodeIndexEntry_encode (h e he)

end KvStore.Sstable
