import KvStore.Codec.LengthPrefix
import KvStore.Raft.Types

/-!
# The storage engine as its callers see it

The operations the server makes on `engine.Engine`, with the meaning they are meant to have.

* `BatchOp.apply`, `applyOps`: what a batch does to the content, the function `Get` computes.
* `decodeSnapshotEntries`: the key-value pairs in a snapshot's bytes; `contentOf` the content they
  are.
* `StorageEngine`: the operations, over any type of engine states. Which calls fail is up to the
  state.
* `LawfulEngine`: a call that succeeds has its effect and one that fails has none.

`FlakyStore` is the smallest such engine: a list of pairs and a list that says which calls fail.
-/

namespace KvStore

open Codec

/-! ## Content -/

/-- What `Get` returns, for every key. -/
abbrev Content := Bytes → Option Bytes

/-- `BatchOp`. -/
structure BatchOp where
  key : Bytes
  value : Bytes
  deleted : Bool
  deriving DecidableEq, Repr

/-- The content after one operation. -/
def BatchOp.apply (c : Content) (op : BatchOp) : Content :=
  Function.update c op.key (if op.deleted then none else some op.value)

/-- The content after the operations, in order. -/
def applyOps (c : Content) (ops : List BatchOp) : Content := ops.foldl BatchOp.apply c

/-! ## Snapshots -/

/-- The loop of `decodeSnapshotEntries`; every round reads at least eight bytes, so that as many
rounds as there are bytes are enough. -/
def decodeSnapshotFrom : ℕ → Bytes → Option (List (Bytes × Bytes))
  | _, [] => some []
  | 0, _ :: _ => none
  | fuel + 1, data => do
    let (key, data) ← readLenPrefixed data
    let (value, data) ← readLenPrefixed data
    let rest ← decodeSnapshotFrom fuel data
    return (key, value) :: rest

/-- `decodeSnapshotEntries`; `none` is its error. -/
def decodeSnapshotEntries (data : Bytes) : Option (List (Bytes × Bytes)) :=
  decodeSnapshotFrom data.length data

/-- The bytes `Snapshot` writes for the live pairs, in the order it meets them. -/
def encodeSnapshotEntries (kvs : List (Bytes × Bytes)) : Bytes :=
  kvs.flatMap fun kv => writeLenPrefixed kv.1 ++ writeLenPrefixed kv.2

/-- The content the pairs are. -/
def contentOf (kvs : List (Bytes × Bytes)) : Content := fun k => kvs.lookup k

/-! ## Operations -/

/-- The errors of the package, as far as its callers can tell them apart. -/
inductive EngineError
  | closed
  | flushFailed
  | walAppend
  | flushStart
  | flushInProgress
  | malformedSnapshot
  | restoreFailed
  deriving DecidableEq, Repr

/-- The operations of an engine on its states. -/
class StorageEngine (ε : Type) where
  /-- `Get`. -/
  get : ε → Content
  /-- `ApplyBatch`. -/
  applyBatch : ε → List BatchOp → ε × Option EngineError
  /-- `RestoreSnapshot`. -/
  restoreSnapshot : ε → Bytes → ε × Option EngineError
  /-- `Snapshot`. -/
  snapshot : ε → Except EngineError Bytes

/-- An engine whose calls have their effect if they succeed and none if they fail. -/
class LawfulEngine (ε : Type) [StorageEngine ε] : Prop where
  apply_ok : ∀ (e : ε) (ops : List BatchOp), (StorageEngine.applyBatch e ops).2 = none →
    StorageEngine.get (StorageEngine.applyBatch e ops).1 = applyOps (StorageEngine.get e) ops
  apply_err : ∀ (e : ε) (ops : List BatchOp), (StorageEngine.applyBatch e ops).2 ≠ none →
    StorageEngine.get (StorageEngine.applyBatch e ops).1 = StorageEngine.get e
  restore_ok : ∀ (e : ε) (data : Bytes), (StorageEngine.restoreSnapshot e data).2 = none →
    ∃ kvs, decodeSnapshotEntries data = some kvs ∧
      StorageEngine.get (StorageEngine.restoreSnapshot e data).1 = contentOf kvs
  restore_err : ∀ (e : ε) (data : Bytes), (StorageEngine.restoreSnapshot e data).2 ≠ none →
    StorageEngine.get (StorageEngine.restoreSnapshot e data).1 = StorageEngine.get e

/-! ## A store with failures -/

/-- The live pairs, and for every call to come whether it fails; past the end none does. -/
structure FlakyStore where
  kvs : List (Bytes × Bytes) := []
  fails : List Bool := []

namespace FlakyStore

/-- The pairs after one operation. -/
def put (kvs : List (Bytes × Bytes)) (op : BatchOp) : List (Bytes × Bytes) :=
  if op.deleted then kvs.filter (fun kv => kv.1 ≠ op.key)
  else (op.key, op.value) :: kvs.filter (fun kv => kv.1 ≠ op.key)

instance : StorageEngine FlakyStore where
  get s := contentOf s.kvs
  applyBatch s ops :=
    if s.fails.headD false then (⟨s.kvs, s.fails.tail⟩, some .walAppend)
    else (⟨ops.foldl put s.kvs, s.fails.tail⟩, none)
  restoreSnapshot s data :=
    if s.fails.headD false then (⟨s.kvs, s.fails.tail⟩, some .flushInProgress)
    else match decodeSnapshotEntries data with
      | none => (⟨s.kvs, s.fails.tail⟩, some .malformedSnapshot)
      | some kvs => (⟨kvs, s.fails.tail⟩, none)
  snapshot s := .ok (encodeSnapshotEntries s.kvs)

theorem lookup_cons_of_ne {kvs : List (Bytes × Bytes)} {k k' v : Bytes} (h : k ≠ k') :
    ((k', v) :: kvs).lookup k = kvs.lookup k := by
  rw [List.lookup_cons, beq_eq_false_iff_ne.mpr h]

theorem lookup_filter_ne {kvs : List (Bytes × Bytes)} {k key : Bytes} :
    (kvs.filter (fun kv => kv.1 ≠ key)).lookup k = if k = key then none else kvs.lookup k := by
  induction kvs with
  | nil => simp
  | cons kv kvs ih =>
    obtain ⟨k', v⟩ := kv
    by_cases hk' : k' = key
    · rw [List.filter_cons_of_neg (by simp [hk']), ih]
      split_ifs with hk
      · rfl
      · rw [lookup_cons_of_ne (hk' ▸ hk)]
    · rw [List.filter_cons_of_pos (by simp [hk'])]
      by_cases hk : k = k'
      · subst hk
        rw [List.lookup_cons_self, List.lookup_cons_self, if_neg hk']
      · rw [lookup_cons_of_ne hk, lookup_cons_of_ne hk, ih]

theorem contentOf_put (kvs : List (Bytes × Bytes)) (op : BatchOp) :
    contentOf (put kvs op) = op.apply (contentOf kvs) := by
  funext k
  unfold put contentOf BatchOp.apply
  by_cases hk : k = op.key
  · subst hk
    by_cases hd : op.deleted
    · rw [if_pos hd, lookup_filter_ne, if_pos rfl, Function.update_self, if_pos hd]
    · rw [if_neg hd, List.lookup_cons_self, Function.update_self, if_neg hd]
  · rw [Function.update_of_ne hk]
    by_cases hd : op.deleted
    · rw [if_pos hd, lookup_filter_ne, if_neg hk]
    · rw [if_neg hd, lookup_cons_of_ne hk, lookup_filter_ne, if_neg hk]

theorem contentOf_foldl_put (ops : List BatchOp) (kvs : List (Bytes × Bytes)) :
    contentOf (ops.foldl put kvs) = applyOps (contentOf kvs) ops := by
  induction ops generalizing kvs with
  | nil => rfl
  | cons op ops ih => rw [List.foldl_cons, ih, contentOf_put, applyOps, applyOps, List.foldl_cons]

instance : LawfulEngine FlakyStore where
  apply_ok s ops h := by
    simp only [StorageEngine.applyBatch, StorageEngine.get] at h ⊢
    split_ifs at h ⊢
    exact contentOf_foldl_put ops s.kvs
  apply_err s ops h := by
    simp only [StorageEngine.applyBatch, StorageEngine.get] at h ⊢
    split_ifs at h ⊢
    · rfl
    · exact absurd rfl h
  restore_ok s data h := by
    simp only [StorageEngine.restoreSnapshot, StorageEngine.get] at h ⊢
    split_ifs at h ⊢
    split at h
    · cases h
    · next kvs hdec =>
      rw [hdec]
      exact ⟨kvs, rfl, rfl⟩
  restore_err s data h := by
    simp only [StorageEngine.restoreSnapshot, StorageEngine.get] at h ⊢
    split_ifs at h ⊢
    · rfl
    · split at h
      · rfl
      · exact absurd rfl h

end FlakyStore

end KvStore
