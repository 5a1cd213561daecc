import KvStore.Engine.Interface
import KvStore.Layered.Overlay
import KvStore.Layered.SortedMap
import KvStore.Wal.Record
import Mathlib

/-!
# Tables

A memtable and a sorted table file hold the same thing: entries in key order, one a key, some of
them tombstones. Both are a `Table` here, the memtable as what its skip list holds and the file as
what its blocks hold.

* `Table.put`, `Table.delete`, `approxSize`: the memtable.
* `Table.write`: what `Add` and `Finish` make of entries, which `Add` refuses out of order.
* `Table.layer`: what a table says about keys, in the terms of `Overlay.lean`. A tombstone says
  something.
* `applyRecords`, `recordsLayer`: a log replayed into a memtable.
* `Table.records`: the log records `Open` writes for a memtable; a prefix of them says nothing else
  than the memtable (`agrees_of_prefix_records`).

`resolve` reads a layer as `Get` does.
-/

namespace KvStore

open Layered

/-! ## The order of keys -/

/-- The order of `bytes.Compare` on single bytes. -/
instance byteLinearOrder : LinearOrder UInt8 where
  le_refl a := UInt8.le_iff_toNat_le.mpr le_rfl
  le_trans a b c hab hbc :=
    UInt8.le_iff_toNat_le.mpr ((UInt8.le_iff_toNat_le.mp hab).trans (UInt8.le_iff_toNat_le.mp hbc))
  lt_iff_le_not_ge a b := by
    rw [UInt8.lt_iff_toNat_lt, UInt8.le_iff_toNat_le, UInt8.le_iff_toNat_le]
    omega
  le_antisymm a b hab hba :=
    UInt8.toNat_inj.mp (le_antisymm (UInt8.le_iff_toNat_le.mp hab) (UInt8.le_iff_toNat_le.mp hba))
  le_total a b := by
    rw [UInt8.le_iff_toNat_le, UInt8.le_iff_toNat_le]
    exact le_total _ _
  toDecidableLE := inferInstance
  toDecidableEq := inferInstance
  toDecidableLT := inferInstance

/-! ## Tables -/

/-- What a table has for a key. -/
structure Entry where
  value : Bytes
  seq : UInt64
  deleted : Bool
  deriving DecidableEq, Repr

/-- What `Get` finds in the entry. -/
def Entry.found (e : Entry) : Option Bytes := if e.deleted then none else some e.value

/-- The entries of a memtable or a sorted table file, in key order. -/
abbrev Table := SortedMap Bytes Entry

/-- What a source of reads says about keys: nothing, deleted or a value. -/
abbrev Source := Layer Bytes (Option Bytes)

/-- What `Get` finds: a key that no source knows and a deleted one look alike. -/
def resolve (s : Source) : Content := fun k => (s k).join

namespace Table

/-- `New`. -/
def empty : Table := SortedMap.empty

/-- `Put`. -/
def put (t : Table) (key value : Bytes) (seq : UInt64) : Table := t.insert key ⟨value, seq, false⟩

/-- `Delete`. -/
def delete (t : Table) (key : Bytes) (seq : UInt64) : Table := t.insert key ⟨[], seq, true⟩

/-- `nodeOverheadBytes`. -/
def nodeOverheadBytes : ℕ := 48

/-- `ApproxSize`. -/
def approxSize (t : Table) : ℕ :=
  (t.entries.map fun a => a.1.length + a.2.value.length + nodeOverheadBytes).sum

/-- `MaxSeq` of the table's file. -/
def maxSeq (t : Table) : UInt64 := t.entries.foldl (fun m a => if m < a.2.seq then a.2.seq else m) 0

/-- The table that `Add` and `Finish` make of the entries; `Add` refuses a key that is not greater
than the last. -/
def write (entries : List (Bytes × Entry)) : Option Table := SortedMap.ofList entries

/-- What the table says about keys. -/
def layer (t : Table) : Source := fun k => (t.get k).map Entry.found

/-- A record of a log that is replayed. -/
def applyRecord (t : Table) (r : Wal.Record) : Table :=
  if r.type = recordDelete then t.delete r.key r.seqNum else t.put r.key r.value r.seqNum

/-- The records of a log that is replayed. -/
def applyRecords (t : Table) (rs : List Wal.Record) : Table := rs.foldl applyRecord t

/-- The record `Open` writes for an entry. -/
def recordOf (a : Bytes × Entry) : Wal.Record :=
  ⟨a.2.seq, if a.2.deleted then recordDelete else recordPut, a.1, a.2.value⟩

/-- The records `Open` writes for a memtable. -/
def records (t : Table) : List Wal.Record := t.entries.map recordOf

end Table

/-! ## Records as layers -/

/-- What a record says about its key. -/
def Wal.Record.found (r : Wal.Record) : Option Bytes :=
  if r.type = recordDelete then none else some r.value

/-- What a record says about keys. -/
def recordLayer (r : Wal.Record) : Source := fun k => if k = r.key then some r.found else none

/-- What records say about keys, the last record on top. -/
def recordsLayer (rs : List Wal.Record) : Source := stack (rs.reverse.map recordLayer)

theorem recordsLayer_append (rs rs' : List Wal.Record) :
    recordsLayer (rs ++ rs') = atop (recordsLayer rs') (recordsLayer rs) := by
  unfold recordsLayer
  rw [List.reverse_append, List.map_append, stack_append]

theorem recordsLayer_singleton (r : Wal.Record) : recordsLayer [r] = recordLayer r := atop_void _

theorem exists_of_recordsLayer {rs : List Wal.Record} {k : Bytes} {x : Option Bytes}
    (h : recordsLayer rs k = some x) : ∃ r ∈ rs, r.key = k ∧ x = r.found := by
  induction rs using List.reverseRecOn with
  | nil => cases h
  | append_singleton rs r ih =>
    rw [recordsLayer_append, recordsLayer_singleton] at h
    unfold atop recordLayer at h
    split_ifs at h with hk
    · exact ⟨r, by simp, hk.symm, (Option.some.inj h).symm⟩
    · obtain ⟨r', hr', hkey⟩ := ih h
      exact ⟨r', List.mem_append_left _ hr', hkey⟩

theorem recordsLayer_ne_none {rs : List Wal.Record} {r : Wal.Record} (h : r ∈ rs) :
    recordsLayer rs r.key ≠ none := by
  obtain ⟨rs₁, rs₂, rfl⟩ := List.append_of_mem h
  rw [show rs₁ ++ r :: rs₂ = (rs₁ ++ [r]) ++ rs₂ by simp, recordsLayer_append, recordsLayer_append,
    recordsLayer_singleton, ← atop_assoc]
  apply covers_atop_left
  cases hrs : recordsLayer rs₂ r.key <;> simp [atop, recordLayer, hrs]

/-- More records have the keys of fewer. -/
theorem covers_of_subset {rs rs' : List Wal.Record} (h : rs ⊆ rs') :
    Covers (recordsLayer rs') (recordsLayer rs) := by
  intro k hk
  obtain ⟨x, hx⟩ := Option.ne_none_iff_exists'.mp hk
  obtain ⟨r, hr, rfl, -⟩ := exists_of_recordsLayer hx
  exact recordsLayer_ne_none (h hr)

namespace Table

theorem layer_empty : empty.layer = void := rfl

theorem layer_insert (t : Table) (k : Bytes) (e : Entry) :
    layer (t.insert k e) = atop (fun k' => if k' = k then some e.found else none) t.layer := by
  funext k'
  unfold layer atop
  dsimp only
  rw [SortedMap.get_insert]
  split_ifs <;> rfl

theorem layer_applyRecord (t : Table) (r : Wal.Record) :
    (t.applyRecord r).layer = atop (recordLayer r) t.layer := by
  unfold applyRecord recordLayer Wal.Record.found
  split_ifs
  · exact layer_insert t r.key _
  · exact layer_insert t r.key _

/-- **A log replayed into a memtable goes on top of it.** -/
theorem layer_applyRecords (t : Table) (rs : List Wal.Record) :
    (t.applyRecords rs).layer = atop (recordsLayer rs) t.layer := by
  induction rs using List.reverseRecOn with
  | nil => rfl
  | append_singleton rs r ih =>
    unfold applyRecords at ih ⊢
    rw [List.foldl_append, List.foldl_cons, List.foldl_nil, layer_applyRecord, ih,
      recordsLayer_append, recordsLayer_singleton, atop_assoc]

theorem found_recordOf (a : Bytes × Entry) : (recordOf a).found = a.2.found := by
  unfold Wal.Record.found recordOf Entry.found
  dsimp only
  cases a.2.deleted <;> rfl

theorem mem_records {t : Table} {r : Wal.Record} (h : r ∈ t.records) :
    t.layer r.key = some r.found := by
  obtain ⟨⟨k, e⟩, ha, rfl⟩ := List.mem_map.mp h
  unfold layer
  rw [show (recordOf (k, e)).key = k from rfl, SortedMap.mem_entries.mp ha, found_recordOf]
  rfl

/-- A part of the records says nothing else than the memtable. -/
theorem agrees_of_prefix_records {t : Table} {rs : List Wal.Record} (h : rs <+: t.records) :
    Agrees t.layer (recordsLayer rs) := by
  intro k
  cases hk : recordsLayer rs k with
  | none => exact Or.inl rfl
  | some x =>
    obtain ⟨r, hr, rfl, rfl⟩ := exists_of_recordsLayer hk
    exact Or.inr (mem_records (h.subset hr)).symm

/-- The records say what the memtable says. -/
theorem recordsLayer_records (t : Table) : recordsLayer t.records = t.layer := by
  funext k
  rcases agrees_of_prefix_records (List.prefix_refl t.records) k with hk | hk
  · cases ht : t.get k with
    | none =>
      rw [hk, layer, ht]
      rfl
    | some e =>
      have hmem : recordOf (k, e) ∈ t.records :=
        List.mem_map_of_mem (SortedMap.mem_entries.mpr ht)
      exact absurd hk (recordsLayer_ne_none hmem)
  · exact hk

theorem fits_applyRecord {t : Table} {r : Wal.Record} (h : ∀ q ∈ t.records, q.Fits) (hr : r.Fits) :
    ∀ q ∈ (t.applyRecord r).records, q.Fits := by
  intro q hq
  obtain ⟨a, ha, rfl⟩ := List.mem_map.mp hq
  unfold applyRecord at ha
  have hold : ∀ {e : Entry}, a ∈ (t.insert r.key e).entries → a ≠ (r.key, e) → (recordOf a).Fits :=
    fun ha hne => h _ (List.mem_map_of_mem ((SortedMap.mem_insertPair ha).resolve_left hne))
  split_ifs at ha
  · by_cases hnew : a = (r.key, ⟨[], r.seqNum, true⟩)
    · subst hnew
      unfold Wal.Record.Fits at hr ⊢
      simp only [recordOf, List.length_nil]
      omega
    · exact hold ha hnew
  · by_cases hnew : a = (r.key, ⟨r.value, r.seqNum, false⟩)
    · subst hnew
      exact hr
    · exact hold ha hnew

/-- The records that `Open` writes fit if those it has replayed do. -/
theorem fits_applyRecords {rs : List Wal.Record} (hrs : ∀ r ∈ rs, r.Fits) {t : Table}
    (h : ∀ r ∈ t.records, r.Fits) : ∀ r ∈ (t.applyRecords rs).records, r.Fits := by
  induction rs generalizing t with
  | nil => exact h
  | cons r rs ih =>
    exact ih (fun q hq => hrs q (List.mem_cons_of_mem _ hq))
      (fits_applyRecord h (hrs r List.mem_cons_self))

end Table

/-! ## Batches -/

/-- The records of a batch whose first sequence number is `seq`. -/
def batchRecords (seq : UInt64) : List BatchOp → List Wal.Record
  | [] => []
  | op :: ops =>
    ⟨seq, if op.deleted then recordDelete else recordPut, op.key, op.value⟩ :: batchRecords
    (seq + 1) ops

/-- Every record of the batch fits its field. -/
def BatchOp.Fits (op : BatchOp) : Prop := 17 + op.key.length + op.value.length < 2 ^ 32

instance (op : BatchOp) : Decidable op.Fits := inferInstanceAs (Decidable (_ < _))

theorem fits_batchRecords {ops : List BatchOp} (h : ∀ op ∈ ops, op.Fits) (seq : UInt64) :
    ∀ r ∈ batchRecords seq ops, r.Fits := by
  induction ops generalizing seq with
  | nil => exact fun r hr => absurd hr List.not_mem_nil
  | cons op ops ih =>
    intro r hr
    rcases List.mem_cons.mp hr with rfl | hr
    · exact h op List.mem_cons_self
    · exact ih (fun op hop => h op (List.mem_cons_of_mem _ hop)) (seq + 1) r hr

theorem batchRecords_prefix {ops : List BatchOp} {seq : UInt64} {rs : List Wal.Record}
    (h : rs <+: batchRecords seq ops) : ∃ ops', ops' <+: ops ∧ rs = batchRecords seq ops' := by
  induction ops generalizing seq rs with
  | nil => exact ⟨[], List.nil_prefix, List.prefix_nil.mp h⟩
  | cons op ops ih =>
    cases rs with
    | nil => exact ⟨[], List.nil_prefix, rfl⟩
    | cons r rs =>
      obtain ⟨rfl, hrs⟩ := List.cons_prefix_cons.mp h
      obtain ⟨ops', hops, rfl⟩ := ih hrs
      exact ⟨op :: ops', List.cons_prefix_cons.mpr ⟨rfl, hops⟩, rfl⟩

/-- **A batch on top of a source is the batch applied to what it resolves to.** -/
theorem resolve_batch (seq : UInt64) (ops : List BatchOp) (s : Source) :
    resolve (atop (recordsLayer (batchRecords seq ops)) s) = applyOps (resolve s) ops := by
  induction ops generalizing seq s with
  | nil => rfl
  | cons op ops ih =>
    rw [batchRecords, ← List.singleton_append, recordsLayer_append, recordsLayer_singleton,
      atop_assoc, ih, applyOps, applyOps, List.foldl_cons]
    congr 1
    funext k
    unfold resolve atop recordLayer Wal.Record.found BatchOp.apply
    dsimp only
    by_cases hk : k = op.key
    · subst hk
      rw [if_pos rfl, Function.update_self]
      cases op.deleted <;> rfl
    · rw [if_neg hk, Function.update_of_ne hk]
      rfl

/-! ## Sources between others -/

/-- A source between two others shows where the upper one is silent. -/
theorem resolve_between (p q r : Source) : resolve (atop p (atop q r)) = resolve (atop p r) ↔
    ∀ k v, q k = some v → p k ≠ none ∨ resolve (atop p r) k = v := by
  constructor
  · intro h k v hk
    by_cases hp : p k = none
    · have hkk := congrFun h k
      simp only [resolve, atop, hp, hk, Option.none_or, Option.some_or, Option.join_some] at hkk ⊢
      exact Or.inr hkk.symm
    · exact Or.inl hp
  · intro h
    funext k
    cases hp : p k with
    | some x => simp [resolve, atop, hp]
    | none =>
      cases hq : q k with
      | none => simp [resolve, atop, hq]
      | some v =>
        rcases h k v hq with hne | hv
        · exact absurd hp hne
        · rw [hv]
          simp [resolve, atop, hp, hq]

end KvStore
