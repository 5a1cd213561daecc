import KvStore.Engine.Table

/-!
# The directory of a store

The files of `engine.go`, by their numbers, and what a process does to them. A file operation takes
effect as a whole, except that a crash may leave the first bytes of an append.

* A log is its bytes. A sorted table file is its table, or nothing as long as `Finish` has not
  returned. `Open` is taken to refuse a file that is not finished. That is right of an empty one;
  the bytes of a longer one may by chance, or by a value that was stored, end as a table does. What
  `Open` shows is therefore stated of directories in which it finds no such file (`Dir.Finished`).
* `Dir.run`, `Dir.cut`: the effect of a sequence of operations, and of one that a crash ends.
* `discoverWALs`, `discoverSSTables`: what `Open` finds. `Sscanf` reads at most six digits, so that
  it finds no file whose number has seven.

The temporary file of the restore marker is left out: nothing reads it.
-/

namespace KvStore

open Layered

/-- The directory of a store. -/
structure Dir where
  wals : SortedMap ℕ Bytes := .empty
  ssts : SortedMap ℕ (Option Table) := .empty
  marker : Option ℕ := none

/-- An operation on a file. -/
inductive FsOp
  /-- `wal.Open`: the file is created if it does not exist. -/
  | openWal (n : ℕ)
  /-- `AppendBatch`. -/
  | appendWal (n : ℕ) (data : Bytes)
  /-- The truncation of `wal.Replay`. -/
  | truncateWal (n : ℕ) (length : ℕ)
  | removeWal (n : ℕ)
  /-- `NewWriter`: a file that exists is truncated. -/
  | createSst (n : ℕ)
  /-- `Finish`. -/
  | finishSst (n : ℕ) (table : Table)
  | removeSst (n : ℕ)
  /-- The rename of `writeRestoreMarkerAtomically`. -/
  | renameMarker (n : ℕ)

/-- The operation is on a log. -/
def FsOp.OnWal : FsOp → Prop
  | .openWal _ | .appendWal _ _ | .truncateWal _ _ | .removeWal _ => True
  | _ => False

namespace Dir

/-- The directory after an operation. What is written to a file that was removed is lost. -/
def apply (d : Dir) : FsOp → Dir
  | .openWal n => { d with wals := d.wals.insert n ((d.wals.get n).getD []) }
  | .appendWal n data => { d with wals := d.wals.modify n (· ++ data) }
  | .truncateWal n length => { d with wals := d.wals.modify n (·.take length) }
  | .removeWal n => { d with wals := d.wals.erase n }
  | .createSst n => { d with ssts := d.ssts.insert n none }
  | .finishSst n table => { d with ssts := d.ssts.modify n fun _ => some table }
  | .removeSst n => { d with ssts := d.ssts.erase n }
  | .renameMarker n => { d with marker := some n }

/-- The directory after operations. -/
def run (d : Dir) (ops : List FsOp) : Dir := ops.foldl apply d

/-- The directory after a crash at an operation: of an append, the first `j` bytes are there. -/
def torn (d : Dir) (j : ℕ) : FsOp → Dir
  | .appendWal n data => d.apply (.appendWal n (data.take j))
  | _ => d

/-- The directory after a crash: the first `k` operations have taken effect, and the next one in
part. -/
def cut (d : Dir) (ops : List FsOp) (k j : ℕ) : Dir :=
  match ops[k]? with
  | some op => (d.run (ops.take k)).torn j op
  | none => d.run ops

/-- `readRestoreMarker`. -/
def minValidSeq (d : Dir) : ℕ := d.marker.getD 0

/-- The first number that `Sscanf` with `%06d` does not read as a whole. -/
def fileLimit : ℕ := 1000000

/-- `Open` takes notice of a file with the number `n`. -/
def Valid (d : Dir) (n : ℕ) : Prop := d.minValidSeq ≤ n ∧ n < fileLimit

instance (d : Dir) : DecidablePred d.Valid := fun _ => inferInstanceAs (Decidable (_ ∧ _))

/-- The logs that `Open` replays, the oldest first. -/
def validWals (d : Dir) : List (ℕ × Bytes) := d.wals.within d.Valid

/-- The tables that `Open` opens, the oldest first. -/
def validSsts (d : Dir) : List (ℕ × Option Table) := d.ssts.within d.Valid

/-- Every table that `Open` opens has been finished. -/
def Finished (d : Dir) : Prop := ∀ a ∈ d.validSsts, a.2 ≠ none

instance (d : Dir) : Decidable d.Finished :=
  inferInstanceAs (Decidable (∀ a ∈ d.validSsts, a.2 ≠ none))

/-- The number after the last one. -/
def nextNumber {α : Type} (files : List (ℕ × α)) : ℕ := (files.getLast?.map fun a => a.1 + 1).getD 0

/-- `discoverWALs`. -/
def discoverWALs (d : Dir) : List (ℕ × Bytes) × ℕ := (d.validWals, nextNumber d.validWals)

/-- `discoverSSTables`; there is no value if a table does not open. -/
def discoverSSTables (d : Dir) : Option (List (ℕ × Table) × ℕ × UInt64) := do
  let tables ← d.validSsts.reverse.mapM fun a => a.2.map fun t => (a.1, t)
  return (tables, nextNumber d.validSsts,
    tables.foldl (fun m a => if m < a.2.maxSeq then a.2.maxSeq else m) 0)

/-! ## The valid files after an operation -/

section Files

variable {d : Dir} {n : ℕ}

theorem validWals_appendWal {b : Bytes} {l l' : List (ℕ × Bytes)}
    (h : d.validWals = l ++ (n, b) :: l') (data : Bytes) :
    (d.apply (.appendWal n data)).validWals = l ++ (n, b ++ data) :: l' :=
  SortedMap.within_modify h (· ++ data)

theorem validWals_truncateWal {b : Bytes} {l l' : List (ℕ × Bytes)}
    (h : d.validWals = l ++ (n, b) :: l') (len : ℕ) :
    (d.apply (.truncateWal n len)).validWals = l ++ (n, b.take len) :: l' :=
  SortedMap.within_modify h (·.take len)

theorem validWals_openWal (h : ∀ a ∈ d.wals.entries, a.1 < n) (hn : d.Valid n) :
    (d.apply (.openWal n)).validWals = d.validWals ++ [(n, [])] := by
  have hget : d.wals.get n = none := SortedMap.get_eq_none.mpr fun a ha => (h a ha).ne
  have hnew : d.apply (.openWal n) = { d with wals := d.wals.insert n [] } := by
    simp only [apply, hget, Option.getD_none]
  rw [hnew]
  exact SortedMap.within_insert_of_lt h hn []

theorem validWals_removeWal {b : Bytes} {l : List (ℕ × Bytes)} (h : d.validWals = (n, b) :: l) :
    (d.apply (.removeWal n)).validWals = l := SortedMap.within_erase_head h

theorem validWals_removeWal_of_lt (h : n < d.minValidSeq) :
    (d.apply (.removeWal n)).validWals = d.validWals :=
  SortedMap.within_erase_of_not fun hn => absurd hn.1 (not_le.mpr h)

theorem validSsts_createSst (h : ∀ a ∈ d.ssts.entries, a.1 < n) (hn : d.Valid n) :
    (d.apply (.createSst n)).validSsts = d.validSsts ++ [(n, none)] :=
  SortedMap.within_insert_of_lt h hn none

theorem validSsts_finishSst {o : Option Table} {l : List (ℕ × Option Table)}
    (h : d.validSsts = l ++ [(n, o)]) (t : Table) :
    (d.apply (.finishSst n t)).validSsts = l ++ [(n, some t)] := SortedMap.within_modify h _

theorem validSsts_removeSst_of_lt (h : n < d.minValidSeq) :
    (d.apply (.removeSst n)).validSsts = d.validSsts :=
  SortedMap.within_erase_of_not fun hn => absurd hn.1 (not_le.mpr h)

theorem validSsts_congr {d d' : Dir} (hmarker : d'.marker = d.marker) (hssts : d'.ssts = d.ssts) :
    d'.validSsts = d.validSsts := by
  cases d
  cases d'
  dsimp only at hmarker hssts
  subst hmarker hssts
  rfl

theorem nextNumber_congr {α β : Type} {l : List (ℕ × α)} {l' : List (ℕ × β)}
    (h : l.map Prod.fst = l'.map Prod.fst) : nextNumber l = nextNumber l' := by
  have hmap : ∀ {γ : Type} (q : List (ℕ × γ)),
      nextNumber q = ((q.map Prod.fst).getLast?.map (· + 1)).getD 0 := fun q => by
    rw [List.getLast?_map, Option.map_map]
    rfl
  rw [hmap, hmap, h]

@[simp] theorem nextNumber_concat {α : Type} (l : List (ℕ × α)) (a : ℕ × α) :
    nextNumber (l ++ [a]) = a.1 + 1 := by
  simp [nextNumber]

theorem lt_nextNumber {α : Type} {m : SortedMap ℕ α} {p : ℕ → Prop} [DecidablePred p] {a : ℕ × α}
    (h : a ∈ m.within p) : a.1 < nextNumber (m.within p) := by
  have hs := m.within_sorted p
  obtain ⟨l, b, hl⟩ := List.eq_nil_or_concat _ |>.resolve_left (List.ne_nil_of_mem h)
  rw [hl, List.concat_eq_append] at h hs ⊢
  rw [nextNumber_concat]
  rcases List.mem_append.mp h with h | h
  · have := (List.pairwise_append.mp hs).2.2 a h b (List.mem_singleton_self b)
    exact Nat.lt_succ_of_lt this
  · rw [List.mem_singleton.mp h]
    exact Nat.lt_succ_self _

end Files

/-! ## Crashes -/

/-- `P` holds of every directory that a crash inside the operations leaves. -/
def Throughout (P : Dir → Prop) (d : Dir) (ops : List FsOp) : Prop := ∀ k j, P (d.cut ops k j)

variable {P : Dir → Prop} {d : Dir}

theorem run_cons (d : Dir) (op : FsOp) (ops : List FsOp) :
    d.run (op :: ops) = (d.apply op).run ops := rfl

theorem run_append (d : Dir) (ops ops' : List FsOp) : d.run (ops ++ ops') = (d.run ops).run ops' :=
  List.foldl_append

theorem run_of_onWal {ops : List FsOp} (h : ∀ op ∈ ops, op.OnWal) :
    (d.run ops).ssts = d.ssts ∧ (d.run ops).marker = d.marker := by
  induction ops generalizing d with
  | nil => exact ⟨rfl, rfl⟩
  | cons op ops ih =>
    obtain ⟨hssts, hmarker⟩ := ih (d := d.apply op) fun op hop => h op (List.mem_cons_of_mem _ hop)
    have hop := h op List.mem_cons_self
    rw [run_cons, hssts, hmarker]
    cases op with
    | openWal | appendWal | truncateWal | removeWal => exact ⟨rfl, rfl⟩
    | createSst | finishSst | removeSst | renameMarker => cases hop

theorem cut_cons_succ (d : Dir) (op : FsOp) (ops : List FsOp) (k j : ℕ) :
    d.cut (op :: ops) (k + 1) j = (d.apply op).cut ops k j := by
  simp only [cut, List.getElem?_cons_succ, List.take_succ_cons, run_cons]

theorem throughout_nil (h : P d) : Throughout P d [] := fun _ _ => h

/-- The last of the directories is the one after all operations. -/
theorem Throughout.run {ops : List FsOp} (h : Throughout P d ops) : P (d.run ops) := by
  have hlast := h ops.length 0
  rwa [cut, List.getElem?_eq_none le_rfl] at hlast

/-- A crash comes at an operation or after it. -/
theorem throughout_cons {op : FsOp} {ops : List FsOp} (h : ∀ j, P (d.torn j op))
    (hrest : Throughout P (d.apply op) ops) : Throughout P d (op :: ops) := by
  intro k j
  cases k with
  | zero => exact h j
  | succ k =>
    rw [cut_cons_succ]
    exact hrest k j

theorem throughout_append {ops ops' : List FsOp} (h : Throughout P d ops)
    (h' : Throughout P (d.run ops) ops') : Throughout P d (ops ++ ops') := by
  induction ops generalizing d with
  | nil => exact h'
  | cons op ops ih =>
    refine throughout_cons (fun j => h 0 j) (ih (fun k j => ?_) h')
    have := h (k + 1) j
    rwa [cut_cons_succ] at this

end Dir

end KvStore
