import KvStore.Engine.Table
import KvStore.Layered.Search
import KvStore.SkipList.Put
import Mathlib

/-!
# The memtable

`memtable/skiplist.go`, `memtable/memtable.go`, `memtable/iterator.go`. A memtable is a skip list of
at most `maxHeight` levels, keyed by byte strings, with a running total of the sizes of its entries.
An iterator copies the entries of the lowest level when it is made.

The coin tosses of `randomLevel` (`Float64() < p`) are any stream of Booleans, so that what is said
holds for every sequence of levels from one to `maxHeight`. The size, an `int64` in the source, is
an integer: a memtable does not hold `2 ^ 63` bytes.

* `Holds`: the skip list lists a `Table`, and the total is the table's `approxSize`. Writes keep it
  (`Holds.putEntry`).
* `memtable_answers`: after any calls, `Get`, the iterator, `Len` and `ApproxSize` say what the last
  call for each key says.
-/

namespace KvStore

open Layered

/-- `maxHeight`. -/
def maxHeight : ℕ := 16

/-- `entrySize`. -/
def entrySize (key value : Bytes) : ℤ := ↑(key.length + value.length) + ↑Table.nodeOverheadBytes

/-- `Memtable`. -/
structure Memtable where
  list : SkipList Bytes Entry
  approxSize : ℤ

namespace Memtable

/-- `New`, with the coins that the generator will toss. -/
def new (rnd : Stream' Bool) : Memtable :=
  ⟨{ head := List.replicate maxHeight none, rnd := rnd }, 0⟩

/-- The skip list's `put`, and the change of the size that it returns. -/
def putEntry (m : Memtable) (key : Bytes) (e : Entry) : Option Memtable := do
  let (list, old) ← m.list.put key e
  match old with
  | some old => return ⟨list, m.approxSize + (entrySize key e.value - entrySize key old.value)⟩
  | none => return ⟨list, m.approxSize + entrySize key e.value⟩

/-- `Put`. -/
def put (m : Memtable) (key value : Bytes) (seq : UInt64) : Option Memtable :=
  m.putEntry key ⟨value, seq, false⟩

/-- `Delete`. -/
def delete (m : Memtable) (key : Bytes) (seq : UInt64) : Option Memtable :=
  m.putEntry key ⟨[], seq, true⟩

/-- `Get`: the entry, or that there is none. -/
def get (m : Memtable) (key : Bytes) : Option (Option Entry) := m.list.get key

/-- `Len`. -/
def len (m : Memtable) : ℕ := m.list.length

end Memtable

/-- `Iterator`: the entries it has copied and its place. -/
structure MemIterator where
  entries : List (Bytes × Entry)
  idx : ℤ := -1

/-- `NewIterator`. -/
def Memtable.newIterator (m : Memtable) : Option MemIterator := do
  let nodes ← m.list.chain 0
  return ⟨← nodes.mapM m.list.pair, -1⟩

namespace MemIterator

/-- `SeekToFirst`. -/
def seekToFirst (it : MemIterator) : MemIterator := { it with idx := 0 }

/-- `Seek`. -/
def seek (it : MemIterator) (target : Bytes) : MemIterator :=
  { it with
    idx := search it.entries.length fun i => it.entries[i]?.any fun a => decide (target ≤ a.1) }

/-- `Valid`. -/
def valid (it : MemIterator) : Bool := decide (0 ≤ it.idx ∧ it.idx < it.entries.length)

/-- `Next`. -/
def next (it : MemIterator) : MemIterator :=
  if it.idx < it.entries.length then { it with idx := it.idx + 1 } else it

/-- `Key`, `Value`, `SeqNum` and `Deleted`, which only a valid iterator has. -/
def current (it : MemIterator) : Option (Bytes × Entry) :=
  if it.valid then it.entries[it.idx.toNat]? else none

/-- What a loop `for ; it.Valid(); it.Next()` sees, if it ends within `fuel` rounds. -/
def collect : ℕ → MemIterator → Option (List (Bytes × Entry))
  | 0, _ => none
  | fuel + 1, it =>
    if it.valid then do
      let a ← it.current
      return a :: (← collect fuel it.next)
    else some []

/-- An iterator at place `i` sees the entries from there on. -/
theorem collect_eq (l : List (Bytes × Entry)) {i fuel : ℕ} (h : l.length < i + fuel)
    (hi : i ≤ l.length) : collect fuel ⟨l, i⟩ = some (l.drop i) := by
  induction fuel generalizing i with
  | zero => omega
  | succ fuel ih =>
    rw [collect]
    rcases hi.lt_or_eq with hlt | rfl
    · have hvalid : (⟨l, i⟩ : MemIterator).valid = true := by simp [valid, hlt]
      have hnext : (⟨l, i⟩ : MemIterator).next = ⟨l, (i + 1 : ℕ)⟩ := by simp [next, hlt]
      have hcur : (⟨l, i⟩ : MemIterator).current = some l[i] := by simp [current, hvalid, hlt]
      rw [if_pos hvalid, hnext, hcur, ih (by omega) hlt, List.drop_eq_getElem_cons hlt]
      rfl
    · rw [if_neg (by simp [valid]), List.drop_length]

theorem current_at (l : List (Bytes × Entry)) (i : ℕ) :
    (⟨l, i⟩ : MemIterator).current = (l.drop i).head? := by
  rw [current, List.head?_drop]
  by_cases h : i < l.length
  · simp [valid, h]
  · simp [valid, h]

end MemIterator

/-! ## The table a memtable holds -/

/-- The size of one more entry, or of another one for its key. -/
theorem Table.approxSize_insert (t : Table) (key : Bytes) (e : Entry) :
    (approxSize (t.insert key e) : ℤ) = t.approxSize + (entrySize key e.value -
      ((t.get key).map fun old => entrySize key old.value).getD 0) := by
  have hsplit := SortedMap.entries_split t key
  cases hget : t.get key with
  | none =>
    rw [approxSize, approxSize, SortedMap.entries_insert_of_none hget]
    conv_rhs => rw [hsplit]
    simp only [List.map_append, List.map_cons, List.sum_append, List.sum_cons, entrySize,
      Option.map_none, Option.getD_none]
    push_cast
    ring
  | some old =>
    obtain ⟨l, hdrop⟩ := SortedMap.dropWhile_of_get hget
    rw [approxSize, approxSize, SortedMap.entries_insert_of_dropWhile hdrop]
    conv_rhs => rw [hsplit, hdrop]
    simp only [List.map_append, List.map_cons, List.sum_append, List.sum_cons, entrySize,
      Option.map_some, Option.getD_some]
    push_cast
    ring

namespace Memtable

/-- The skip list lists the table, and the size is the table's. -/
structure Holds (m : Memtable) (t : Table) : Prop where
  rep : ∃ ch, m.list.Rep ch t
  head : m.list.head.length = maxHeight
  size : m.approxSize = t.approxSize

theorem Holds.new (rnd : Stream' Bool) : Holds (Memtable.new rnd) Table.empty := by
  refine ⟨⟨fun _ => [], ?_, fun _ => .refl _, fun _ _ => rfl, Nat.one_pos, ?_, rfl, rfl, rfl⟩, ?_,
    rfl⟩
  · intro i hi
    rw [Memtable.new, List.length_replicate] at hi
    show (List.replicate maxHeight none)[i]? = some none
    rw [List.getElem?_replicate, if_pos hi]
  all_goals simp [Memtable.new, maxHeight]

/-- A write does not fail and changes the table. -/
theorem Holds.putEntry {m : Memtable} {t : Table} (h : m.Holds t) (key : Bytes) (e : Entry) :
    ∃ m', m.putEntry key e = some m' ∧ m'.Holds (t.insert key e) := by
  obtain ⟨ch, hrep⟩ := h.rep
  obtain ⟨list, ch', hput, hhead, hrep'⟩ := hrep.put key e
  have hsize := t.approxSize_insert key e
  rw [Memtable.putEntry, hput]
  cases hget : t.get key with
  | none =>
    rw [hget, Option.map_none, Option.getD_none, sub_zero] at hsize
    exact ⟨_, rfl, ⟨ch', hrep'⟩, hhead.trans h.head, by rw [hsize, h.size]⟩
  | some old =>
    rw [hget, Option.map_some, Option.getD_some] at hsize
    exact ⟨_, rfl, ⟨ch', hrep'⟩, hhead.trans h.head, by rw [hsize, h.size]⟩

theorem Holds.get {m : Memtable} {t : Table} (h : m.Holds t) (key : Bytes) :
    m.get key = some (t.get key) :=
  h.rep.elim fun _ hrep => hrep.get key

theorem Holds.len {m : Memtable} {t : Table} (h : m.Holds t) : m.len = t.entries.length := by
  obtain ⟨ch, hrep⟩ := h.rep
  have hlen := congrArg List.length hrep.pairs
  rw [List.length_map, List.length_map] at hlen
  exact hrep.length.trans hlen

/-- The pairs that nodes hold, read one after the other. -/
theorem mapM_pair {s : SkipList Bytes Entry} {l : List ℕ} {E : List (Bytes × Entry)}
    (h : l.map s.pair = E.map some) : l.mapM s.pair = some E := by
  induction l generalizing E with
  | nil =>
    cases E with
    | nil => rfl
    | cons b E => exact absurd h nofun
  | cons a l ih =>
    cases E with
    | nil => exact absurd h nofun
    | cons b E =>
      obtain ⟨ha, hl⟩ := List.cons.inj h
      rw [List.mapM_cons, ha, ih hl]
      rfl

theorem Holds.newIterator {m : Memtable} {t : Table} (h : m.Holds t) :
    m.newIterator = some ⟨t.entries, -1⟩ := by
  obtain ⟨ch, hrep⟩ := h.rep
  rw [Memtable.newIterator, hrep.chain_eq hrep.head_pos]
  simp only [Option.bind_eq_bind, Option.bind_some, mapM_pair hrep.pairs]
  rfl

/-! ## Runs -/

end Memtable

/-- A call that writes. -/
inductive MemCall
  | put (key value : Bytes) (seq : UInt64)
  | delete (key : Bytes) (seq : UInt64)

namespace MemCall

def key : MemCall → Bytes
  | put key _ _ => key
  | delete key _ => key

/-- What the call leaves for its key. -/
def entry : MemCall → Entry
  | put _ value seq => ⟨value, seq, false⟩
  | delete _ seq => ⟨[], seq, true⟩

def run (m : Memtable) : MemCall → Option Memtable
  | put key value seq => m.put key value seq
  | delete key seq => m.delete key seq

/-- What the last call for a key leaves, if there is one. -/
def latest (calls : List MemCall) (k : Bytes) : Option Entry :=
  ((calls.filter fun c => c.key = k).getLast?).map entry

/-- The keys of the calls. -/
def keys (calls : List MemCall) : Finset Bytes := (calls.map key).toFinset

/-- The table that the calls make. -/
def table (calls : List MemCall) : Table :=
  calls.foldl (fun t c => t.insert c.key c.entry) Table.empty

theorem table_append (calls : List MemCall) (c : MemCall) :
    table (calls ++ [c]) = (table calls).insert c.key c.entry := List.foldl_concat ..

theorem get_table (calls : List MemCall) (k : Bytes) : (table calls).get k = latest calls k := by
  induction calls using List.reverseRecOn with
  | nil => rfl
  | append_singleton calls c ih =>
    rw [table_append, SortedMap.get_insert, latest, List.filter_append]
    by_cases hk : c.key = k
    · simp [hk]
    · simp [hk, Ne.symm hk, ih, latest]

theorem mem_keys {calls : List MemCall} {k : Bytes} : k ∈ keys calls ↔ (latest calls k).isSome := by
  simp [keys, latest]

end MemCall

/-- The memtable after the calls. -/
def Memtable.run (m : Memtable) (calls : List MemCall) : Option Memtable :=
  calls.foldlM MemCall.run m

theorem Memtable.Holds.run (rnd : Stream' Bool) (calls : List MemCall) :
    ∃ m, (Memtable.new rnd).run calls = some m ∧ m.Holds (MemCall.table calls) := by
  induction calls using List.reverseRecOn with
  | nil => exact ⟨_, rfl, Holds.new rnd⟩
  | append_singleton calls c ih =>
    obtain ⟨m, hrun, hm⟩ := ih
    obtain ⟨m', hput, hm'⟩ := hm.putEntry c.key c.entry
    refine ⟨m', ?_, MemCall.table_append calls c ▸ hm'⟩
    rw [Memtable.run, List.foldlM_append, ← Memtable.run, hrun]
    cases c <;> simp [MemCall.run, Memtable.put, Memtable.delete, MemCall.key, MemCall.entry]
      at hput ⊢ <;>
      exact hput

/-! ## What a memtable answers -/

/-- The first key from `target` on that has been written, with what was last written for it. -/
def MemCall.IsFirstFrom (calls : List MemCall) (target : Bytes) : Option (Bytes × Entry) → Prop
  | some (k, e) => latest calls k = some e ∧ target ≤ k ∧ ∀ k' ∈ keys calls, target ≤ k' → k ≤ k'
  | none => ∀ k' ∈ keys calls, k' < target

/-- A new iterator: what a loop from `SeekToFirst` sees, and where `Seek` goes. -/
structure MemIterator.Lists (it : MemIterator) (calls : List MemCall) : Prop where
  loop : ∃ seen, collect (it.entries.length + 1) it.seekToFirst = some seen ∧
    seen.Pairwise (fun a b => a.1 < b.1) ∧ ∀ k e, (k, e) ∈ seen ↔ MemCall.latest calls k = some e
  seek : ∀ target, MemCall.IsFirstFrom calls target (it.seek target).current

/-- The memtable is sound and says what the last call for each key says. -/
structure Memtable.Answers (m : Memtable) (calls : List MemCall) : Prop where
  sorted : ∀ i < maxHeight, ∃ nodes, m.list.chain i = some nodes ∧ nodes.Pairwise fun a b =>
    ∃ x y, m.list.nodes[a]? = some x ∧ m.list.nodes[b]? = some y ∧ x.key < y.key
  sublist : ∀ i, i + 1 < maxHeight → ∃ upper lower, m.list.chain (i + 1) = some upper ∧
    m.list.chain i = some lower ∧ upper.Sublist lower
  get : ∀ k, m.get k = some (MemCall.latest calls k)
  iterator : ∃ it, m.newIterator = some it ∧ it.Lists calls
  len : m.len = (MemCall.keys calls).card
  approxSize : m.approxSize = (∑ k ∈ MemCall.keys calls,
    (k.length + ((MemCall.latest calls k).map fun e => e.value.length).getD 0 + 48) : ℕ)

theorem MemCall.mem_entries_table {calls : List MemCall} {k : Bytes} {e : Entry} :
    (k, e) ∈ (table calls).entries ↔ latest calls k = some e := by
  rw [SortedMap.mem_entries, get_table]

theorem MemCall.mem_keys_iff {calls : List MemCall} {k : Bytes} :
    k ∈ keys calls ↔ ∃ e, (k, e) ∈ (table calls).entries := by
  rw [mem_keys, Option.isSome_iff_exists]
  exact exists_congr fun e => mem_entries_table.symm

theorem MemCall.nodup_keys (calls : List MemCall) : ((table calls).entries.map Prod.fst).Nodup :=
  List.pairwise_map.mpr ((table calls).sorted.imp fun hab => hab.ne)

theorem MemCall.keys_eq (calls : List MemCall) :
    keys calls = ((table calls).entries.map Prod.fst).toFinset := by
  ext k
  rw [mem_keys_iff, List.mem_toFinset]
  simp

/-- `Seek` goes where the entries are cut. -/
theorem MemIterator.current_seek (t : Table) (idx : ℤ) (target : Bytes) :
    ((⟨t.entries, idx⟩ : MemIterator).seek target).current = t.firstFrom target := by
  have hmono : t.entries.Pairwise fun a b => decide (target ≤ a.1) = true →
    decide (target ≤ b.1) = true :=
    t.sorted.imp fun hab ha => decide_eq_true ((of_decide_eq_true ha).trans hab.le)
  rw [seek, current_at, drop_search hmono, SortedMap.firstFrom]
  congr 2
  funext a
  simp [← not_le]

theorem MemCall.isFirstFrom (calls : List MemCall) (target : Bytes) :
    IsFirstFrom calls target ((table calls).firstFrom target) := by
  cases h : (table calls).firstFrom target with
  | none =>
    intro k hk
    obtain ⟨e, he⟩ := mem_keys_iff.mp hk
    exact SortedMap.firstFrom_eq_none h _ he
  | some b =>
    obtain ⟨hb, hle, hleast⟩ := SortedMap.firstFrom_eq_some h
    refine ⟨mem_entries_table.mp hb, hle, fun k hk => ?_⟩
    obtain ⟨e, he⟩ := mem_keys_iff.mp hk
    exact hleast _ he

/-- **A memtable answers with the last call for each key**, whatever levels its nodes get. -/
theorem memtable_answers (rnd : Stream' Bool) (calls : List MemCall) :
    ∃ m, (Memtable.new rnd).run calls = some m ∧ m.Answers calls := by
  obtain ⟨m, hrun, hm⟩ := Memtable.Holds.run rnd calls
  obtain ⟨ch, hrep⟩ := hm.rep
  have hchain : ∀ i < maxHeight, m.list.chain i = some (ch i) := fun i hi =>
    hrep.chain_eq (hm.head.symm ▸ hi)
  refine ⟨m, hrun, fun i hi => ⟨ch i, hchain i hi, ?_⟩, fun i hi => ⟨ch (i + 1), ch i, hchain _ hi,
    hchain i (by omega), hrep.sub i⟩, fun k =>
      (hm.get k).trans (congrArg some (MemCall.get_table calls k)),
    ⟨_, hm.newIterator, ⟨_, MemIterator.collect_eq _ (by omega) (Nat.zero_le _), ?_, ?_⟩,
      fun target => MemIterator.current_seek _ _ target ▸ MemCall.isFirstFrom calls target⟩, ?_, ?_⟩
  · refine (hrep.sorted i).imp_of_mem fun {a b} ha hb hab => ?_
    obtain ⟨p, -, hp⟩ := hrep.pair_of_mem ha
    obtain ⟨q, -, hq⟩ := hrep.pair_of_mem hb
    have hlt := hab p hp q hq
    obtain ⟨x, hx, rfl⟩ := Option.map_eq_some_iff.mp hp
    obtain ⟨y, hy, rfl⟩ := Option.map_eq_some_iff.mp hq
    exact ⟨x, y, hx, hy, hlt⟩
  · exact (MemCall.table calls).sorted
  · exact fun k e => MemCall.mem_entries_table
  · rw [hm.len, MemCall.keys_eq, List.toFinset_card_of_nodup (MemCall.nodup_keys calls),
      List.length_map]
  · rw [hm.size, MemCall.keys_eq, List.sum_toFinset _ (MemCall.nodup_keys calls),
      Table.approxSize, List.map_map]
    refine congrArg (fun l : List ℕ => (l.sum : ℤ)) (List.map_congr_left fun (k, e) he => ?_)
    rw [Function.comp_apply, MemCall.mem_entries_table.mp he]
    rfl

end KvStore
