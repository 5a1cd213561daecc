import Mathlib

/-!
# Maps listed in key order

A finite map as the list of its pairs, strictly increasing in the key. The order is part of the
type, so that listing a map, reading it and changing it need no side conditions.

* `get_insert`, `get_erase`: reading after a change.
* `mem_entries`: the listed pairs are what reading finds.
* `entries_insert_of_none`, `get_eq_dropWhile`, `firstFrom`: where a key is put and found in the
  list.
* `ofList`: a list as a map, if it is in order.
-/

namespace KvStore.Layered

/-- A finite map, listed by increasing keys. -/
structure SortedMap (K V : Type*) [LinearOrder K] where
  entries : List (K × V) := []
  sorted : entries.Pairwise (fun a b => a.1 < b.1) := by exact List.Pairwise.nil

namespace SortedMap

variable {K V : Type*} [LinearOrder K]

@[ext] theorem ext {m m' : SortedMap K V} (h : m.entries = m'.entries) : m = m' := by
  cases m
  cases m'
  congr

instance [DecidableEq V] : DecidableEq (SortedMap K V) := fun m m' =>
  decidable_of_iff (m.entries = m'.entries) ⟨ext, congrArg entries⟩

/-- The map without pairs. -/
def empty : SortedMap K V := {}

/-- The value of a key. -/
def get (m : SortedMap K V) (k : K) : Option V := m.entries.lookup k

/-- The pairs after a key has been given a value. -/
def insertPair (k : K) (v : V) : List (K × V) → List (K × V)
  | [] => [(k, v)]
  | (k', v') :: rest =>
    if k < k' then (k, v) :: (k', v') :: rest
    else if k = k' then (k, v) :: rest
    else (k', v') :: insertPair k v rest

theorem mem_insertPair {k : K} {v : V} {a : K × V} {l : List (K × V)}
    (h : a ∈ insertPair k v l) : a = (k, v) ∨ a ∈ l := by
  induction l with
  | nil => exact Or.inl (List.mem_singleton.mp h)
  | cons b l ih =>
    unfold insertPair at h
    split_ifs at h <;> grind

theorem insertPair_sorted (k : K) (v : V) {l : List (K × V)}
    (h : l.Pairwise (fun a b => a.1 < b.1)) :
    (insertPair k v l).Pairwise (fun a b => a.1 < b.1) := by
  induction l with
  | nil => exact List.pairwise_singleton _ _
  | cons b l ih =>
    obtain ⟨hb, hl⟩ := List.pairwise_cons.mp h
    unfold insertPair
    split_ifs with hlt heq
    · refine List.pairwise_cons.mpr ⟨fun a ha => ?_, h⟩
      rcases List.mem_cons.mp ha with rfl | ha
      · exact hlt
      · exact hlt.trans (hb a ha)
    · exact List.pairwise_cons.mpr ⟨fun a ha => heq ▸ hb a ha, hl⟩
    · refine List.pairwise_cons.mpr ⟨fun a ha => ?_, ih hl⟩
      rcases mem_insertPair ha with rfl | ha
      · exact lt_of_le_of_ne (not_lt.mp hlt) (Ne.symm heq)
      · exact hb a ha

/-- Give a key a value. -/
def insert (m : SortedMap K V) (k : K) (v : V) : SortedMap K V :=
  ⟨insertPair k v m.entries, insertPair_sorted k v m.sorted⟩

/-- Take a key out. -/
def erase (m : SortedMap K V) (k : K) : SortedMap K V :=
  ⟨m.entries.filter (fun a => a.1 ≠ k), m.sorted.filter _⟩

/-- Change the value of a key, if it has one. -/
def modify (m : SortedMap K V) (k : K) (f : V → V) : SortedMap K V :=
  match m.get k with
  | none => m
  | some v => m.insert k (f v)

/-- The pairs whose keys satisfy `p`, in order. -/
def within (m : SortedMap K V) (p : K → Prop) [DecidablePred p] : List (K × V) :=
  m.entries.filter (fun a => p a.1)

/-- The first pair whose key is not smaller than `k`. -/
def firstFrom (m : SortedMap K V) (k : K) : Option (K × V) :=
  (m.entries.dropWhile fun a => decide (a.1 < k)).head?

/-- A list as a map, if it is in order. -/
def ofList (l : List (K × V)) : Option (SortedMap K V) :=
  if h : l.Pairwise (fun a b => a.1 < b.1) then some ⟨l, h⟩ else none

/-! ## Reading -/

section Lookup

variable {K V : Type*} [BEq K] [LawfulBEq K] [DecidableEq K]

theorem lookup_cons_eq (k : K) (b : K × V) (l : List (K × V)) :
    (b :: l).lookup k = if k = b.1 then some b.2 else l.lookup k := by
  rw [List.lookup_cons]
  by_cases h : k = b.1
  · simp [h]
  · rw [beq_eq_false_iff_ne.mpr h, if_neg h]

/-- In a list without repeated keys a pair is listed exactly if its key has its value. -/
theorem mem_iff_lookup {l : List (K × V)} (hl : l.Pairwise (fun a b => a.1 ≠ b.1)) {k : K} {v : V} :
    (k, v) ∈ l ↔ l.lookup k = some v := by
  induction l with
  | nil => simp
  | cons b l ih =>
    obtain ⟨hb, hl'⟩ := List.pairwise_cons.mp hl
    rw [List.mem_cons, lookup_cons_eq]
    by_cases hk : k = b.1
    · subst hk
      rw [if_pos rfl, Option.some.injEq]
      constructor
      · rintro (h | h)
        · exact congrArg Prod.snd h.symm
        · exact absurd rfl (hb (b.1, v) h)
      · rintro rfl
        exact Or.inl rfl
    · rw [if_neg hk, ← ih hl']
      constructor
      · rintro (h | h)
        · exact absurd (congrArg Prod.fst h) hk
        · exact h
      · exact Or.inr

end Lookup

theorem lookup_insertPair (k k' : K) (v : V) (l : List (K × V)) :
    (insertPair k v l).lookup k' = if k' = k then some v else l.lookup k' := by
  induction l with
  | nil => rw [insertPair, lookup_cons_eq]
  | cons b l ih =>
    unfold insertPair
    by_cases hlt : k < b.1
    · rw [if_pos hlt, lookup_cons_eq]
    by_cases heq : k = b.1
    · rw [if_neg hlt, if_pos heq, lookup_cons_eq, lookup_cons_eq, heq]
      split_ifs <;> rfl
    · rw [if_neg hlt, if_neg heq, lookup_cons_eq, lookup_cons_eq, ih]
      split_ifs with hb hk <;> first | rfl | exact absurd (hk.symm.trans hb) heq

theorem get_insert (m : SortedMap K V) (k k' : K) (v : V) :
    (m.insert k v).get k' = if k' = k then some v else m.get k' :=
  lookup_insertPair k k' v m.entries

@[simp] theorem get_empty (k : K) : (empty : SortedMap K V).get k = none := rfl

/-- A pair is listed exactly if the key has the value. -/
theorem mem_entries {m : SortedMap K V} {k : K} {v : V} : (k, v) ∈ m.entries ↔ m.get k = some v :=
  mem_iff_lookup (m.sorted.imp fun hab => hab.ne)

theorem get_erase (m : SortedMap K V) (k k' : K) :
    (m.erase k).get k' = if k' = k then none else m.get k' := by
  apply Option.ext
  intro v
  rw [← mem_entries]
  unfold erase
  by_cases h : k' = k <;> simp [h, mem_entries]

theorem get_eq_none {m : SortedMap K V} {k : K} : m.get k = none ↔ ∀ a ∈ m.entries, a.1 ≠ k := by
  constructor
  · rintro h ⟨k', v⟩ ha rfl
    rw [mem_entries.mp ha] at h
    cases h
  · intro h
    by_contra hne
    obtain ⟨v, hv⟩ := Option.ne_none_iff_exists'.mp hne
    exact h _ (mem_entries.mpr hv) rfl

/-- Maps that read alike are equal. -/
theorem eq_of_get {m m' : SortedMap K V} (h : ∀ k, m.get k = m'.get k) : m = m' := by
  apply ext
  refine List.Perm.eq_of_pairwise (fun a b _ _ hab hba => absurd (hab.trans hba) (lt_irrefl _))
    m.sorted m'.sorted ?_
  refine (List.perm_ext_iff_of_nodup (m.sorted.imp fun hab heq => ?_)
    (m'.sorted.imp fun hab heq => ?_)).mpr fun ⟨k, v⟩ => ?_
  · exact absurd (heq ▸ hab) (lt_irrefl _)
  · exact absurd (heq ▸ hab) (lt_irrefl _)
  · rw [mem_entries, mem_entries, h]

theorem get_modify (m : SortedMap K V) (k k' : K) (f : V → V) :
    (m.modify k f).get k' = if k' = k then (m.get k).map f else m.get k' := by
  unfold modify
  cases hget : m.get k with
  | none =>
    split_ifs with h
    · rw [h, hget]
      rfl
    · rfl
  | some v => exact get_insert m k k' (f v)

/-! ## Changes to different keys -/

theorem insert_insert (m : SortedMap K V) (k : K) (v v' : V) :
    (m.insert k v).insert k v' = m.insert k v' := by
  refine eq_of_get fun i => ?_
  simp only [get_insert]
  split_ifs <;> rfl

theorem insert_modify (m : SortedMap K V) (k : K) (v : V) (f : V → V) :
    (m.insert k v).modify k f = m.insert k (f v) := by
  refine eq_of_get fun i => ?_
  simp only [get_insert, get_modify, if_pos]
  split_ifs <;> rfl

section Commute

variable (m : SortedMap K V) {k k' : K} (h : k ≠ k') (v v' : V)
include h

theorem insert_comm : (m.insert k v).insert k' v' = (m.insert k' v').insert k v := by
  refine eq_of_get fun i => ?_
  simp only [get_insert]
  split_ifs with hk' hk
  · exact absurd (hk.symm.trans hk') h
  all_goals rfl

theorem insert_erase_comm : (m.insert k v).erase k' = (m.erase k').insert k v := by
  refine eq_of_get fun i => ?_
  simp only [get_insert, get_erase]
  split_ifs with hk' hk
  · exact absurd (hk.symm.trans hk') h
  all_goals rfl

theorem insert_modify_comm (f : V → V) :
    (m.insert k v).modify k' f = (m.modify k' f).insert k v := by
  refine eq_of_get fun i => ?_
  simp only [get_insert, get_modify, if_neg h.symm]
  split_ifs with hk' hk
  · exact absurd (hk.symm.trans hk') h
  all_goals rfl

end Commute

/-! ## Where a key stands -/

theorem insertPair_append {k : K} {v : V} {l : List (K × V)} (h : ∀ a ∈ l, a.1 < k)
    (l' : List (K × V)) : insertPair k v (l ++ l') = l ++ insertPair k v l' := by
  induction l with
  | nil => rfl
  | cons b l ih =>
    have hb := h b List.mem_cons_self
    rw [List.cons_append, insertPair, if_neg hb.not_gt, if_neg hb.ne',
      ih fun a ha => h a (List.mem_cons_of_mem _ ha), List.cons_append]

/-- A new greatest key comes last. -/
theorem entries_insert_of_lt {m : SortedMap K V} {k : K} (h : ∀ a ∈ m.entries, a.1 < k) (v : V) :
    (m.insert k v).entries = m.entries ++ [(k, v)] := by
  have happ := insertPair_append (v := v) h []
  rwa [List.append_nil] at happ

theorem entries_split (m : SortedMap K V) (k : K) :
    m.entries = m.entries.takeWhile (fun a => decide (a.1 < k)) ++
      m.entries.dropWhile fun a => decide (a.1 < k) := List.takeWhile_append_dropWhile.symm

theorem lt_of_mem_takeWhile {k : K} {l : List (K × V)} :
    ∀ a ∈ l.takeWhile (fun a => decide (a.1 < k)), a.1 < k := by
  intro a ha
  have hlt := List.mem_takeWhile_imp ha
  exact of_decide_eq_true hlt

/-- The pairs from a key on begin with a key that is not smaller. -/
theorem le_of_dropWhile {k : K} {l l' : List (K × V)} {b : K × V}
    (h : l.dropWhile (fun a => decide (a.1 < k)) = b :: l') : k ≤ b.1 := by
  have hb := List.head?_dropWhile_not (fun a : K × V => decide (a.1 < k)) l
  rw [h, List.head?_cons] at hb
  exact not_lt.mp (of_decide_eq_false hb)

/-- The value of a key is that of the first pair whose key is not smaller, if that is the key. -/
theorem get_eq_dropWhile (m : SortedMap K V) (k : K) :
    m.get k = (m.entries.dropWhile fun a => decide (a.1 < k)).head?.bind
      fun b => if b.1 = k then some b.2 else none := by
  cases hd : m.entries.dropWhile (fun a => decide (a.1 < k)) with
  | nil =>
    refine get_eq_none.mpr fun a ha => ?_
    have := List.dropWhile_eq_nil_iff.mp hd a ha
    exact (of_decide_eq_true this).ne
  | cons b l =>
    have hsplit := (m.entries_split k).symm
    have hsorted := m.sorted
    rw [hd] at hsplit
    rw [← hsplit] at hsorted
    obtain ⟨-, htail, -⟩ := List.pairwise_append.mp hsorted
    obtain ⟨hl, -⟩ := List.pairwise_cons.mp htail
    rw [List.head?_cons, Option.bind_some]
    by_cases hb : b.1 = k
    · rw [if_pos hb, ← hb, ← mem_entries]
      exact hsplit ▸ List.mem_append_right _ List.mem_cons_self
    · rw [if_neg hb, get_eq_none, ← hsplit]
      intro a ha
      rcases List.mem_append.mp ha with ha | ha
      · exact (lt_of_mem_takeWhile a ha).ne
      rcases List.mem_cons.mp ha with rfl | ha
      · exact hb
      · exact ((lt_of_le_of_ne (le_of_dropWhile hd) (Ne.symm hb)).trans (hl a ha)).ne'

theorem firstFrom_eq_none {m : SortedMap K V} {k : K} (h : m.firstFrom k = none) :
    ∀ a ∈ m.entries, a.1 < k := by
  intro a ha
  rw [m.entries_split k, List.head?_eq_none_iff.mp h, List.append_nil] at ha
  exact lt_of_mem_takeWhile a ha

theorem firstFrom_eq_some {m : SortedMap K V} {k : K} {b : K × V} (h : m.firstFrom k = some b) :
    b ∈ m.entries ∧ k ≤ b.1 ∧ ∀ a ∈ m.entries, k ≤ a.1 → b.1 ≤ a.1 := by
  obtain ⟨l, hd⟩ := List.head?_eq_some_iff.mp h
  have hsplit := m.entries_split k
  have hsorted := m.sorted
  rw [hd] at hsplit
  rw [hsplit] at hsorted
  obtain ⟨hl, -⟩ := List.pairwise_cons.mp (List.pairwise_append.mp hsorted).2.1
  refine ⟨hsplit ▸ List.mem_append_right _ List.mem_cons_self, le_of_dropWhile hd, fun a ha hle =>
    ?_⟩
  rw [hsplit] at ha
  rcases List.mem_append.mp ha with ha | ha
  · exact absurd (lt_of_mem_takeWhile a ha) hle.not_gt
  rcases List.mem_cons.mp ha with rfl | ha
  · exact le_rfl
  · exact (hl a ha).le

theorem dropWhile_of_get {m : SortedMap K V} {k : K} {v : V} (h : m.get k = some v) :
    ∃ l, m.entries.dropWhile (fun a => decide (a.1 < k)) = (k, v) :: l := by
  rw [get_eq_dropWhile] at h
  obtain ⟨b, hb, hv⟩ := Option.bind_eq_some_iff.mp h
  split_ifs at hv with hk
  obtain ⟨l, hl⟩ := List.head?_eq_some_iff.mp hb
  exact ⟨l, by rw [hl, ← hk, ← Option.some.inj hv]⟩

/-- A key that has a value is given another one in its place. -/
theorem entries_insert_of_dropWhile {m : SortedMap K V} {k : K} {w : V} {l : List (K × V)}
    (h : m.entries.dropWhile (fun a => decide (a.1 < k)) = (k, w) :: l) (v : V) :
    (m.insert k v).entries = m.entries.takeWhile (fun a => decide (a.1 < k)) ++ (k, v) :: l := by
  show insertPair k v m.entries = _
  conv_lhs => rw [m.entries_split k]
  rw [insertPair_append lt_of_mem_takeWhile, h, insertPair, if_neg (lt_irrefl k), if_pos rfl]

/-- A new key is put in front of the first greater one. -/
theorem entries_insert_of_none {m : SortedMap K V} {k : K} (h : m.get k = none) (v : V) :
    (m.insert k v).entries = m.entries.takeWhile (fun a => decide (a.1 < k)) ++
      (k, v) :: m.entries.dropWhile fun a => decide (a.1 < k) := by
  show insertPair k v m.entries = _
  conv_lhs => rw [m.entries_split k]
  rw [insertPair_append lt_of_mem_takeWhile]
  congr 1
  cases hd : m.entries.dropWhile (fun a => decide (a.1 < k)) with
  | nil => rfl
  | cons b l =>
    have hne : b.1 ≠ k := get_eq_none.mp h b (by rw [m.entries_split k, hd]; simp)
    rw [insertPair, if_pos (lt_of_le_of_ne (le_of_dropWhile hd) hne.symm)]

/-! ## What holds of all keys -/

section Keys

variable {P : K → Prop} {m : SortedMap K V} {k : K}

theorem forall_insert (h : ∀ a ∈ m.entries, P a.1) (hk : P k) (v : V) :
    ∀ a ∈ (m.insert k v).entries, P a.1 := by
  intro a ha
  rcases mem_insertPair ha with rfl | ha
  · exact hk
  · exact h a ha

theorem forall_erase (h : ∀ a ∈ m.entries, P a.1) (k : K) : ∀ a ∈ (m.erase k).entries, P a.1 :=
  fun a ha => h a (List.mem_of_mem_filter ha)

theorem forall_modify (h : ∀ a ∈ m.entries, P a.1) (k : K) (f : V → V) :
    ∀ a ∈ (m.modify k f).entries, P a.1 := by
  unfold modify
  cases hget : m.get k with
  | none => exact h
  | some v => exact forall_insert h (h _ (mem_entries.mpr hget)) (f v)

end Keys

/-! ## Some of the keys -/

section Within

variable {p : K → Prop} [DecidablePred p] {m : SortedMap K V}

theorem mem_within {a : K × V} : a ∈ m.within p ↔ a ∈ m.entries ∧ p a.1 := by
  unfold within
  rw [List.mem_filter, decide_eq_true_eq]

theorem within_sorted (m : SortedMap K V) (p : K → Prop) [DecidablePred p] :
    (m.within p).Pairwise (fun a b => a.1 < b.1) := m.sorted.filter _

theorem within_insert_of_lt {k : K} (h : ∀ a ∈ m.entries, a.1 < k) (hp : p k) (v : V) :
    (m.insert k v).within p = m.within p ++ [(k, v)] := by
  unfold within
  rw [entries_insert_of_lt h, List.filter_append]
  simp [hp]

/-- A new key is put in its place. -/
theorem within_insert_of_none {k : K} (h : m.get k = none) (v : V) : ∃ l l', m.within p = l ++ l' ∧
    ((m.insert k v).within p = l ++ l' ∨ (m.insert k v).within p = l ++ (k, v) :: l') := by
  have hsplit : ∀ l : List (K × V), (∀ a ∈ l, a.1 ≠ k) →
      ∃ l₁ l₂, l = l₁ ++ l₂ ∧ insertPair k v l = l₁ ++ (k, v) :: l₂ := by
    intro l hl
    induction l with
    | nil => exact ⟨[], [], rfl, rfl⟩
    | cons b l ih =>
      obtain ⟨hb, hl⟩ := List.forall_mem_cons.mp hl
      unfold insertPair
      split_ifs with hlt heq
      · exact ⟨[], b :: l, rfl, rfl⟩
      · exact absurd heq.symm hb
      · obtain ⟨l₁, l₂, rfl, hins⟩ := ih hl
        exact ⟨b :: l₁, l₂, rfl, by rw [hins]; rfl⟩
  obtain ⟨l, l', hentries, hins⟩ := hsplit m.entries (get_eq_none.mp h)
  refine ⟨l.filter fun a => p a.1, l'.filter fun a => p a.1, ?_, ?_⟩
  · rw [within, hentries, List.filter_append]
  · rw [within, show (m.insert k v).entries = _ from hins, List.filter_append, List.filter_cons]
    split_ifs
    · exact Or.inr rfl
    · exact Or.inl rfl

theorem within_erase (k : K) : (m.erase k).within p = (m.within p).filter (fun a => a.1 ≠ k) := by
  unfold within erase
  dsimp only
  rw [List.filter_comm]

theorem within_erase_of_not {k : K} (h : ¬p k) : (m.erase k).within p = m.within p := by
  rw [within_erase, List.filter_eq_self]
  intro a ha
  rw [decide_eq_true_eq]
  rintro rfl
  exact h (mem_within.mp ha).2

/-- The first of them goes. -/
theorem within_erase_head {k : K} {v : V} {l : List (K × V)} (h : m.within p = (k, v) :: l) :
    (m.erase k).within p = l := by
  have hs := within_sorted m p
  rw [h, List.pairwise_cons] at hs
  rw [within_erase, h, List.filter_cons_of_neg (by simp), List.filter_eq_self]
  intro a ha
  rw [decide_eq_true_eq]
  exact (hs.1 a ha).ne'

theorem map_ite_of_ne {k : K} {l : List (K × V)} (h : ∀ a ∈ l, a.1 ≠ k) (f : K × V → K × V) :
    (l.map fun a => if a.1 = k then f a else a) = l :=
  (List.map_congr_left fun a ha => if_neg (h a ha)).trans (List.map_id' l)

theorem insertPair_eq_map {k : K} {v v' : V} {l : List (K × V)}
    (hs : l.Pairwise (fun a b => a.1 < b.1)) (h : (k, v) ∈ l) :
    insertPair k v' l = l.map fun a => if a.1 = k then (k, v') else a := by
  induction l with
  | nil => cases h
  | cons b l ih =>
    obtain ⟨hb, hl⟩ := List.pairwise_cons.mp hs
    unfold insertPair
    rw [List.map_cons]
    rcases List.mem_cons.mp h with rfl | hmem
    · rw [if_neg (lt_irrefl _), if_pos rfl, if_pos rfl]
      congr 1
      exact (map_ite_of_ne (fun a ha => (hb a ha).ne') fun _ => (k, v')).symm
    · have hlt := hb _ hmem
      rw [if_neg hlt.not_gt, if_neg hlt.ne', if_neg hlt.ne, ih hl hmem]

theorem entries_modify (m : SortedMap K V) (k : K) (f : V → V) :
    (m.modify k f).entries = m.entries.map fun a => if a.1 = k then (k, f a.2) else a := by
  unfold modify
  cases hget : m.get k with
  | none =>
    exact (map_ite_of_ne (get_eq_none.mp hget) fun a => (k, f a.2)).symm
  | some v =>
    have hmem := mem_entries.mpr hget
    rw [show (m.insert k (f v)).entries = insertPair k (f v) m.entries from rfl,
      insertPair_eq_map m.sorted hmem]
    refine List.map_congr_left fun a ha => ?_
    split_ifs with hk
    · have : m.get k = some a.2 := mem_entries.mp (hk ▸ ha)
      rw [hget] at this
      rw [Option.some.inj this]
    · rfl

/-- A key keeps its place when its value changes. -/
theorem within_modify {k : K} {v : V} {l l' : List (K × V)} (h : m.within p = l ++ (k, v) :: l')
    (f : V → V) : (m.modify k f).within p = l ++ (k, f v) :: l' := by
  have hs := within_sorted m p
  rw [h, List.pairwise_append] at hs
  have hmap : (m.modify k f).within p =
      (m.within p).map fun a => if a.1 = k then (k, f a.2) else a := by
    unfold within
    rw [entries_modify, List.filter_map]
    congr 1
    refine List.filter_congr fun a _ => ?_
    dsimp only [Function.comp]
    split_ifs with hk
    · rw [hk]
    · rfl
  rw [hmap, h, List.map_append, List.map_cons, if_pos rfl,
    map_ite_of_ne fun a ha => (hs.2.2 a ha (k, v) List.mem_cons_self).ne,
    map_ite_of_ne fun a ha => ((List.pairwise_cons.mp hs.2.1).1 a ha).ne']

end Within

/-! ## Lists in order -/

theorem ofList_entries (m : SortedMap K V) : ofList m.entries = some m := dif_pos m.sorted

theorem entries_of_ofList {l : List (K × V)} {m : SortedMap K V} (h : ofList l = some m) :
    m.entries = l := by
  unfold ofList at h
  split_ifs at h
  cases h
  rfl

end SortedMap

end KvStore.Layered
