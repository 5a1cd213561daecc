import KvStore.Layered.SortedMap
import Mathlib

/-!
# Skip lists

A linked structure with forward pointers on several levels. The nodes are in a heap and a pointer is
a place in it, so that the operations follow and change pointers as a program does; reading a
pointer that a node does not have fails.

* `walk`, `descend`: the search. On each level, from the highest in use, go right while the next key
  is smaller, and go on from there one level below.
* `Rep`: the pointers of each level link a list of nodes, the list of a level is part of the one
  below, and the lowest holds the pairs of a sorted map.
* `Rep.descend`, `Rep.get`: the search ends before the first key that is not smaller, on every
  level.
-/

namespace KvStore

open Layered

/-- A node: `forward i` is its successor on level `i`. -/
structure SkipNode (K V : Type) where
  key : K
  val : V
  forward : List (Option ℕ)

/-- A skip list: its nodes in the order they were made, the pointers of its head, the number of
levels in use and of nodes, and the coin tosses to come. -/
structure SkipList (K V : Type) where
  nodes : List (SkipNode K V) := []
  head : List (Option ℕ)
  height : ℕ := 1
  length : ℕ := 0
  rnd : Stream' Bool

namespace SkipList

variable {K V : Type}

/-- The pointer on level `i` of a node, or of the head (`none`). -/
def next (s : SkipList K V) (x : Option ℕ) (i : ℕ) : Option (Option ℕ) :=
  match x with
  | none => s.head[i]?
  | some a => s.nodes[a]?.bind fun n => n.forward[i]?

/-- Change the pointer on level `i` of a node or of the head. -/
def setNext (s : SkipList K V) (x : Option ℕ) (i : ℕ) (v : Option ℕ) : SkipList K V :=
  match x with
  | none => { s with head := s.head.set i v }
  | some a => { s with nodes := s.nodes.modify a fun n => { n with forward := n.forward.set i v } }

/-- The pair that a node holds. -/
def pair (s : SkipList K V) (a : ℕ) : Option (K × V) := s.nodes[a]?.map fun n => (n.key, n.val)

/-- The nodes that the pointers of a level lead to from `x`, at most `fuel`. -/
def chainFrom (s : SkipList K V) (i : ℕ) : ℕ → Option ℕ → Option (List ℕ)
  | 0, _ => none
  | fuel + 1, x => do
    match ← s.next x i with
    | none => return []
    | some a => return a :: (← chainFrom s i fuel (some a))

/-- The nodes of a level. -/
def chain (s : SkipList K V) (i : ℕ) : Option (List ℕ) := s.chainFrom i (s.nodes.length + 1) none

variable [LinearOrder K]

/-- On one level, go right while the next key is smaller. -/
def walk (s : SkipList K V) (key : K) (i : ℕ) : ℕ → Option ℕ → Option (Option ℕ)
  | 0, _ => none
  | fuel + 1, x => do
    match ← s.next x i with
    | none => return x
    | some a =>
      let n ← s.nodes[a]?
      if n.key < key then walk s key i fuel (some a) else return x

/-- Go down from level `i`, and return where the search ends and where it left each level. -/
def descend (s : SkipList K V) (key : K) : ℕ → Option ℕ → Option (Option ℕ × List (Option ℕ))
  | 0, x => some (x, [])
  | i + 1, x => do
    let x ← s.walk key i (s.nodes.length + 1) x
    let (y, update) ← s.descend key i x
    return (y, update ++ [x])

/-- The node behind `x` and its value, if it is the key's. -/
def existing (s : SkipList K V) (x : Option ℕ) (key : K) : Option (Option (ℕ × V)) := do
  match ← s.next x 0 with
  | none => return none
  | some a =>
    let n ← s.nodes[a]?
    return if n.key = key then some (a, n.val) else none

/-- The value of a key. -/
def get (s : SkipList K V) (key : K) : Option (Option V) := do
  let (x, _) ← s.descend key s.height none
  return (← s.existing x key).map Prod.snd

/-! ## Linked nodes -/

section Linked

omit [LinearOrder K]

variable {s s' : SkipList K V} {i : ℕ} {x x' : Option ℕ} {l l₁ l₂ : List ℕ}

/-- The pointers of level `i` lead from `x` through the nodes of the list, and end there. -/
def Linked (s : SkipList K V) (i : ℕ) : Option ℕ → List ℕ → Prop
  | x, [] => s.next x i = some none
  | x, a :: l => s.next x i = some (some a) ∧ Linked s i (some a) l

/-- The last node of the list, or `x` if there is none. -/
def lastOf (x : Option ℕ) : List ℕ → Option ℕ
  | [] => x
  | a :: l => lastOf (some a) l

@[simp] theorem lastOf_append_cons (x : Option ℕ) (l₁ : List ℕ) (a : ℕ) (l₂ : List ℕ) :
    lastOf x (l₁ ++ a :: l₂) = lastOf (some a) l₂ := by
  induction l₁ generalizing x with
  | nil => rfl
  | cons b l₁ ih => exact ih (some b)

theorem lastOf_cons_mem (x : Option ℕ) (a : ℕ) (l : List ℕ) :
    ∃ c ∈ a :: l, lastOf x (a :: l) = some c := by
  induction l generalizing x a with
  | nil => exact ⟨a, List.mem_cons_self, rfl⟩
  | cons b l ih =>
    obtain ⟨c, hc, hlast⟩ := ih (some a) b
    exact ⟨c, List.mem_cons_of_mem a hc, hlast⟩

theorem Linked.next_eq (h : Linked s i x l) : s.next x i = some l.head? := by
  cases l with
  | nil => exact h
  | cons a l => exact h.1

/-- The nodes after a part of the list are linked from its last one. -/
theorem Linked.drop (h : Linked s i x (l₁ ++ l₂)) : Linked s i (lastOf x l₁) l₂ := by
  induction l₁ generalizing x with
  | nil => exact h
  | cons a l₁ ih => exact ih h.2

theorem Linked.congr (h : Linked s i x l) (hx : s'.next x' i = s.next x i)
    (hl : ∀ a ∈ l, s'.next (some a) i = s.next (some a) i) : Linked s' i x' l := by
  induction l generalizing x x' with
  | nil => exact hx.trans h
  | cons a l ih =>
    exact ⟨hx.trans h.1, ih h.2 (hl a List.mem_cons_self) fun b hb =>
      hl b (List.mem_cons_of_mem a hb)⟩

/-- A node is put behind the last one of `l₁`, and nothing else changes on the level. -/
theorem Linked.insert {new : ℕ} (h : Linked s i x (l₁ ++ l₂)) (hnodup : (l₁ ++ l₂).Nodup)
    (hx : ∀ a ∈ l₁ ++ l₂, x ≠ some a) (hlast : s'.next (lastOf x l₁) i = some (some new))
    (hnext : s'.next (some new) i = s.next (lastOf x l₁) i)
    (hhead : x ≠ lastOf x l₁ → s'.next x i = s.next x i)
    (hframe : ∀ a ∈ l₁ ++ l₂, some a ≠ lastOf x l₁ → s'.next (some a) i = s.next (some a) i) :
    Linked s' i x (l₁ ++ new :: l₂) := by
  induction l₁ generalizing x with
  | nil => exact ⟨hlast, h.congr hnext fun a ha => hframe a ha (hx a ha).symm⟩
  | cons b l₁ ih =>
    obtain ⟨hb, hnodup'⟩ := List.nodup_cons.mp hnodup
    have hfirst : x ≠ lastOf x (b :: l₁) := by
      obtain ⟨c, hc, hlast⟩ := lastOf_cons_mem x b l₁
      exact hlast ▸ hx c (List.mem_append_left l₂ hc)
    refine ⟨(hhead hfirst).trans h.1, ?_⟩
    exact ih h.2 hnodup' (fun a ha heq => hb (Option.some.inj heq ▸ ha)) hlast hnext
      (hframe b List.mem_cons_self) fun a ha => hframe a (List.mem_cons_of_mem b ha)

end Linked

/-! ## The search -/

/-- The node's key is smaller. -/
def below (s : SkipList K V) (key : K) (a : ℕ) : Bool := (s.pair a).any fun p => p.1 < key

/-- The last node of a level whose key is smaller, or the head. -/
def pred (s : SkipList K V) (key : K) (l : List ℕ) : Option ℕ :=
  lastOf none (l.takeWhile (s.below key))

section

variable {s : SkipList K V} {key : K} {i : ℕ} {x : Option ℕ} {l : List ℕ}

theorem below_of_node {a : ℕ} {n : SkipNode K V} (h : s.nodes[a]? = some n) :
    s.below key a = decide (n.key < key) := by
  simp [below, pair, h]

theorem pred_mem {a : ℕ} (h : s.pred key l = some a) : a ∈ l ∧ s.below key a := by
  unfold pred at h
  cases htake : l.takeWhile (s.below key) with
  | nil => simp [htake, lastOf] at h
  | cons b l' =>
    obtain ⟨c, hc, hlast⟩ := lastOf_cons_mem none b l'
    rw [htake, hlast] at h
    rw [← htake, Option.some.inj h] at hc
    exact ⟨(List.takeWhile_sublist _).subset hc, List.mem_takeWhile_imp hc⟩

theorem walk_eq (h : s.Linked i x l) (hl : ∀ a ∈ l, a < s.nodes.length) {fuel : ℕ}
    (hfuel : l.length < fuel) : s.walk key i fuel x =
      some (lastOf x (l.takeWhile (s.below key))) := by
  induction l generalizing x fuel with
  | nil =>
    obtain ⟨fuel, rfl⟩ := Nat.exists_eq_add_one.mpr hfuel
    rw [walk, h.next_eq]
    rfl
  | cons a l ih =>
    obtain ⟨fuel, rfl⟩ := Nat.exists_eq_add_one.mpr (Nat.zero_lt_of_lt hfuel)
    have hlen := hl a List.mem_cons_self
    have hn : s.nodes[a]? = some s.nodes[a] := List.getElem?_eq_getElem hlen
    rw [walk, h.next_eq]
    simp only [List.head?_cons, Option.bind_eq_bind, Option.bind_some, hn]
    rw [List.takeWhile_cons, below_of_node hn]
    by_cases hlt : s.nodes[a].key < key
    · rw [if_pos hlt, if_pos (decide_eq_true hlt)]
      exact ih h.2 (fun b hb => hl b (List.mem_cons_of_mem a hb)) (Nat.lt_of_succ_lt_succ hfuel)
    · rw [if_neg hlt, if_neg (by simpa using hlt)]
      rfl

omit [LinearOrder K] in
theorem chainFrom_eq (h : s.Linked i x l) {fuel : ℕ} (hfuel : l.length < fuel) :
    s.chainFrom i fuel x = some l := by
  induction l generalizing x fuel with
  | nil =>
    obtain ⟨fuel, rfl⟩ := Nat.exists_eq_add_one.mpr hfuel
    rw [chainFrom, h.next_eq]
    rfl
  | cons a l ih =>
    obtain ⟨fuel, rfl⟩ := Nat.exists_eq_add_one.mpr (Nat.zero_lt_of_lt hfuel)
    rw [chainFrom, h.next_eq, List.head?_cons]
    simp only [Option.bind_eq_bind, Option.bind_some, ih h.2 (Nat.lt_of_succ_lt_succ hfuel)]
    rfl

end

/-! ## What a skip list holds -/

/-- The nodes of each level, and the map that the lowest lists. -/
structure Rep (s : SkipList K V) (ch : ℕ → List ℕ) (m : SortedMap K V) : Prop where
  linked : ∀ i < s.head.length, s.Linked i none (ch i)
  sub : ∀ i, (ch (i + 1)).Sublist (ch i)
  high : ∀ i, s.height ≤ i → ch i = []
  height_pos : 0 < s.height
  height_le : s.height ≤ s.head.length
  pairs : (ch 0).map s.pair = m.entries.map some
  count : s.nodes.length = (ch 0).length
  length : s.length = (ch 0).length

/-- Two lists whose parts correspond are cut at the same place. -/
theorem map_takeWhile_dropWhile {α β : Type} {f : α → Option β} {l : List α} {E : List β}
    (p : β → Bool) (h : l.map f = E.map some) :
    (l.takeWhile fun a => (f a).any p).map f = (E.takeWhile p).map some ∧
      (l.dropWhile fun a => (f a).any p).map f = (E.dropWhile p).map some := by
  induction l generalizing E with
  | nil =>
    cases E with
    | nil => exact ⟨rfl, rfl⟩
    | cons b E => exact absurd h nofun
  | cons a l ih =>
    cases E with
    | nil => exact absurd h nofun
    | cons b E =>
      obtain ⟨ha, hl⟩ := List.cons.inj h
      obtain ⟨htake, hdrop⟩ := ih hl
      rw [List.takeWhile_cons, List.takeWhile_cons, List.dropWhile_cons, List.dropWhile_cons, ha,
        Option.any_some]
      cases p b with
      | true => exact ⟨by simp only [if_true, List.map_cons, ha, htake], hdrop⟩
      | false => exact ⟨rfl, h⟩

namespace Rep

variable {s : SkipList K V} {ch : ℕ → List ℕ} {m : SortedMap K V} {i j : ℕ} {key : K}

theorem sublist (h : Rep s ch m) (hij : i ≤ j) : (ch j).Sublist (ch i) := by
  induction j, hij using Nat.le_induction with
  | base => exact List.Sublist.refl _
  | succ j _ ih => exact (h.sub j).trans ih

/-- Every node of a level holds a pair. -/
theorem pair_of_mem (h : Rep s ch m) {a : ℕ} (ha : a ∈ ch i) :
    ∃ p ∈ m.entries, s.pair a = some p := by
  have hmem := List.mem_map_of_mem (f := s.pair) ((h.sublist (Nat.zero_le i)).subset ha)
  rw [h.pairs] at hmem
  obtain ⟨p, hp, heq⟩ := List.mem_map.mp hmem
  exact ⟨p, hp, heq.symm⟩

theorem node_of_mem (h : Rep s ch m) {a : ℕ} (ha : a ∈ ch i) : a < s.nodes.length := by
  obtain ⟨p, -, hp⟩ := h.pair_of_mem ha
  obtain ⟨n, hn, -⟩ := Option.map_eq_some_iff.mp hp
  exact (List.getElem?_eq_some_iff.mp hn).1

theorem length_lt (h : Rep s ch m) (i : ℕ) : (ch i).length < s.nodes.length + 1 := by
  rw [h.count]
  exact Nat.lt_succ_of_le (h.sublist (Nat.zero_le i)).length_le

/-- The keys of a level are in order. -/
theorem sorted (h : Rep s ch m) (i : ℕ) :
    (ch i).Pairwise fun a b => ∀ p ∈ s.pair a, ∀ q ∈ s.pair b, p.1 < q.1 := by
  have hall : ((ch 0).map s.pair).Pairwise fun p q => ∀ a ∈ p, ∀ b ∈ q, a.1 < b.1 := by
    rw [h.pairs, List.pairwise_map]
    refine m.sorted.imp ?_
    intro a b hab p hp q hq
    rwa [← Option.some.inj hp, ← Option.some.inj hq]
  exact (List.pairwise_map.mp hall).sublist (h.sublist (Nat.zero_le i))

theorem nodup (h : Rep s ch m) (i : ℕ) : (ch i).Nodup := by
  refine List.Pairwise.imp_of_mem ?_ (h.sorted i)
  rintro a b ha - hab rfl
  obtain ⟨p, -, hp⟩ := h.pair_of_mem ha
  exact (hab p hp p hp).false

theorem chain_eq (h : Rep s ch m) (hi : i < s.head.length) : s.chain i = some (ch i) :=
  chainFrom_eq (h.linked i hi) (h.length_lt i)

/-- On a level the walk ends at the same node wherever it starts. -/
theorem walk (h : Rep s ch m) (hi : i < s.head.length) {x : Option ℕ}
    (hx : ∀ a, x = some a → a ∈ ch i ∧ s.below key a) :
    s.walk key i (s.nodes.length + 1) x = some (s.pred key (ch i)) := by
  cases x with
  | none => exact walk_eq (h.linked i hi) (fun a ha => h.node_of_mem ha) (h.length_lt i)
  | some a =>
    obtain ⟨ha, hlt⟩ := hx a rfl
    obtain ⟨l₁, l₂, hsplit⟩ := List.append_of_mem ha
    have hlinked := h.linked i hi
    have hsorted := h.sorted i
    have hlen := h.length_lt i
    rw [hsplit] at hlinked hsorted hlen
    obtain ⟨p, -, hp⟩ := h.pair_of_mem ha
    have hkey : p.1 < key := by simpa [below, hp] using hlt
    -- the nodes before `a` have smaller keys than `a`, so the walk from the head passes them
    have hbefore : ∀ b ∈ l₁, s.below key b := by
      intro b hb
      obtain ⟨q, -, hq⟩ := h.pair_of_mem (i := i) (hsplit ▸ List.mem_append_left _ hb)
      have hqp := (List.pairwise_append.mp hsorted).2.2 b hb a List.mem_cons_self q hq p hp
      simpa [below, hq] using hqp.trans hkey
    have hrest : s.Linked i (some a) l₂ := (Linked.drop hlinked).2
    rw [walk_eq hrest (fun b hb => h.node_of_mem (i := i)
      (hsplit ▸ List.mem_append_right _ (List.mem_cons_of_mem a hb))) (by grind), pred, hsplit,
      List.takeWhile_append_of_pos hbefore, List.takeWhile_cons_of_pos hlt, lastOf_append_cons]

/-- The search leaves each level at its last node with a smaller key. -/
theorem descend (h : Rep s ch m) (hi : i ≤ s.height) {x : Option ℕ}
    (hx : ∀ a, x = some a → a ∈ ch (i - 1) ∧ s.below key a) :
    s.descend key i x =
      some (if i = 0 then x else s.pred key (ch 0), (List.range i).map fun j =>
        s.pred key (ch j)) := by
  induction i generalizing x with
  | zero => rfl
  | succ i ih =>
    have hlevel : i < s.head.length := Nat.lt_of_lt_of_le hi h.height_le
    have hnext : ∀ a, s.pred key (ch i) = some a → a ∈ ch (i - 1) ∧ s.below key a := fun a ha =>
      ⟨(h.sublist (Nat.sub_le i 1)).subset (pred_mem ha).1, (pred_mem ha).2⟩
    rw [SkipList.descend, h.walk hlevel hx]
    simp only [Option.bind_eq_bind, Option.bind_some, ih (Nat.le_of_succ_le hi) hnext,
      List.range_succ, List.map_append, List.map_cons, List.map_nil, Nat.succ_ne_zero, if_false]
    cases i <;> rfl

theorem descend_height (h : Rep s ch m) (key : K) : s.descend key s.height none =
    some (s.pred key (ch 0), (List.range s.height).map fun j => s.pred key (ch j)) := by
  rw [h.descend le_rfl (fun _ ha => absurd ha.symm (Option.some_ne_none _)),
    if_neg h.height_pos.ne']

/-- The nodes that the search leaves behind and ahead list the pairs before the key and from it
on. -/
theorem split (h : Rep s ch m) (key : K) :
    ((ch 0).takeWhile (s.below key)).map s.pair =
        (m.entries.takeWhile fun a => decide (a.1 < key)).map some ∧
      ((ch 0).dropWhile (s.below key)).map s.pair =
        (m.entries.dropWhile fun a => decide (a.1 < key)).map some :=
  map_takeWhile_dropWhile _ h.pairs

/-- The node that the search stops in front of. -/
theorem next_pred (h : Rep s ch m) (hi : i < s.head.length) (key : K) :
    s.next (s.pred key (ch i)) i = some ((ch i).dropWhile (s.below key)).head? := by
  have hlinked := h.linked i hi
  rw [← List.takeWhile_append_dropWhile (p := s.below key) (l := ch i)] at hlinked
  exact hlinked.drop.next_eq

theorem head_pos (h : Rep s ch m) : 0 < s.head.length := h.height_pos.trans_le h.height_le

/-- The search ends in front of the key's node, or the map has no value for the key. -/
theorem existing (h : Rep s ch m) (key : K) :
    (∃ a l old, (ch 0).dropWhile (s.below key) = a :: l ∧ s.pair a = some (key, old) ∧
      m.get key = some old ∧ s.existing (s.pred key (ch 0)) key = some (some (a, old))) ∨
    (m.get key = none ∧ s.existing (s.pred key (ch 0)) key = some none) := by
  have hdrop := (h.split key).2
  rw [SkipList.existing, h.next_pred h.head_pos, m.get_eq_dropWhile]
  generalize (ch 0).dropWhile (s.below key) = l at hdrop ⊢
  generalize m.entries.dropWhile (fun a => decide (a.1 < key)) = E at hdrop ⊢
  cases l with
  | nil =>
    cases E with
    | nil => exact Or.inr ⟨rfl, rfl⟩
    | cons b E => exact absurd hdrop nofun
  | cons a l =>
    cases E with
    | nil => exact absurd hdrop nofun
    | cons b E =>
      obtain ⟨n, hn, rfl⟩ := Option.map_eq_some_iff.mp (List.cons.inj hdrop).1
      simp only [List.head?_cons, Option.bind_eq_bind, Option.bind_some, hn, pair]
      by_cases hk : n.key = key
      · subst hk
        exact Or.inl ⟨a, l, n.val, rfl, by rw [hn]; rfl, if_pos rfl, by rw [if_pos rfl]; rfl⟩
      · exact Or.inr ⟨if_neg hk, by rw [if_neg hk]; rfl⟩

/-- `get` finds the key's value in the map. -/
theorem get (h : Rep s ch m) (key : K) : s.get key = some (m.get key) := by
  rw [SkipList.get, h.descend_height]
  simp only [Option.bind_eq_bind, Option.bind_some]
  rcases h.existing key with ⟨a, l, old, -, -, hget, hex⟩ | ⟨hget, hex⟩ <;> rw [hex, hget] <;> rfl

end Rep

end SkipList

end KvStore
