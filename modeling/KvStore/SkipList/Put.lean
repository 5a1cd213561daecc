import KvStore.SkipList.Basic

/-!
# Writing to a skip list

`put` gives a key that is there its new value in place. A new key gets a node of a random height,
which is put behind the node where the search left each of its levels.

* `Spliced`: what linking a node changes, one pointer of its own and one of another node on each
  level.
* `Rep.insertNode`, `Rep.setVal`: the levels and the map after each of the two.
* `Rep.put`: `put` inserts into the map, whatever the coins say.
-/

namespace KvStore

open Layered

namespace SkipList

variable {K V : Type}

/-- The height of a new node: toss on as long as the coin says so and there is another level. -/
def randomLevelFrom : ℕ → ℕ → Stream' Bool → ℕ × Stream' Bool
  | 0, level, rnd => (level, rnd)
  | more + 1, level, rnd =>
    if rnd.head then randomLevelFrom more (level + 1) rnd.tail else (level, rnd.tail)

/-- A height from one to `maxHeight`. -/
def randomLevel (maxHeight : ℕ) (rnd : Stream' Bool) : ℕ × Stream' Bool :=
  randomLevelFrom (maxHeight - 1) 1 rnd

/-- Change a node's value. -/
def setVal (s : SkipList K V) (a : ℕ) (val : V) : SkipList K V :=
  { s with nodes := s.nodes.modify a fun n => { n with val := val } }

/-- Put the node `new` behind the node that `update` has for each level, from level `i` on. -/
def linkAll (new : ℕ) : ℕ → List (Option ℕ) → SkipList K V → Option (SkipList K V)
  | _, [], s => some s
  | i, x :: update, s => do
    let old ← s.next x i
    linkAll new (i + 1) update ((s.setNext (some new) i old).setNext x i (some new))

/-- Make a node of the given height. -/
def alloc (s : SkipList K V) (key : K) (val : V) (level : ℕ) : SkipList K V :=
  { s with
    nodes := s.nodes ++ [⟨key, val, List.replicate level none⟩]
    height := if s.height < level then level else s.height
    length := s.length + 1 }

/-- Where a node is linked on each level up to its height: on those that were not in use, behind the
head. -/
def updateFor (s : SkipList K V) (level : ℕ) (update : List (Option ℕ)) : List (Option ℕ) :=
  (if s.height < level then update ++ List.replicate (level - s.height) none else update).take level

/-- Make a node and link it. -/
def insertNode (s : SkipList K V) (key : K) (val : V) (level : ℕ) (update : List (Option ℕ)) :
    Option (SkipList K V) :=
  linkAll s.nodes.length 0 (s.updateFor level update) (s.alloc key val level)

/-- Give a key a value, and return the one it had. -/
def put [LinearOrder K] (s : SkipList K V) (key : K) (val : V) :
    Option (SkipList K V × Option V) := do
  let (x, update) ← s.descend key s.height none
  match ← s.existing x key with
  | some (a, old) => return (s.setVal a val, some old)
  | none =>
    let (level, rnd) := randomLevel s.head.length s.rnd
    let s ← { s with rnd := rnd }.insertNode key val level update
    return (s, none)

theorem randomLevelFrom_bounds (more level : ℕ) (rnd : Stream' Bool) :
    level ≤ (randomLevelFrom more level rnd).1 ∧
    (randomLevelFrom more level rnd).1 ≤ level + more := by
  induction more generalizing level rnd with
  | zero => exact ⟨le_rfl, le_rfl⟩
  | succ more ih =>
    rw [randomLevelFrom]
    split_ifs
    · have := ih (level + 1) rnd.tail
      omega
    · exact ⟨le_rfl, Nat.le_add_right level _⟩

theorem randomLevel_bounds {maxHeight : ℕ} (h : 0 < maxHeight) (rnd : Stream' Bool) :
    0 < (randomLevel maxHeight rnd).1 ∧ (randomLevel maxHeight rnd).1 ≤ maxHeight := by
  have := randomLevelFrom_bounds (maxHeight - 1) 1 rnd
  unfold randomLevel
  omega

/-- Every height can be tossed, whatever comes after it: the coins stand for every sequence of
heights. -/
theorem exists_randomLevel {maxHeight level : ℕ} (hpos : 0 < level) (hle : level ≤ maxHeight)
    (rest : Stream' Bool) : ∃ rnd, randomLevel maxHeight rnd = (level, rest) := by
  have hfrom : ∀ more start, start ≤ level → level ≤ start + more →
      ∃ rnd, randomLevelFrom more start rnd = (level, rest) := by
    intro more
    induction more with
    | zero => exact fun start h₁ h₂ => ⟨rest, congrArg (·, rest) (by omega : start = level)⟩
    | succ more ih =>
      intro start h₁ h₂
      rcases h₁.eq_or_lt with rfl | hlt
      · exact ⟨Stream'.cons false rest, rfl⟩
      · obtain ⟨rnd, hrnd⟩ := ih (start + 1) hlt (by omega)
        exact ⟨Stream'.cons true rnd, hrnd⟩
  exact hfrom (maxHeight - 1) 1 hpos (by omega)

/-! ## Changing a pointer -/

section

variable (s : SkipList K V) (x y : Option ℕ) (i j : ℕ) (v : Option ℕ)

theorem next_setNext : (s.setNext x i v).next y j =
    if y = x ∧ j = i then (s.next y j).map (fun _ => v) else s.next y j := by
  cases x with
  | none =>
    cases y with
    | none =>
      simp only [setNext, next, List.getElem?_set]
      grind
    | some b => rfl
  | some a =>
    cases y with
    | none => rfl
    | some b =>
      simp only [setNext, next, List.getElem?_modify]
      by_cases hab : a = b
      · subst hab
        cases s.nodes[a]? with
        | none => simp
        | some n =>
          simp only [if_true, Option.bind_some]
          grind
      · have hba : (some b : Option ℕ) ≠ some a := fun h => hab (Option.some.inj h).symm
        simp [hab, hba]

@[simp] theorem pair_setNext : (s.setNext x i v).pair = s.pair := by
  funext b
  cases x with
  | none => rfl
  | some a =>
    simp only [setNext, pair, List.getElem?_modify]
    cases s.nodes[b]? with
    | none => rfl
    | some n => split_ifs <;> rfl

@[simp] theorem length_nodes_setNext : (s.setNext x i v).nodes.length = s.nodes.length := by
  cases x <;> simp [setNext]

@[simp] theorem length_head_setNext : (s.setNext x i v).head.length = s.head.length := by
  cases x <;> simp [setNext]

@[simp] theorem height_setNext : (s.setNext x i v).height = s.height := by cases x <;> rfl

@[simp] theorem length_setNext : (s.setNext x i v).length = s.length := by cases x <;> rfl

end

/-! ## Linking a node -/

/-- On the levels from `i` to `k`, `new` has been put behind `p`, and nothing else has changed. -/
structure Spliced (s s' : SkipList K V) (new : ℕ) (p : ℕ → Option ℕ) (i k : ℕ) : Prop where
  pair : s'.pair = s.pair
  nodes : s'.nodes.length = s.nodes.length
  head : s'.head.length = s.head.length
  height : s'.height = s.height
  length : s'.length = s.length
  last : ∀ j, i ≤ j → j < k → s'.next (p j) j = some (some new)
  next : ∀ j, i ≤ j → j < k → s'.next (some new) j = s.next (p j) j
  frame : ∀ y j, (i ≤ j → j < k → y ≠ p j ∧ y ≠ some new) → s'.next y j = s.next y j

theorem linkAll_spliced {new n i : ℕ} {p : ℕ → Option ℕ} {s : SkipList K V}
    (hp : ∀ j, i ≤ j → j < i + n →
      p j ≠ some new ∧ (s.next (p j) j).isSome ∧ (s.next (some new) j).isSome) :
    ∃ s', linkAll new i ((List.range' i n).map p) s = some s' ∧ Spliced s s' new p i (i + n) := by
  induction n generalizing i s with
  | zero =>
    exact ⟨s, rfl, rfl, rfl, rfl, rfl, rfl,
      fun j hi hj => by omega, fun j hi hj => by omega, fun _ _ _ => rfl⟩
  | succ n ih =>
    obtain ⟨hne, hslot, hnew⟩ := hp i le_rfl (by omega)
    obtain ⟨old, hold⟩ := Option.isSome_iff_exists.mp hslot
    obtain ⟨old', hold'⟩ := Option.isSome_iff_exists.mp hnew
    let t := (s.setNext (some new) i old).setNext (p i) i (some new)
    have ht : ∀ y j, t.next y j = if y = p i ∧ j = i then some (some new)
        else if y = some new ∧ j = i then some old else s.next y j := by
      intro y j
      simp only [t, next_setNext]
      split_ifs with h₁ h₂ h₃
      · exact absurd (h₁.1.symm.trans h₂.1) hne
      · rw [h₁.1, h₁.2, hold, Option.map_some]
      · rw [h₃.1, h₃.2, hold', Option.map_some]
      · rfl
    have hother : ∀ y j, i < j → t.next y j = s.next y j := fun y j hij => by
      rw [ht, if_neg fun h => hij.ne' h.2, if_neg fun h => hij.ne' h.2]
    obtain ⟨s', hlink, hs'⟩ := ih (i := i + 1) (s := t) fun j hij hj => by
      rw [hother _ j hij, hother _ j hij]
      exact hp j (by omega) (by omega)
    refine ⟨s', ?_, ?_⟩
    · rw [List.range'_succ, List.map_cons, linkAll, hold]
      exact hlink
    · rw [Nat.add_right_comm] at hs'
      have hfirst : ∀ y, s'.next y i = t.next y i := fun y => hs'.frame y i fun h => by omega
      refine ⟨hs'.pair.trans (by simp [t]), hs'.nodes.trans (by simp [t]),
        hs'.head.trans (by simp [t]), hs'.height.trans (by simp [t]),
          hs'.length.trans (by simp [t]), fun j hij hj => ?_,
        fun j hij hj => ?_, fun y j h => ?_⟩
      · rcases hij.eq_or_lt with rfl | hlt
        · rw [hfirst, ht, if_pos ⟨rfl, rfl⟩]
        · exact hs'.last j hlt hj
      · rcases hij.eq_or_lt with rfl | hlt
        · rw [hfirst, ht, if_neg fun h => hne h.1.symm, if_pos ⟨rfl, rfl⟩, hold]
        · rw [hs'.next j hlt hj, hother _ j hlt]
      · rw [hs'.frame y j fun hij hj => h (by omega) hj, ht]
        by_cases hj : j = i
        · subst hj
          obtain ⟨h₁, h₂⟩ := h le_rfl (by omega)
          rw [if_neg fun h => h₁ h.1, if_neg fun h => h₂ h.1]
        · rw [if_neg fun h => hj h.2, if_neg fun h => hj h.2]

/-- A new node with the pair stands behind `p` on the levels below its height, and nothing else has
changed. -/
structure Inserted (s s' : SkipList K V) (key : K) (val : V) (level : ℕ) (p : ℕ → Option ℕ) :
    Prop where
  pairOld : ∀ a < s.nodes.length, s'.pair a = s.pair a
  pairNew : s'.pair s.nodes.length = some (key, val)
  nodes : s'.nodes.length = s.nodes.length + 1
  head : s'.head.length = s.head.length
  height : s'.height = if s.height < level then level else s.height
  length : s'.length = s.length + 1
  last : ∀ j < level, s'.next (p j) j = some (some s.nodes.length)
  next : ∀ j < level, s'.next (some s.nodes.length) j = s.next (p j) j
  frame : ∀ y j, (∀ a, y = some a → a < s.nodes.length) → (j < level → y ≠ p j) →
    s'.next y j = s.next y j

theorem next_alloc {s : SkipList K V} {y : Option ℕ}
    (hy : ∀ a, y = some a → a < s.nodes.length) (key : K) (val : V) (level j : ℕ) :
    (s.alloc key val level).next y j = s.next y j := by
  cases y with
  | none => rfl
  | some b => simp [alloc, next, List.getElem?_append_left (hy b rfl)]

theorem insertNode_inserted {s : SkipList K V} {level : ℕ} {update : List (Option ℕ)}
    {p : ℕ → Option ℕ} (key : K) (val : V)
    (hupdate : s.updateFor level update = (List.range level).map p)
    (hp : ∀ j < level, ∀ a, p j = some a → a < s.nodes.length)
    (hslot : ∀ j < level, (s.next (p j) j).isSome) :
    ∃ s', s.insertNode key val level update = some s' ∧ Inserted s s' key val level p := by
  have hne : ∀ y : Option ℕ, (∀ a, y = some a → a < s.nodes.length) → y ≠ some s.nodes.length :=
    fun y hy heq => (hy _ heq).false
  have hnew : ∀ j < level, (s.alloc key val level).next (some s.nodes.length) j = some none := by
    intro j hj
    simp [alloc, SkipList.next, hj]
  have hready : ∀ j, 0 ≤ j → j < 0 + level → p j ≠ some s.nodes.length ∧
      ((s.alloc key val level).next (p j) j).isSome ∧
        ((s.alloc key val level).next (some s.nodes.length) j).isSome := by
    intro j _ hj
    rw [Nat.zero_add] at hj
    rw [next_alloc (hp j hj), hnew j hj]
    exact ⟨hne _ (hp j hj), hslot j hj, rfl⟩
  obtain ⟨s', hlink, hs'⟩ := linkAll_spliced hready
  rw [Nat.zero_add] at hs'
  rw [← List.range_eq_range', ← hupdate] at hlink
  refine ⟨s', hlink, ?_, ?_, ?_, hs'.head, hs'.height, hs'.length, fun j hj =>
    hs'.last j (Nat.zero_le j) hj, ?_, ?_⟩
  · intro a ha
    rw [hs'.pair]
    simp [alloc, SkipList.pair, List.getElem?_append_left ha]
  · rw [hs'.pair]
    simp [alloc, SkipList.pair]
  · rw [hs'.nodes]
    simp [alloc]
  · intro j hj
    rw [hs'.next j (Nat.zero_le j) hj, next_alloc (hp j hj)]
  · intro y j hy hyp
    rw [hs'.frame y j fun _ hj => ⟨hyp hj, hne y hy⟩, next_alloc hy]

/-! ## The map after a write -/

/-- In a list that a condition cuts in two, the first part is what satisfies it. -/
theorem takeWhile_dropWhile_eq_filter {α : Type} {p : α → Bool} {l : List α}
    (h : l.Pairwise fun a b => p b → p a) :
    l.takeWhile p = l.filter p ∧ l.dropWhile p = l.filter fun a => !p a := by
  induction l with
  | nil => exact ⟨rfl, rfl⟩
  | cons a l ih =>
    obtain ⟨ha, hl⟩ := List.pairwise_cons.mp h
    obtain ⟨htake, hdrop⟩ := ih hl
    by_cases hpa : p a
    · simp [hpa, htake, hdrop]
    · have hnone : ∀ b ∈ l, ¬p b := fun b hb hpb => hpa (ha b hb hpb)
      rw [List.takeWhile_cons_of_neg hpa, List.dropWhile_cons_of_neg hpa,
        List.filter_cons_of_neg hpa, List.filter_eq_nil_iff.mpr hnone,
          List.filter_cons_of_pos (by simpa using hpa),
        List.filter_eq_self.mpr fun b hb => by simpa using hnone b hb]
      exact ⟨rfl, rfl⟩

namespace Rep

variable [LinearOrder K] {s : SkipList K V} {ch : ℕ → List ℕ} {m : SortedMap K V} {key : K}

/-- A level with a node put behind its last smaller key. -/
def spliced (s : SkipList K V) (key : K) (new : ℕ) (l : List ℕ) : List ℕ :=
  l.takeWhile (s.below key) ++ new :: l.dropWhile (s.below key)

theorem spliced_sublist (h : Rep s ch m) (key : K) (new i : ℕ) :
    (spliced s key new (ch (i + 1))).Sublist (spliced s key new (ch i)) := by
  have hcut : ∀ j, (ch j).Pairwise fun a b => s.below key b → s.below key a := by
    intro j
    refine List.Pairwise.imp_of_mem ?_ (h.sorted j)
    intro a b ha hb hab hbelow
    obtain ⟨p, -, hp⟩ := h.pair_of_mem ha
    obtain ⟨q, -, hq⟩ := h.pair_of_mem hb
    have hqk : q.1 < key := by simpa [below, hq] using hbelow
    simpa [below, hp] using (hab p hp q hq).trans hqk
  obtain ⟨htake, hdrop⟩ := takeWhile_dropWhile_eq_filter (hcut i)
  obtain ⟨htake', hdrop'⟩ := takeWhile_dropWhile_eq_filter (hcut (i + 1))
  unfold spliced
  rw [htake, hdrop, htake', hdrop']
  exact ((h.sub i).filter _).append (((h.sub i).filter _).cons_cons new)

theorem sublist_spliced (s : SkipList K V) (key : K) (new : ℕ) (l : List ℕ) :
    l.Sublist (spliced s key new l) := by
  conv_lhs => rw [← List.takeWhile_append_dropWhile (p := s.below key) (l := l)]
  exact (List.Sublist.refl _).append (List.sublist_cons_self _ _)

theorem length_spliced (s : SkipList K V) (key : K) (new : ℕ) (l : List ℕ) :
    (spliced s key new l).length = l.length + 1 := by
  have hlen := congrArg List.length (List.takeWhile_append_dropWhile (p := s.below key) (l := l))
  rw [List.length_append] at hlen
  rw [spliced, List.length_append, List.length_cons]
  omega

/-- A value is changed in place. -/
theorem setVal (h : Rep s ch m) {a : ℕ} {l : List ℕ} {old : V}
    (hdrop : (ch 0).dropWhile (s.below key) = a :: l) (ha : s.pair a = some (key, old)) (val : V) :
    Rep (s.setVal a val) ch (m.insert key val) := by
  have hnext : ∀ y j, (s.setVal a val).next y j = s.next y j := by
    intro y j
    cases y with
    | none => rfl
    | some b =>
      simp only [SkipList.setVal, next, List.getElem?_modify]
      cases s.nodes[b]? with
      | none => rfl
      | some n => split_ifs <;> rfl
  have hpair : ∀ b, (s.setVal a val).pair b = if b = a then some (key, val) else s.pair b := by
    intro b
    simp only [SkipList.setVal, pair, List.getElem?_modify]
    by_cases hba : b = a
    · subst hba
      obtain ⟨n, hn, hn'⟩ := Option.map_eq_some_iff.mp ha
      simp [hn, (Prod.mk.inj hn').1]
    · simp [hba, Ne.symm hba]
  refine ⟨fun i hi => (h.linked i hi).congr (hnext _ _) fun b _ =>
    hnext _ _, h.sub, h.high, h.height_pos, h.height_le, ?_,
      (List.length_modify ..).trans h.count, h.length⟩
  have hsplit := List.takeWhile_append_dropWhile (p := s.below key) (l := ch 0)
  obtain ⟨htakeE, hdropE⟩ := h.split key
  rw [hdrop] at hsplit hdropE
  have hnodup := h.nodup 0
  rw [← hsplit] at hnodup
  obtain ⟨-, hright, hdisj⟩ := List.nodup_append.mp hnodup
  cases hE : m.entries.dropWhile (fun a => decide (a.1 < key)) with
  | nil => exact absurd (hE ▸ hdropE) (List.cons_ne_nil _ _)
  | cons b E =>
    rw [hE, List.map_cons, List.map_cons, ha] at hdropE
    obtain ⟨hb, hE'⟩ := List.cons.inj hdropE
    rw [← Option.some.inj hb] at hE
    have hothers : ∀ l' : List ℕ, a ∉ l' → l'.map (s.setVal a val).pair = l'.map s.pair :=
      fun l' hl' =>
      List.map_congr_left fun b hb => by
        have hne : b ≠ a := fun heq => hl' (heq ▸ hb)
        rw [hpair, if_neg hne]
    rw [SortedMap.entries_insert_of_dropWhile hE, ← hsplit, List.map_append,
      List.map_append, ← htakeE, List.map_cons, List.map_cons, ← hE', hpair, if_pos rfl,
        hothers l (List.nodup_cons.mp hright).1,
      hothers _ fun hmem => hdisj a hmem a List.mem_cons_self rfl]

/-- On the levels above those in use a node is linked behind the head, which is where the search
would have left them. -/
theorem updateFor_eq (h : Rep s ch m) (key : K) (level : ℕ) :
    s.updateFor level ((List.range s.height).map fun j => s.pred key (ch j)) =
      (List.range level).map fun j => s.pred key (ch j) := by
  have hhigh : ∀ j, s.height ≤ j → s.pred key (ch j) = none := fun j hj => by
    rw [pred, h.high j hj]; rfl
  apply List.ext_getElem?
  intro j
  by_cases hj : j < level
  · grind [updateFor]
  · grind [updateFor]

/-- A node is linked on the levels below its height. -/
theorem insertNode (h : Rep s ch m) (hkey : m.get key = none) (val : V) {level : ℕ}
    (hpos : 0 < level) (hle : level ≤ s.head.length) :
    ∃ s' ch', s.insertNode key val level ((List.range s.height).map fun j => s.pred key (ch j)) =
      some s' ∧ s'.head.length = s.head.length ∧ Rep s' ch' (m.insert key val) := by
  have hpred : ∀ j a, s.pred key (ch j) = some a → a < s.nodes.length := fun j a ha =>
    h.node_of_mem (pred_mem ha).1
  obtain ⟨s', hins, hs'⟩ :=
    insertNode_inserted key val (h.updateFor_eq key level) (fun j _ => hpred j) fun j hj => by
      rw [h.next_pred (hj.trans_le hle)]; rfl
  refine ⟨s', fun i => if i < level then spliced s key s.nodes.length (ch i) else ch i, hins,
    hs'.head, ?_⟩
  have hnode : ∀ i, ∀ a ∈ ch i, ∀ b, some a = some b → b < s.nodes.length := fun i a ha b hb =>
    Option.some.inj hb ▸ h.node_of_mem ha
  refine ⟨?_, ?_, ?_, ?_, ?_, ?_, ?_, ?_⟩
  · intro i hi
    rw [hs'.head] at hi
    have hlinked := h.linked i hi
    split_ifs with hlevel
    · have hsplit := List.takeWhile_append_dropWhile (p := s.below key) (l := ch i)
      refine Linked.insert (hsplit.symm ▸ hlinked) (hsplit.symm ▸ h.nodup i) (fun a _ => nofun)
        (hs'.last i hlevel) (hs'.next i hlevel) (fun hne => hs'.frame none i nofun fun _ => hne) ?_
      rw [hsplit]
      exact fun a ha hne => hs'.frame (some a) i (hnode i a ha) fun _ => hne
    · exact hlinked.congr (hs'.frame none i nofun fun hlt => absurd hlt hlevel) fun a ha =>
        hs'.frame (some a) i (hnode i a ha) fun hlt => absurd hlt hlevel
  · intro i
    have hsub := h.sub i
    split_ifs with hi hi' hi'
    · exact h.spliced_sublist key _ i
    · omega
    · exact hsub.trans (sublist_spliced s key _ (ch i))
    · exact hsub
  · intro i hi
    rw [hs'.height] at hi
    rw [if_neg (by split_ifs at hi <;> omega)]
    exact h.high i (by split_ifs at hi <;> omega)
  · rw [hs'.height]
    split_ifs
    · exact hpos
    · exact h.height_pos
  · rw [hs'.height, hs'.head]
    split_ifs
    · exact hle
    · exact h.height_le
  · have hold : ∀ l : List ℕ, (∀ a ∈ l, a ∈ ch 0) → l.map s'.pair = l.map s.pair := fun l hl =>
      List.map_congr_left fun a ha => hs'.pairOld a (h.node_of_mem (hl a ha))
    obtain ⟨htake, hdrop⟩ := h.split key
    rw [if_pos hpos, SortedMap.entries_insert_of_none hkey, spliced, List.map_append, List.map_cons,
      hs'.pairNew, hold _ fun a ha => (List.takeWhile_sublist _).subset ha,
      hold _ fun a ha => (List.dropWhile_sublist _).subset ha, htake, hdrop, List.map_append,
        List.map_cons]
  · rw [hs'.nodes, if_pos hpos, length_spliced, h.count]
  · rw [hs'.length, if_pos hpos, length_spliced, h.length]

/-- `put` gives the key its value in the map and returns the one it had. -/
theorem put (h : Rep s ch m) (key : K) (val : V) : ∃ s' ch',
    s.put key val = some (s', m.get key) ∧ s'.head.length = s.head.length ∧
      Rep s' ch' (m.insert key val) := by
  rw [SkipList.put, h.descend_height]
  simp only [Option.bind_eq_bind, Option.bind_some]
  rcases h.existing key with ⟨a, l, old, hdrop, ha, hget, hex⟩ | ⟨hget, hex⟩
  · exact ⟨s.setVal a val, ch, by rw [hex, hget]; rfl, rfl, h.setVal hdrop ha val⟩
  · obtain ⟨hpos, hle⟩ := randomLevel_bounds h.head_pos s.rnd
    have hrnd : Rep { s with rnd := (randomLevel s.head.length s.rnd).2 } ch m :=
      ⟨fun i hi => (h.linked i hi).congr rfl fun _ _ =>
        rfl, h.sub, h.high, h.height_pos, h.height_le, h.pairs, h.count, h.length⟩
    obtain ⟨s', ch', hins, hhead, hrep⟩ := hrnd.insertNode hget val hpos hle
    refine ⟨s', ch', ?_, hhead, hrep⟩
    rw [hex, hget]
    simp only [Option.bind_some]
    exact hins ▸ rfl

end Rep

end SkipList

end KvStore
