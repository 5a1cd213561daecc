import Mathlib

/-!
# Majorities and logs written term by term

Two facts every leader-based replication protocol rests on, over arbitrary node and entry types.

* `Majority M Q`: `Q` is more than half of the members `M`. Two majorities meet
  (`Majority.inter`).
* A *history* `h : ℕ → List E` gives, for every term, the log the leader of that term wrote.
  `Canon τ h l` says that `l` was written by those leaders: every nonempty prefix of `l` is a
  prefix of the history of its own last term. Log matching is then immediate (`Canon.take_eq`):
  two canonical logs with the same term at an index are equal up to that index.

`termAt τ l i` is the term at the one-based index `i`, and `0` at index `0`.
-/

namespace KvStore.Consensus

/-! ## Majorities -/

section Majority

variable {N : Type*} [DecidableEq N]

/-- `Q` is more than half of the members `M`. -/
def Majority (M Q : Finset N) : Prop := Q ⊆ M ∧ M.card < 2 * Q.card

instance (M Q : Finset N) : Decidable (Majority M Q) := inferInstanceAs (Decidable (_ ∧ _))

/-- **Two majorities meet.** -/
theorem Majority.inter {M P Q : Finset N} (hP : Majority M P) (hQ : Majority M Q) :
    ∃ x, x ∈ P ∧ x ∈ Q := by
  by_contra hno
  push Not at hno
  have hdis : Disjoint P Q := Finset.disjoint_left.mpr hno
  have hcard : (P ∪ Q).card = P.card + Q.card := Finset.card_union_of_disjoint hdis
  have hle : (P ∪ Q).card ≤ M.card := Finset.card_le_card (Finset.union_subset hP.1 hQ.1)
  have h1 := hP.2
  have h2 := hQ.2
  omega

end Majority

/-! ## Terms of a log -/

variable {E : Type*} (τ : E → ℕ)

/-- The term of the last entry, `0` for the empty log. -/
def lastTerm (l : List E) : ℕ := (l.getLast?.map τ).getD 0

/-- The term at the one-based index `i`, `0` at index `0`. -/
def termAt (l : List E) (i : ℕ) : ℕ := lastTerm τ (l.take i)

@[simp] theorem lastTerm_nil : lastTerm τ [] = 0 := rfl

@[simp] theorem lastTerm_concat (l : List E) (e : E) : lastTerm τ (l ++ [e]) = τ e := by
  simp [lastTerm]

theorem lastTerm_append_of_ne_nil (l : List E) {l' : List E} (h : l' ≠ []) :
    lastTerm τ (l ++ l') = lastTerm τ l' := by
  unfold lastTerm
  rw [List.getLast?_append_of_ne_nil _ h]

@[simp] theorem termAt_zero (l : List E) : termAt τ l 0 = 0 := rfl

theorem termAt_length (l : List E) : termAt τ l l.length = lastTerm τ l := by
  rw [termAt, List.take_length]

/-- The last term is the term of an entry of the log. -/
theorem exists_mem_lastTerm {l : List E} (h : l ≠ []) : ∃ e ∈ l, τ e = lastTerm τ l := by
  refine ⟨l.getLast h, List.getLast_mem h, ?_⟩
  simp [lastTerm, List.getLast?_eq_getLast_of_ne_nil h]

theorem termAt_eq_getElem {l : List E} {i : ℕ} (h : i < l.length) :
    termAt τ l (i + 1) = τ l[i] := by
  rw [termAt, List.take_succ_eq_append_getElem h, lastTerm_concat]

/-- A prefix has the terms of the whole log. -/
theorem termAt_of_isPrefix {l l' : List E} (h : l <+: l') {i : ℕ} (hi : i ≤ l.length) :
    termAt τ l i = termAt τ l' i := by
  obtain ⟨s, rfl⟩ := h
  rw [termAt, termAt, List.take_append_of_le_length hi]

theorem termAt_take {l : List E} {i n : ℕ} (hi : i ≤ n) : termAt τ (l.take n) i = termAt τ l i := by
  rw [termAt, termAt, List.take_take, min_eq_left hi]

theorem termAt_le {l : List E} {t : ℕ} (h : ∀ e ∈ l, τ e ≤ t) (i : ℕ) : termAt τ l i ≤ t := by
  rw [termAt]
  by_cases hne : l.take i = []
  · rw [hne]; exact Nat.zero_le _
  · obtain ⟨e, he, hte⟩ := exists_mem_lastTerm τ hne
    rw [← hte]
    exact h e (List.mem_of_mem_take he)

/-! ## Prefixes -/

/-- Two prefixes of one list are comparable. -/
theorem prefix_of_length_le {a b l : List E} (ha : a <+: l) (hb : b <+: l)
    (h : a.length ≤ b.length) : a <+: b := by
  rcases List.prefix_or_prefix_of_prefix ha hb with h' | h'
  · exact h'
  · have := h'.length_le
    rw [h'.eq_of_length (by omega)]

/-- Two prefixes of one list with one length are equal. -/
theorem prefix_eq_of_length_eq {a b l : List E} (ha : a <+: l) (hb : b <+: l)
    (h : a.length = b.length) : a = b :=
  (prefix_of_length_le ha hb h.le).eq_of_length h

theorem take_eq_of_isPrefix {l l' : List E} (h : l <+: l') {n : ℕ} (hn : n ≤ l.length) :
    l'.take n = l.take n := by
  obtain ⟨s, rfl⟩ := h
  exact List.take_append_of_le_length hn

/-! ## Canonical logs -/

/-- `l` was written by the leaders of the history `h`: every nonempty prefix of `l` is a prefix of
the history of its own last term. -/
def Canon (h : ℕ → List E) (l : List E) : Prop :=
  ∀ p, p <+: l → p ≠ [] → p <+: h (lastTerm τ p)

variable {τ} {h : ℕ → List E} {l l' : List E}

theorem canon_nil : Canon τ h [] := fun _ hp hne => absurd (List.prefix_nil.mp hp) hne

theorem Canon.of_isPrefix (hl : Canon τ h l) (hp : l' <+: l) : Canon τ h l' :=
  fun p hpl hne => hl p (hpl.trans hp) hne

/-- A nonempty canonical log is a prefix of the history of its last term. -/
theorem Canon.prefix_last (hl : Canon τ h l) (hne : l ≠ []) : l <+: h (lastTerm τ l) :=
  hl l List.prefix_rfl hne

/-- **Log matching**: canonical logs with one term at an index agree up to that index. -/
theorem Canon.take_eq (hl : Canon τ h l) (hl' : Canon τ h l') {i : ℕ} (hi : i ≤ l.length)
    (hi' : i ≤ l'.length) (ht : termAt τ l i = termAt τ l' i) : l.take i = l'.take i := by
  rcases Nat.eq_zero_or_pos i with rfl | hpos
  · simp
  have hne : l.take i ≠ [] := by
    intro hnil
    have := congrArg List.length hnil
    rw [List.length_take, List.length_nil] at this
    omega
  have hne' : l'.take i ≠ [] := by
    intro hnil
    have := congrArg List.length hnil
    rw [List.length_take, List.length_nil] at this
    omega
  have h1 := hl _ (List.take_prefix i l) hne
  have h2 := hl' _ (List.take_prefix i l') hne'
  rw [termAt, termAt] at ht
  rw [← ht] at h2
  apply prefix_eq_of_length_eq h1 h2
  rw [List.length_take, List.length_take]
  omega

/-- A longer history keeps a log canonical. -/
theorem Canon.mono {h' : ℕ → List E} (hl : Canon τ h l) (hh : ∀ t, h t <+: h' t) :
    Canon τ h' l :=
  fun p hp hne => (hl p hp hne).trans (hh _)

/-- In a canonical log the terms do not decrease, as long as no history runs past its term. -/
theorem Canon.lastTerm_mono (hl : Canon τ h l) (hle : ∀ t, ∀ e ∈ h t, τ e ≤ t) {p q : List E}
    (hpq : p <+: q) (hq : q <+: l) : lastTerm τ p ≤ lastTerm τ q := by
  by_cases hp : p = []
  · simp [hp]
  have hqne : q ≠ [] := by
    rintro rfl
    exact hp (List.prefix_nil.mp hpq)
  obtain ⟨e, he, hte⟩ := exists_mem_lastTerm τ hp
  rw [← hte]
  exact hle _ e ((hl q hq hqne).subset (hpq.subset he))

theorem Canon.termAt_mono (hl : Canon τ h l) (hle : ∀ t, ∀ e ∈ h t, τ e ≤ t) {i j : ℕ}
    (hij : i ≤ j) : termAt τ l i ≤ termAt τ l j :=
  hl.lastTerm_mono hle (List.take_prefix_take_left hij) (List.take_prefix j l)

end KvStore.Consensus
