import Mathlib

/-!
# Putting a list over the end of another

A replica that gets entries for the end of its log keeps its own entries as long as their keys agree
with the new ones, and takes over the new ones from the first disagreement on. `overwrite κ old new`
is what it ends up with.

* `overwrite_of_agrees`: lists whose keys agree are joined, and nothing is lost.
* `length_overwrite_of_not_agrees`: after a disagreement nothing of the old list is left beyond the
  new one.
* `overwrite_getElem?`: where the new list has an entry there is one with its key, the new one or
  the old one.
* `overwrite_idem`: the same list once more changes nothing.
-/

namespace KvStore.Consensus

variable {E T : Type*} [DecidableEq T] (κ : E → T)

/-- The entries of `old` while their keys are those of `new`, then what is left of `new`, or of
`old`. -/
def overwrite : List E → List E → List E
  | old, [] => old
  | [], e :: new => e :: new
  | o :: old, e :: new => if κ o = κ e then o :: overwrite old new else e :: new

/-- The keys agree wherever both lists have an entry. -/
def Agrees (old new : List E) : Prop :=
  ∀ (i : ℕ) (o e : E), old[i]? = some o → new[i]? = some e → κ o = κ e

variable {old new : List E}

omit [DecidableEq T] in
theorem agrees_cons {o e : E} : Agrees κ (o :: old) (e :: new) ↔ κ o = κ e ∧ Agrees κ old new := by
  constructor
  · intro h
    exact ⟨h 0 o e rfl rfl, fun i => h (i + 1)⟩
  · rintro ⟨hhead, htail⟩ (_ | i) o' e' ho he
    · obtain rfl := Option.some.inj ho
      obtain rfl := Option.some.inj he
      exact hhead
    · exact htail i o' e' ho he

@[simp] theorem overwrite_nil (old : List E) : overwrite κ old [] = old := by cases old <;> rfl

@[simp] theorem nil_overwrite (new : List E) : overwrite κ [] new = new := by cases new <;> rfl

/-- **Nothing is lost without a disagreement.** -/
theorem overwrite_of_agrees (h : Agrees κ old new) :
    overwrite κ old new = old ++ new.drop old.length := by
  induction old generalizing new with
  | nil => simp
  | cons o old ih =>
    cases new with
    | nil => simp
    | cons e new =>
      obtain ⟨hhead, htail⟩ := (agrees_cons κ).mp h
      rw [overwrite, if_pos hhead, ih htail]
      simp

/-- **A disagreement makes the new list's end the end.** -/
theorem length_overwrite_of_not_agrees (h : ¬Agrees κ old new) :
    (overwrite κ old new).length = new.length := by
  induction old generalizing new with
  | nil => simp
  | cons o old ih =>
    cases new with
    | nil => exact absurd (fun i o e _ he => by simp at he) h
    | cons e new =>
      rw [overwrite]
      split_ifs with hhead
      · have htail : ¬Agrees κ old new := fun htail => h ((agrees_cons κ).mpr ⟨hhead, htail⟩)
        rw [List.length_cons, ih htail, List.length_cons]
      · rfl

/-- Every entry is a new one or an old one. -/
theorem getElem?_overwrite {i : ℕ} {x : E} (h : (overwrite κ old new)[i]? = some x) :
    new[i]? = some x ∨ old[i]? = some x := by
  induction old generalizing new i with
  | nil => exact Or.inl (by rwa [nil_overwrite] at h)
  | cons o old ih =>
    cases new with
    | nil => exact Or.inr h
    | cons a new =>
      rw [overwrite] at h
      split_ifs at h
      · cases i with
        | zero => exact Or.inr h
        | succ i => exact ih h
      · exact Or.inl h

/-- The keys are those of the new list. -/
theorem overwrite_agrees : Agrees κ (overwrite κ old new) new := by
  induction old generalizing new with
  | nil =>
    intro i o e ho he
    rw [nil_overwrite, he] at ho
    rw [Option.some.inj ho]
  | cons o old ih =>
    cases new with
    | nil => exact fun i o e _ he => by simp at he
    | cons a new =>
      rw [overwrite]
      split_ifs with hhead
      · exact (agrees_cons κ).mpr ⟨hhead, ih⟩
      · intro i o' e ho he
        rw [he] at ho
        rw [Option.some.inj ho]

theorem length_le_overwrite (old new : List E) : new.length ≤ (overwrite κ old new).length := by
  by_cases h : Agrees κ old new
  · rw [overwrite_of_agrees κ h, List.length_append, List.length_drop]
    omega
  · rw [length_overwrite_of_not_agrees κ h]

/-- **Every entry of the new list is there**, or an old one with its key. -/
theorem overwrite_getElem? (old : List E) {i : ℕ} {e : E} (h : new[i]? = some e) :
    ∃ x, (overwrite κ old new)[i]? = some x ∧ κ x = κ e ∧ (x = e ∨ old[i]? = some x) := by
  obtain ⟨hi, -⟩ := List.getElem?_eq_some_iff.mp h
  have hx := List.getElem?_eq_getElem (hi.trans_le (length_le_overwrite κ old new))
  refine ⟨_, hx, overwrite_agrees κ i _ e hx h, (getElem?_overwrite κ hx).imp_left fun hnew => ?_⟩
  rw [h] at hnew
  exact (Option.some.inj hnew).symm

/-- **Once more changes nothing.** -/
theorem overwrite_idem : overwrite κ (overwrite κ old new) new = overwrite κ old new := by
  rw [overwrite_of_agrees κ (overwrite_agrees κ),
    List.drop_eq_nil_of_le (length_le_overwrite κ old new), List.append_nil]

end KvStore.Consensus
