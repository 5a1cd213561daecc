import Mathlib

/-!
# Overlays of partial maps

A *layer* gives values to some keys. Layers are read from the top down: `atop p q` answers with `p`
where `p` has a value and with `q` elsewhere, and `stack ps` reads a list of layers, the topmost
first.

Reading is idempotent in a strong sense, and everything a layered store relies on when a layer is in
two places at once follows from it:

* `atop_absorb`: a layer below a copy of itself does not matter, whatever is in between.
* `stack_atop_of_prefix`: repeating the topmost layers of a stack above it changes nothing.
* `atop_eq_left`: a layer whose keys the layer above has does not matter.
-/

namespace KvStore.Layered

variable {K V : Type*}

/-- A partial map. -/
abbrev Layer (K V : Type*) := K → Option V

/-- `p`, and `q` where `p` has nothing. -/
def atop (p q : Layer K V) : Layer K V := fun k => (p k).or (q k)

/-- The layer with nothing in it. -/
def void : Layer K V := fun _ => none

/-- The layers from the top down. -/
def stack (ps : List (Layer K V)) : Layer K V := ps.foldr atop void

@[simp] theorem void_atop (p : Layer K V) : atop void p = p := rfl

@[simp] theorem atop_void (p : Layer K V) : atop p void = p := by
  funext k
  cases h : p k <;> simp [atop, void, h]

theorem atop_assoc (p q r : Layer K V) : atop (atop p q) r = atop p (atop q r) := by
  funext k
  cases h : p k <;> simp [atop, h]

/-- **A layer below a copy of itself does not matter.** -/
theorem atop_absorb (p q r : Layer K V) : atop p (atop q (atop p r)) = atop p (atop q r) := by
  funext k
  cases h : p k <;> simp [atop, h]

theorem atop_self_atop (p r : Layer K V) : atop p (atop p r) = atop p r := atop_absorb p void r

@[simp] theorem stack_nil : stack ([] : List (Layer K V)) = void := rfl

@[simp] theorem stack_cons (p : Layer K V) (ps : List (Layer K V)) :
    stack (p :: ps) = atop p (stack ps) := rfl

theorem stack_append (ps qs : List (Layer K V)) :
    stack (ps ++ qs) = atop (stack ps) (stack qs) := by
  induction ps with
  | nil => rfl
  | cons p ps ih => rw [List.cons_append, stack_cons, stack_cons, ih, atop_assoc]

/-- Repeating the topmost layers changes nothing. -/
theorem stack_atop_of_prefix {ps qs : List (Layer K V)} (h : ps <+: qs) :
    atop (stack ps) (stack qs) = stack qs := by
  obtain ⟨rs, rfl⟩ := h
  rw [stack_append, atop_self_atop]

/-! ## Layers that cover others -/

/-- `p` has a value wherever `q` has one. -/
def Covers (p q : Layer K V) : Prop := ∀ k, q k ≠ none → p k ≠ none

/-- What a layer covers does not matter below it. -/
theorem atop_eq_left {p q : Layer K V} (h : Covers p q) : atop p q = p := by
  funext k
  cases hp : p k with
  | none =>
    have hq : q k = none := by
      by_contra hne
      exact h k hne hp
    simp [atop, hp, hq]
  | some v => simp [atop, hp]

theorem covers_atop_left (p q : Layer K V) : Covers (atop p q) p := by
  intro k hk
  cases h : p k with
  | none => exact absurd h hk
  | some v => simp [atop, h]

theorem Covers.atop_right {p q : Layer K V} (h : Covers p q) (r : Layer K V) :
    Covers (atop r p) q := by
  intro k hk
  have hp := h k hk
  cases hr : r k with
  | none => simpa [atop, hr] using hp
  | some v => simp [atop, hr]

/-- A stack covers what is further down in it. -/
theorem covers_stack_of_suffix {ps qs : List (Layer K V)} (h : ps <:+ qs) :
    Covers (stack qs) (stack ps) := by
  obtain ⟨rs, rfl⟩ := h
  rw [stack_append]
  exact Covers.atop_right (fun k hk => hk) _

/-- `q` agrees with `p` wherever it has a value. -/
def Agrees (p q : Layer K V) : Prop := ∀ k, q k = none ∨ q k = p k

/-- A layer on top that says nothing new does not matter. -/
theorem atop_eq_right {p q : Layer K V} (h : Agrees p q) : atop q p = p := by
  funext k
  rcases h k with hq | hq
  · simp [atop, hq]
  · cases hp : p k <;> simp [atop, hq, hp]

end KvStore.Layered
