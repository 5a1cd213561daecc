import Mathlib

/-!
# Binary search

`search n f` halves the interval in which the first place that satisfies `f` is.

* `search_spec`: if `f` stays true once it is, the places before the result do not satisfy it and
  those from it on do.
* `drop_search`: in a list, the search cuts where `dropWhile` does.
-/

namespace KvStore.Layered

/-- Halve the interval from `i` to `j`. -/
def searchFrom (f : ℕ → Bool) : ℕ → ℕ → ℕ → ℕ
  | 0, i, _ => i
  | fuel + 1, i, j =>
    if i < j then
      if !f ((i + j) / 2) then searchFrom f fuel ((i + j) / 2 + 1) j else
        searchFrom f fuel i ((i + j) / 2)
    else i

/-- The first place below `n` that satisfies `f`, or `n`. -/
def search (n : ℕ) (f : ℕ → Bool) : ℕ := searchFrom f n 0 n

/-- `r` divides the places below `n`: those before it do not satisfy `f`, and the others do. -/
structure Divides (n : ℕ) (f : ℕ → Bool) (r : ℕ) : Prop where
  le : r ≤ n
  before : ∀ k < r, f k = false
  after : ∀ k, r ≤ k → k < n → f k = true

variable {n : ℕ} {f : ℕ → Bool}

theorem searchFrom_spec (hmono : ∀ a b, a ≤ b → b < n → f a → f b) {fuel i j : ℕ} (hij : i ≤ j)
    (hj : j ≤ n) (hfuel : j - i ≤ fuel) (hlow : ∀ k < i, f k = false)
    (hhigh : ∀ k, j ≤ k → k < n → f k = true) : Divides n f (searchFrom f fuel i j) := by
  induction fuel generalizing i j with
  | zero =>
    obtain rfl : i = j := by omega
    exact ⟨hj, hlow, hhigh⟩
  | succ fuel ih =>
    rw [searchFrom]
    split_ifs with hlt hmid
    · refine ih (by omega) hj (by omega) (fun k hk => ?_) hhigh
      -- a place below the middle that satisfies `f` would make the middle satisfy it
      by_contra hfk
      have := hmono k ((i + j) / 2) (by omega) (by omega) (by simpa using hfk)
      simp [this] at hmid
    · refine ih (by omega) (by omega) (by omega) hlow fun k hk hkn => ?_
      exact hmono ((i + j) / 2) k hk hkn (by simpa using hmid)
    · obtain rfl : i = j := by omega
      exact ⟨hj, hlow, hhigh⟩

theorem search_spec (hmono : ∀ a b, a ≤ b → b < n → f a → f b) : Divides n f (search n f) :=
  searchFrom_spec hmono (Nat.zero_le n) le_rfl le_rfl (fun _ hk => absurd hk (Nat.not_lt_zero _))
    fun _ hk hkn => absurd hkn (Nat.not_lt.mpr hk)

/-- The search in a list for its first part that satisfies `p`, when those after it do too. -/
theorem drop_search {α : Type*} {l : List α} {p : α → Bool} (h : l.Pairwise fun a b => p a → p b) :
    l.drop (search l.length fun i => l[i]?.any p) = l.dropWhile fun a => !p a := by
  have hmono : ∀ a b, a ≤ b → b < l.length → l[a]?.any p → l[b]?.any p := by
    intro a b hab hb ha
    rcases hab.eq_or_lt with rfl | hlt
    · exact ha
    · have hpair := List.pairwise_iff_getElem.mp h a b (by omega) hb hlt
      simp only [List.getElem?_eq_getElem hb, List.getElem?_eq_getElem (hlt.trans hb),
        Option.any_some] at ha ⊢
      exact hpair ha
  obtain ⟨hle, hbefore, hafter⟩ := search_spec hmono
  generalize search l.length (fun i => l[i]?.any p) = r at hle hbefore hafter
  have htake : ∀ a ∈ l.take r, (!p a) = true := by
    intro a ha
    obtain ⟨k, hk, rfl⟩ := List.mem_take_iff_getElem.mp ha
    have := hbefore k (by omega)
    rw [List.getElem?_eq_getElem (by omega), Option.any_some] at this
    simp [this]
  conv_rhs => rw [← List.take_append_drop r l, List.dropWhile_append_of_pos htake]
  cases hd : l.drop r with
  | nil => rfl
  | cons a l' =>
    have ha : l[r]? = some a := by rw [← List.head?_drop, hd, List.head?_cons]
    have hr := hafter r le_rfl (List.getElem?_eq_some_iff.mp ha).1
    rw [ha, Option.any_some] at hr
    rw [List.dropWhile_cons_of_neg (by simp [hr])]

end KvStore.Layered
