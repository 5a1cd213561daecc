import Mathlib

/-!
# The order of use

`uses` lists what has been used, the last use first (`UsedAfter`). Things are in the order of their
use if each was used more recently than those that follow it. Putting what is used in front keeps a
list in this order, so that what is at its end was not used for the longest time.

* `Recent.touch`: what is used goes to the front.
* `Recent.skip`: using something else changes nothing.
* `Recent.lt_of_append`: what is cut off at the end was used less recently than what is kept.
-/

namespace KvStore.Cache

variable {K : Type*} [DecidableEq K] {uses l l' : List K}

/-- The last use of the first is after the last use of the second. -/
def UsedAfter (uses : List K) (a b : K) : Prop := uses.idxOf a < uses.idxOf b

/-- Each was used more recently than those that follow it. -/
def Recent (uses l : List K) : Prop := l.Pairwise (UsedAfter uses)

theorem recent_nil (uses : List K) : Recent uses [] := List.Pairwise.nil

/-- No place is there twice. -/
theorem Recent.nodup (h : Recent uses l) : l.Nodup := by
  refine List.Pairwise.imp (fun {a b} hlt heq => ?_) h
  rw [UsedAfter, heq] at hlt
  exact Nat.lt_irrefl _ hlt

theorem Recent.sublist (h : Recent uses l) (hsub : l'.Sublist l) : Recent uses l' :=
  List.Pairwise.sublist hsub h

/-- A use of something else. -/
theorem Recent.skip (h : Recent uses l) {k : K} (hk : k ∉ l) : Recent (k :: uses) l := by
  refine List.Pairwise.imp_of_mem (fun {a b} ha hb hlt => ?_) h
  rw [UsedAfter, List.idxOf_cons_ne _ fun heq : k = a => hk (heq ▸ ha),
    List.idxOf_cons_ne _ fun heq : k = b => hk (heq ▸ hb)]
  exact Nat.succ_lt_succ hlt

/-- What is used goes to the front. -/
theorem Recent.touch (h : Recent uses l) {k : K} (hk : k ∉ l) : Recent (k :: uses) (k :: l) := by
  refine List.pairwise_cons.mpr ⟨fun b hb => ?_, h.skip hk⟩
  rw [UsedAfter, List.idxOf_cons_self, List.idxOf_cons_ne _ fun heq : k = b => hk (heq ▸ hb)]
  exact Nat.succ_pos _

/-- What stands at the end was used less recently. -/
theorem Recent.lt_of_append (h : Recent uses (l ++ l')) {a b : K} (ha : a ∈ l) (hb : b ∈ l') :
    UsedAfter uses a b := (List.pairwise_append.mp h).2.2 a ha b hb

end KvStore.Cache
