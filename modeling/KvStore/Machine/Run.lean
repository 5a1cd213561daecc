import Mathlib

/-!
# Runs of a partial machine

A machine is a step function `step : σ → α → Option σ`: in a state it takes an action or refuses it.
`exec step s as` takes the actions one after another. A condition on the steps of a run is
`Along step P s as`: every action of the run is taken in a state where `P` allows it.

* `exec_induct`: what every allowed step keeps, every allowed run keeps.
* `exec_history`: the same, for what also speaks of the actions taken so far.
* `exec_simulates`: a simulation of single steps, by the steps of any transitive relation, is a
  simulation of runs.
* `foldlM_induct`, `foldlM_inv`: the same for a loop inside one step.
* `exec_project`: if a machine is another one with more state, its runs are runs of the other.
-/

namespace KvStore.Machine

variable {σ α ρ β : Type*}

section Exec

variable (step : σ → α → Option σ)

/-- Take the actions one after another. -/
def exec : σ → List α → Option σ
  | s, [] => some s
  | s, a :: as => (step s a).bind fun s' => exec s' as

/-- Every action of the run is taken in a state where `P` allows it. -/
def Along (P : σ → α → Prop) : σ → List α → Prop
  | _, [] => True
  | s, a :: as => P s a ∧ match step s a with
    | none => True
    | some s' => Along P s' as

end Exec

variable {step : σ → α → Option σ} {P : σ → α → Prop}

@[simp] theorem exec_nil (s : σ) : exec step s [] = some s := rfl

theorem exec_cons {s s' : σ} {a : α} {as : List α} :
    exec step s (a :: as) = some s' ↔ ∃ t, step s a = some t ∧ exec step t as = some s' := by
  simp [exec, Option.bind_eq_some_iff]

theorem exec_append {s s' : σ} {as bs : List α} :
    exec step s (as ++ bs) = some s' ↔
      ∃ t, exec step s as = some t ∧ exec step t bs = some s' := by
  induction as generalizing s with
  | nil => simp
  | cons a as ih =>
    rw [List.cons_append, exec_cons]
    constructor
    · rintro ⟨t, ht, h⟩
      obtain ⟨u, hu, h'⟩ := ih.mp h
      exact ⟨u, exec_cons.mpr ⟨t, ht, hu⟩, h'⟩
    · rintro ⟨u, hu, h'⟩
      obtain ⟨t, ht, hu⟩ := exec_cons.mp hu
      exact ⟨t, ht, ih.mpr ⟨u, hu, h'⟩⟩

theorem exec_singleton {s s' : σ} {a : α} : exec step s [a] = some s' ↔ step s a = some s' := by
  simp [exec_cons]

theorem along_cons {s : σ} {a : α} {as : List α} :
    Along step P s (a :: as) ↔ P s a ∧ ∀ s', step s a = some s' → Along step P s' as := by
  rw [Along]
  cases hs : step s a with
  | none => simp
  | some t => simp

theorem along_append {s t : σ} {as bs : List α} (h : exec step s as = some t) :
    Along step P s (as ++ bs) ↔ Along step P s as ∧ Along step P t bs := by
  induction as generalizing s with
  | nil =>
    obtain rfl := Option.some.inj h
    simp [Along]
  | cons a as ih =>
    obtain ⟨u, hu, h'⟩ := exec_cons.mp h
    rw [List.cons_append, along_cons, along_cons, and_assoc]
    refine and_congr_right fun _ => ?_
    constructor
    · intro hall
      obtain ⟨h1, h2⟩ := (ih h').mp (hall u hu)
      refine ⟨fun s' hs' => ?_, h2⟩
      rw [hu] at hs'
      obtain rfl := Option.some.inj hs'
      exact h1
    · rintro ⟨h1, h2⟩ s' hs'
      rw [hu] at hs'
      obtain rfl := Option.some.inj hs'
      exact (ih h').mpr ⟨h1 u hu, h2⟩

theorem along_of_all (h : ∀ s a, P s a) (s : σ) (as : List α) : Along step P s as := by
  induction as generalizing s with
  | nil => trivial
  | cons a as ih => exact along_cons.mpr ⟨h s a, fun s' _ => ih s'⟩

theorem along_of_imp {Q : σ → α → Prop} (hPQ : ∀ s a, P s a → Q s a) {s : σ} {as : List α}
    (h : Along step P s as) : Along step Q s as := by
  induction as generalizing s with
  | nil => trivial
  | cons a as ih =>
    obtain ⟨hP, h⟩ := along_cons.mp h
    exact along_cons.mpr ⟨hPQ s a hP, fun s' hs' => ih (h s' hs')⟩

theorem along_and {Q : σ → α → Prop} {s : σ} {as : List α} (hP : Along step P s as)
    (hQ : Along step Q s as) : Along step (fun s a => P s a ∧ Q s a) s as := by
  induction as generalizing s with
  | nil => trivial
  | cons a as ih =>
    obtain ⟨hPa, hP⟩ := along_cons.mp hP
    obtain ⟨hQa, hQ⟩ := along_cons.mp hQ
    exact along_cons.mpr ⟨⟨hPa, hQa⟩, fun s' hs' => ih (hP s' hs') (hQ s' hs')⟩

/-- A condition that looks at the action only is one on the list. -/
theorem along_of_forall {p : α → Prop} {as : List α} (h : ∀ a ∈ as, p a) (s : σ) :
    Along step (fun _ a => p a) s as := by
  induction as generalizing s with
  | nil => trivial
  | cons a as ih =>
    exact along_cons.mpr
      ⟨h a (by simp), fun s' _ => ih (fun b hb => h b (List.mem_cons_of_mem _ hb)) s'⟩

instance Along.decidable [∀ s a, Decidable (P s a)] :
    ∀ (s : σ) (as : List α), Decidable (Along step P s as)
  | _, [] => .isTrue trivial
  | s, a :: as =>
    match hs : step s a with
    | none => decidable_of_iff (P s a) (by rw [Along, hs]; simp)
    | some s' =>
      have := Along.decidable s' as
      decidable_of_iff (P s a ∧ Along step P s' as) (by rw [Along, hs])

/-- **What every allowed step keeps, every allowed run keeps.** -/
theorem exec_induct {I : σ → Prop}
    (hstep : ∀ s a s', I s → P s a → step s a = some s' → I s') {s s' : σ} {as : List α}
    (hs : I s) (hP : Along step P s as) (h : exec step s as = some s') : I s' := by
  induction as generalizing s with
  | nil =>
    obtain rfl := Option.some.inj h
    exact hs
  | cons a as ih =>
    obtain ⟨t, ht, h'⟩ := exec_cons.mp h
    obtain ⟨hPa, hP'⟩ := along_cons.mp hP
    exact ih (hstep s a t hs hPa ht) (hP' t ht) h'

/-- A condition on steps that an invariant makes sure of. -/
theorem along_of_induct {Q : σ → α → Prop} {I : σ → Prop}
    (hstep : ∀ s a s', I s → P s a → step s a = some s' → Q s a ∧ I s') {s s' : σ} {as : List α}
    (hs : I s) (hP : Along step P s as) (h : exec step s as = some s') : Along step Q s as := by
  induction as generalizing s with
  | nil => trivial
  | cons a as ih =>
    obtain ⟨t, ht, h'⟩ := exec_cons.mp h
    obtain ⟨hPa, hP'⟩ := along_cons.mp hP
    obtain ⟨hQ, hI⟩ := hstep s a t hs hPa ht
    refine along_cons.mpr ⟨hQ, fun u hu => ?_⟩
    obtain rfl : t = u := Option.some.inj (ht.symm.trans hu)
    exact ih hI (hP' t ht) h'

/-- What every allowed step keeps, with the actions taken so far, every allowed run keeps. A step
may assume what is known of the actions before it. -/
theorem exec_history {I : List α → σ → Prop} {s s' : σ} {as bs : List α}
    (hstep : ∀ cs s a s', cs <+: bs → I (as ++ cs) s → P s a → step s a = some s' →
    I (as ++ cs ++ [a]) s') (hs : I as s) (hP : Along step P s bs) (h : exec step s bs = some s') :
    I (as ++ bs) s' := by
  induction bs generalizing s as with
  | nil =>
    obtain rfl := Option.some.inj h
    rwa [List.append_nil]
  | cons b bs ih =>
    obtain ⟨t, ht, h'⟩ := exec_cons.mp h
    obtain ⟨hPb, hP'⟩ := along_cons.mp hP
    have ht' : I (as ++ [b]) t := by
      have := hstep [] s b t List.nil_prefix (by rwa [List.append_nil]) hPb ht
      rwa [List.append_nil] at this
    have hrest : I (as ++ [b] ++ bs) s' := ih (fun cs s a s' hcs hI hPa hsa => by
      rw [List.append_assoc as, List.singleton_append] at hI ⊢
      exact hstep (b :: cs) s a s' (List.cons_prefix_cons.mpr ⟨rfl, hcs⟩) hI hPa hsa) ht'
        (hP' t ht) h'
    rwa [List.append_assoc, List.singleton_append] at hrest

/-- **A simulation of steps is a simulation of runs**, with `R` what a step does to the simulating
state: the simulating state at the end stands in `R` to one for every state on the way. -/
theorem exec_simulates {S : σ → ρ → Prop} {R : ρ → ρ → Prop} [Std.Refl R] [IsTrans ρ R]
    (hstep : ∀ s a s' x, S s x → P s a → step s a = some s' → ∃ x', S s' x' ∧ R x x')
    {s s' : σ} {x : ρ} {as : List α} (hs : S s x) (hP : Along step P s as)
    (h : exec step s as = some s') : ∃ x', S s' x' ∧ R x x' ∧
      ∀ as₀ s₀, as₀ <+: as → exec step s as₀ = some s₀ → ∃ x₀, S s₀ x₀ ∧ R x₀ x' := by
  induction as generalizing s x with
  | nil =>
    obtain rfl := Option.some.inj h
    refine ⟨x, hs, refl x, fun as₀ s₀ has h₀ => ?_⟩
    rw [List.prefix_nil.mp has] at h₀
    obtain rfl := Option.some.inj h₀
    exact ⟨x, hs, refl x⟩
  | cons a as ih =>
    obtain ⟨t, ht, h'⟩ := exec_cons.mp h
    obtain ⟨hPa, hP'⟩ := along_cons.mp hP
    obtain ⟨y, hy, hxy⟩ := hstep s a t x hs hPa ht
    obtain ⟨z, hz, hyz, htrace⟩ := ih hy (hP' t ht) h'
    have hxz : R x z := IsTrans.trans _ _ _ hxy hyz
    refine ⟨z, hz, hxz, fun as₀ s₀ has h₀ => ?_⟩
    rcases List.prefix_cons_iff.mp has with rfl | ⟨as₁, rfl, has₁⟩
    · obtain rfl := Option.some.inj h₀
      exact ⟨x, hs, hxz⟩
    · obtain ⟨t', ht', h₀⟩ := exec_cons.mp h₀
      rw [ht] at ht'
      obtain rfl := Option.some.inj ht'
      exact htrace as₁ s₀ has₁ h₀

/-- **Projection**: if every allowed step of a machine is an allowed run of another one, under `π`,
then its allowed runs are allowed runs of the other one. -/
theorem exec_project {step' : ρ → β → Option ρ} {Q : ρ → β → Prop} {π : σ → ρ}
    (acts : σ → α → List β)
    (hstep : ∀ s a s', step s a = some s' → P s a →
      exec step' (π s) (acts s a) = some (π s') ∧ Along step' Q (π s) (acts s a))
    {s s' : σ} {as : List α} (hP : Along step P s as) (h : exec step s as = some s') :
    ∃ bs, exec step' (π s) bs = some (π s') ∧ Along step' Q (π s) bs := by
  induction as generalizing s with
  | nil =>
    obtain rfl := Option.some.inj h
    exact ⟨[], rfl, trivial⟩
  | cons a as ih =>
    obtain ⟨t, ht, h'⟩ := exec_cons.mp h
    obtain ⟨hPa, hP'⟩ := along_cons.mp hP
    obtain ⟨bs, hbs, hQ⟩ := ih (hP' t ht) h'
    obtain ⟨hex, hal⟩ := hstep s a t ht hPa
    exact ⟨acts s a ++ bs, exec_append.mpr ⟨π t, hex, hbs⟩, (along_append hex).mpr ⟨hal, hQ⟩⟩

/-- What every round of a loop keeps, the loop keeps if it returns. -/
theorem foldlM_induct {f : σ → α → Option σ} {I : σ → Prop} {as : List α}
    (hstep : ∀ s, I s → ∀ a s', f s a = some s' → I s') {s s' : σ} (hs : I s)
    (h : as.foldlM f s = some s') : I s' := by
  induction as generalizing s with
  | nil =>
    obtain rfl := Option.some.inj h
    exact hs
  | cons a as ih =>
    rw [List.foldlM_cons] at h
    obtain ⟨t, ht, h⟩ := Option.bind_eq_some_iff.mp h
    exact ih (hstep s hs a t ht) h

/-- A loop that cannot fail as long as its invariant holds. -/
theorem foldlM_inv {f : σ → α → Option σ} {I : σ → Prop} {as : List α}
    (hstep : ∀ s, I s → ∀ a ∈ as, ∃ s', f s a = some s' ∧ I s') {s : σ} (hs : I s) :
    ∃ s', as.foldlM f s = some s' ∧ I s' := by
  induction as generalizing s with
  | nil => exact ⟨s, rfl, hs⟩
  | cons a as ih =>
    obtain ⟨t, ht, hI⟩ := hstep s hs a (by simp)
    obtain ⟨s', hs', hI'⟩ := ih (fun u hu b hb => hstep u hu b (List.mem_cons_of_mem _ hb)) hI
    refine ⟨s', ?_, hI'⟩
    rw [List.foldlM_cons, ht]
    exact hs'

end KvStore.Machine
