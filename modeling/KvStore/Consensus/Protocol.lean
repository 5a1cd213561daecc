import KvStore.Consensus.TermLog
import Mathlib

/-!
# Leader-based replication: the abstract protocol

What a leader-based replication protocol is, with no messages, no timers and no storage: for
every term the node elected in it and the log that node wrote (`leader`, `hist`), and for every
node its term, its stored log, the votes it cast and what it acknowledged to each leader.

A protocol run is a sequence of *moves*, each made by one node: `advance`, `campaign`, `grant`,
`elect`, `append`, `store`, `acknowledge` and `commit`. There are two invariants.

* `Wf` is log matching and election safety. It needs only that a log is overwritten by a prefix
  of what the leader of the node's term wrote.
* `Safe` is leader completeness. It needs more of three moves: a vote goes to a log that is up to
  date (`UpToDate`), `store` keeps what the stored log shares with the leader's (`Keeps`), and
  `commit` takes an index a majority acknowledged (`Chosen`).

`Safe.complete` is stated for `Choosable` indices, those that a majority acknowledged or still
can. An index stops being choosable but never becomes so again, which is what lets each move be
checked on its own.

`Grows s s'` collects what every move keeps, and `Ext n s s'` what a move of node `n` leaves alone.
-/

namespace KvStore.Consensus

variable {N E : Type*} [DecidableEq N]

/-- The state of the abstract protocol. -/
structure State (N E : Type*) where
  /-- The log the leader of a term has written. -/
  hist : ℕ → List E
  /-- The node elected in a term. -/
  leader : ℕ → Option N
  /-- The term a node is in. -/
  term : N → ℕ
  /-- The log a node has stored. -/
  log : N → List E
  /-- The candidate a node voted for in a term. -/
  vote : N → ℕ → Option N
  /-- The log a node ran with in a term. -/
  cand : N → ℕ → List E
  /-- How much of a term's log a node has acknowledged. -/
  ack : N → ℕ → ℕ
  /-- How much of its log the leader of a term has committed. -/
  com : ℕ → ℕ

/-- The state before anything happened. -/
def State.init : State N E where
  hist := fun _ => []
  leader := fun _ => none
  term := fun _ => 0
  log := fun _ => []
  vote := fun _ _ => none
  cand := fun _ _ => []
  ack := fun _ _ => 0
  com := fun _ => 0

/-! ## The moves -/

/-- Function update at a node and a term. -/
def set₂ {α : Type*} (f : N → ℕ → α) (n : N) (t : ℕ) (a : α) : N → ℕ → α :=
  Function.update f n (Function.update (f n) t a)

@[simp] theorem set₂_self {α : Type*} (f : N → ℕ → α) (n : N) (t : ℕ) (a : α) :
    set₂ f n t a n t = a := by
  simp [set₂]

theorem set₂_of_ne {α : Type*} (f : N → ℕ → α) {n m : N} {t u : ℕ} (a : α)
    (h : m ≠ n ∨ u ≠ t) : set₂ f n t a m u = f m u := by
  unfold set₂
  by_cases hm : m = n
  · subst hm
    rw [Function.update_self, Function.update_of_ne (h.resolve_left (fun h => h rfl))]
  · rw [Function.update_of_ne hm]

namespace State

/-- Node `n` moves on to term `t`. -/
def advance (s : State N E) (n : N) (t : ℕ) : State N E :=
  { s with term := Function.update s.term n t }

/-- Node `n` moves on to term `t` and runs for leader in it. -/
def campaign (s : State N E) (n : N) (t : ℕ) : State N E :=
  { s with
    term := Function.update s.term n t
    vote := set₂ s.vote n t (some n)
    cand := set₂ s.cand n t (s.log n) }

/-- Node `v` votes for `c` in term `t`. -/
def grant (s : State N E) (v c : N) (t : ℕ) : State N E :=
  { s with vote := set₂ s.vote v t (some c) }

/-- Node `c` becomes the leader of term `t`, with the log it ran with. -/
def elect (s : State N E) (c : N) (t : ℕ) : State N E :=
  { s with
    leader := Function.update s.leader t (some c)
    hist := Function.update s.hist t (s.cand c t) }

/-- The leader of term `t` writes `es`. -/
def append (s : State N E) (t : ℕ) (es : List E) : State N E :=
  { s with hist := Function.update s.hist t (s.hist t ++ es) }

/-- Node `n` replaces its stored log by `l`. -/
def store (s : State N E) (n : N) (l : List E) : State N E :=
  { s with log := Function.update s.log n l }

/-- Node `n` acknowledges the first `k` entries of its term's log. -/
def acknowledge (s : State N E) (n : N) (k : ℕ) : State N E :=
  { s with ack := set₂ s.ack n (s.term n) (max (s.ack n (s.term n)) k) }

/-- The leader of term `t` commits its first `k` entries. -/
def commit (s : State N E) (t k : ℕ) : State N E :=
  { s with com := Function.update s.com t k }

end State

section Fields

variable {s : State N E} {n c m : N} {t u k : ℕ} {es l : List E}

theorem advance_term_of_ne (hm : m ≠ n) : (s.advance n t).term m = s.term m :=
  Function.update_of_ne hm _ _

@[simp] theorem advance_term_self : (s.advance n t).term n = t := Function.update_self _ _ _

theorem campaign_vote_of_ne (h : m ≠ n ∨ u ≠ t) : (s.campaign n t).vote m u = s.vote m u :=
  set₂_of_ne _ _ h

@[simp] theorem campaign_vote_self : (s.campaign n t).vote n t = some n := set₂_self _ _ _ _

theorem campaign_cand_of_ne (h : m ≠ n ∨ u ≠ t) : (s.campaign n t).cand m u = s.cand m u :=
  set₂_of_ne _ _ h

@[simp] theorem campaign_cand_self : (s.campaign n t).cand n t = s.log n := set₂_self _ _ _ _

@[simp] theorem campaign_term_self : (s.campaign n t).term n = t := Function.update_self _ _ _

theorem grant_vote_of_ne (h : m ≠ n ∨ u ≠ t) : (s.grant n c t).vote m u = s.vote m u :=
  set₂_of_ne _ _ h

@[simp] theorem grant_vote_self : (s.grant n c t).vote n t = some c := set₂_self _ _ _ _

omit [DecidableEq N] in
theorem elect_hist_of_ne (hu : u ≠ t) : (s.elect c t).hist u = s.hist u :=
  Function.update_of_ne hu _ _

omit [DecidableEq N] in
theorem elect_leader_of_ne (hu : u ≠ t) : (s.elect c t).leader u = s.leader u :=
  Function.update_of_ne hu _ _

omit [DecidableEq N] in
@[simp] theorem elect_hist_self : (s.elect c t).hist t = s.cand c t := Function.update_self _ _ _

omit [DecidableEq N] in
@[simp] theorem elect_leader_self : (s.elect c t).leader t = some c := Function.update_self _ _ _

omit [DecidableEq N] in
theorem append_hist_of_ne (hu : u ≠ t) : (s.append t es).hist u = s.hist u :=
  Function.update_of_ne hu _ _

omit [DecidableEq N] in
@[simp] theorem append_hist_self : (s.append t es).hist t = s.hist t ++ es :=
  Function.update_self _ _ _

theorem store_log_of_ne (hm : m ≠ n) : (s.store n l).log m = s.log m :=
  Function.update_of_ne hm _ _

@[simp] theorem store_log_self : (s.store n l).log n = l := Function.update_self _ _ _

theorem acknowledge_ack_of_ne (h : m ≠ n ∨ u ≠ s.term n) :
    (s.acknowledge n k).ack m u = s.ack m u :=
  set₂_of_ne _ _ h

@[simp] theorem acknowledge_ack_self :
    (s.acknowledge n k).ack n (s.term n) = max (s.ack n (s.term n)) k :=
  set₂_self _ _ _ _

omit [DecidableEq N] in
theorem commit_com_of_ne (hu : u ≠ t) : (s.commit t k).com u = s.com u :=
  Function.update_of_ne hu _ _

omit [DecidableEq N] in
@[simp] theorem commit_com_self : (s.commit t k).com t = k := Function.update_self _ _ _

end Fields

/-! ## The invariants -/

variable (τ : E → ℕ) (M : Finset N)

/-- A majority acknowledged the first `k` entries of term `t`, the last of which that term's
leader wrote itself. -/
def Chosen (s : State N E) (t k : ℕ) : Prop :=
  k ≠ 0 ∧ k ≤ (s.hist t).length ∧ termAt τ (s.hist t) k = t ∧
    ∃ Q, Majority M Q ∧ ∀ q ∈ Q, k ≤ s.ack q t

/-- A majority acknowledged the first `k` entries of term `t`, or still can. -/
def Choosable (s : State N E) (t k : ℕ) : Prop :=
  k ≠ 0 ∧ k ≤ (s.hist t).length ∧ termAt τ (s.hist t) k = t ∧
    ∃ Q, Majority M Q ∧ ∀ q ∈ Q, k ≤ s.ack q t ∨ s.term q ≤ t

/-- A log at least as up to date as `l`: a later last term, or the same one and no shorter. -/
def UpToDate (l c : List E) : Prop :=
  lastTerm τ l < lastTerm τ c ∨ (lastTerm τ l = lastTerm τ c ∧ l.length ≤ c.length)

/-- Replacing the log of `n` by `l` keeps every prefix it shares with its term's leader. -/
def Keeps (s : State N E) (n : N) (l : List E) : Prop :=
  ∀ p, p <+: s.hist (s.term n) → p <+: s.log n → p <+: l

/-- **Well-formed states**: all logs were written by the leaders, one leader a term. -/
structure Wf (s : State N E) : Prop where
  canon_hist : ∀ t, Canon τ s.hist (s.hist t)
  canon_log : ∀ n, Canon τ s.hist (s.log n)
  canon_cand : ∀ n t, s.vote n t = some n → Canon τ s.hist (s.cand n t)
  hist_le : ∀ t, ∀ e ∈ s.hist t, τ e ≤ t
  hist_pos : ∀ t, ∀ e ∈ s.hist t, 0 < τ e
  log_le : ∀ n, ∀ e ∈ s.log n, τ e ≤ s.term n
  cand_lt : ∀ n t, s.vote n t = some n → ∀ e ∈ s.cand n t, τ e < t
  hist_nil : ∀ t, s.leader t = none → s.hist t = []
  vote_pos : ∀ n t c, s.vote n t = some c → 0 < t
  vote_le : ∀ n t c, s.vote n t = some c → t ≤ s.term n
  vote_self : ∀ n t c, s.vote n t = some c → s.vote c t = some c
  elected : ∀ t c, s.leader t = some c → ∃ Q, Majority M Q ∧ ∀ q ∈ Q, s.vote q t = some c
  ack_le : ∀ n t, s.ack n t ≤ (s.hist t).length
  ack_term : ∀ n t, s.ack n t ≠ 0 → t ≤ s.term n
  com_nil : ∀ t, s.leader t = none → s.com t = 0

/-- **Safe states**: what can be chosen is kept by everybody who could make it so. -/
structure Safe (s : State N E) : Prop where
  acked : ∀ q t k, k ≤ s.ack q t → Choosable τ M s t k → (s.hist t).take k <+: s.log q
  voted : ∀ q u c, s.vote q u = some c → ∀ t k, t < u → k ≤ s.ack q t → Choosable τ M s t k →
    (s.hist t).take k <+: s.cand c u
  complete : ∀ u, s.leader u ≠ none → ∀ t k, t < u → Choosable τ M s t k →
    (s.hist t).take k <+: s.hist u
  chosen : ∀ t, s.com t ≠ 0 → Chosen τ M s t (s.com t)

/-- What every step keeps: terms, acknowledgements and commitments only rise, votes and elections
stand, and a leader only adds entries of its own term. -/
structure Grows (s s' : State N E) : Prop where
  term_le : ∀ m, s.term m ≤ s'.term m
  vote_keep : ∀ m t c, s.vote m t = some c → s'.vote m t = some c
  cand_keep : ∀ m t, s.vote m t = some m → s'.cand m t = s.cand m t
  leader_keep : ∀ t c, s.leader t = some c → s'.leader t = some c
  hist_grow : ∀ t, ∃ es, s'.hist t = s.hist t ++ es ∧ (s.leader t ≠ none → ∀ e ∈ es, τ e = t)
  ack_le : ∀ m t, s.ack m t ≤ s'.ack m t
  com_le : ∀ t, s.com t ≤ s'.com t

/-- What a step of node `n` keeps, and what it leaves alone. -/
structure Ext (n : N) (s s' : State N E) : Prop extends Grows τ s s' where
  term_ne : ∀ m, m ≠ n → s'.term m = s.term m
  log_ne : ∀ m, m ≠ n → s'.log m = s.log m
  vote_ne : ∀ m, m ≠ n → s'.vote m = s.vote m
  leader_ne : ∀ t c, s'.leader t = some c → c ≠ n → s.leader t = some c
  hist_ne : ∀ t c, s.leader t = some c → c ≠ n → s'.hist t = s.hist t
  ack_ne : ∀ m, m ≠ n → s'.ack m = s.ack m
  com_ne : ∀ t c, s.leader t = some c → c ≠ n → s'.com t = s.com t

variable {τ M} {s s' s'' : State N E} {n : N}

omit [DecidableEq N] in
theorem Grows.refl (s : State N E) : Grows τ s s where
  term_le := fun _ => le_rfl
  vote_keep := fun _ _ _ h => h
  cand_keep := fun _ _ _ => rfl
  leader_keep := fun _ _ h => h
  hist_grow := fun t => ⟨[], by simp, by simp⟩
  ack_le := fun _ _ => le_rfl
  com_le := fun _ => le_rfl

omit [DecidableEq N] in
theorem Grows.hist_isPrefix (h : Grows τ s s') (t : ℕ) : s.hist t <+: s'.hist t := by
  obtain ⟨es, he, -⟩ := h.hist_grow t
  exact ⟨es, he.symm⟩

omit [DecidableEq N] in
theorem Grows.trans (h : Grows τ s s') (h' : Grows τ s' s'') : Grows τ s s'' where
  term_le := fun m => (h.term_le m).trans (h'.term_le m)
  vote_keep := fun m t c hv => h'.vote_keep m t c (h.vote_keep m t c hv)
  cand_keep := fun m t hv => (h'.cand_keep m t (h.vote_keep m t m hv)).trans (h.cand_keep m t hv)
  leader_keep := fun t c hl => h'.leader_keep t c (h.leader_keep t c hl)
  hist_grow := fun t => by
    obtain ⟨es, he, ht⟩ := h.hist_grow t
    obtain ⟨es', he', ht'⟩ := h'.hist_grow t
    refine ⟨es ++ es', by rw [he', he, List.append_assoc], fun hl e hmem => ?_⟩
    rcases List.mem_append.mp hmem with hmem | hmem
    · exact ht hl e hmem
    · obtain ⟨c, hc⟩ := Option.ne_none_iff_exists'.mp hl
      exact ht' (by rw [h.leader_keep t c hc]; simp) e hmem
  ack_le := fun m t => (h.ack_le m t).trans (h'.ack_le m t)
  com_le := fun t => (h.com_le t).trans (h'.com_le t)

instance : Std.Refl (Grows (N := N) τ) := ⟨Grows.refl⟩

instance : IsTrans (State N E) (Grows τ) := ⟨fun _ _ _ => Grows.trans⟩

omit [DecidableEq N] in
theorem Ext.refl (s : State N E) (n : N) : Ext τ n s s where
  __ := Grows.refl s
  term_ne := fun _ _ => rfl
  log_ne := fun _ _ => rfl
  vote_ne := fun _ _ => rfl
  leader_ne := fun _ _ h _ => h
  hist_ne := fun _ _ _ _ => rfl
  ack_ne := fun _ _ => rfl
  com_ne := fun _ _ _ _ => rfl

omit [DecidableEq N] in
theorem Ext.trans (h : Ext τ n s s') (h' : Ext τ n s' s'') : Ext τ n s s'' where
  __ := h.toGrows.trans h'.toGrows
  term_ne := fun m hm => (h'.term_ne m hm).trans (h.term_ne m hm)
  log_ne := fun m hm => (h'.log_ne m hm).trans (h.log_ne m hm)
  vote_ne := fun m hm => (h'.vote_ne m hm).trans (h.vote_ne m hm)
  leader_ne := fun t c hl hc => h.leader_ne t c (h'.leader_ne t c hl hc) hc
  hist_ne := fun t c hl hc =>
    (h'.hist_ne t c (h.leader_keep t c hl) hc).trans (h.hist_ne t c hl hc)
  ack_ne := fun m hm => (h'.ack_ne m hm).trans (h.ack_ne m hm)
  com_ne := fun t c hl hc => (h'.com_ne t c (h.leader_keep t c hl) hc).trans (h.com_ne t c hl hc)

omit [DecidableEq N] in
theorem Chosen.choosable {t k : ℕ} (h : Chosen τ M s t k) : Choosable τ M s t k := by
  obtain ⟨h0, hk, ht, Q, hQ, hack⟩ := h
  exact ⟨h0, hk, ht, Q, hQ, fun q hq => Or.inl (hack q hq)⟩

omit [DecidableEq N] in
/-- What was chosen stays chosen. -/
theorem Chosen.mono {t k : ℕ} (h : Chosen τ M s t k) (he : Grows τ s s') :
    Chosen τ M s' t k := by
  obtain ⟨h0, hk, ht, Q, hQ, hack⟩ := h
  have hp := he.hist_isPrefix t
  refine ⟨h0, hk.trans hp.length_le, ?_, Q, hQ, fun q hq => (hack q hq).trans (he.ack_le q t)⟩
  rw [← termAt_of_isPrefix τ hp hk, ht]

/-! ## Every move keeps the state well formed -/

omit [DecidableEq N] in
theorem wf_init : Wf τ M (State.init : State N E) where
  canon_hist := fun _ => canon_nil
  canon_log := fun _ => canon_nil
  canon_cand := fun _ _ h => by simp [State.init] at h
  hist_le := fun _ _ h => by simp [State.init] at h
  hist_pos := fun _ _ h => by simp [State.init] at h
  log_le := fun _ _ h => by simp [State.init] at h
  cand_lt := fun _ _ h => by simp [State.init] at h
  hist_nil := fun _ _ => rfl
  vote_pos := fun _ _ _ h => by simp [State.init] at h
  vote_le := fun _ _ _ h => by simp [State.init] at h
  vote_self := fun _ _ _ h => by simp [State.init] at h
  elected := fun _ _ h => by simp [State.init] at h
  ack_le := fun _ _ => Nat.zero_le _
  ack_term := fun _ _ h => by simp [State.init] at h
  com_nil := fun _ _ => rfl

omit [DecidableEq N] in
theorem Wf.leader_of_mem (h : Wf τ M s) {t : ℕ} {e : E} (he : e ∈ s.hist t) :
    s.leader t ≠ none := by
  intro hl
  rw [h.hist_nil t hl] at he
  exact absurd he List.not_mem_nil

omit [DecidableEq N] in
/-- A vote of `n` in a term it has not reached yet is impossible. -/
theorem Wf.vote_none (h : Wf τ M s) {t : ℕ} (ht : s.term n < t) : s.vote n t = none := by
  cases hv : s.vote n t with
  | none => rfl
  | some c => have := h.vote_le n t c hv; omega

/-- A leader voted for itself. -/
theorem Wf.leader_vote (h : Wf τ M s) {t : ℕ} {c : N} (hl : s.leader t = some c) :
    s.vote c t = some c := by
  obtain ⟨Q, hQ, hv⟩ := h.elected t c hl
  obtain ⟨q, hq, -⟩ := hQ.inter hQ
  exact h.vote_self q t c (hv q hq)

/-- **One leader a term**: two nodes with a majority of the votes of a term are one. -/
theorem Wf.leader_unique (h : Wf τ M s) {t : ℕ} {c d : N} {Q : Finset N} (hQ : Majority M Q)
    (hv : ∀ q ∈ Q, s.vote q t = some c) (hd : s.leader t = some d) : d = c := by
  obtain ⟨P, hP, hvP⟩ := h.elected t d hd
  obtain ⟨x, hxP, hxQ⟩ := hP.inter hQ
  have h1 := hvP x hxP
  rw [hv x hxQ] at h1
  exact (Option.some.inj h1).symm

section Moves

variable {t : ℕ}

theorem ext_advance (ht : s.term n ≤ t) : Ext τ n s (s.advance n t) where
  __ := Ext.refl s n
  term_ne := fun m hm => Function.update_of_ne hm _ _
  term_le := fun m => by
    by_cases hm : m = n
    · subst hm; simpa using ht
    · rw [advance_term_of_ne hm]

theorem wf_advance (h : Wf τ M s) (ht : s.term n ≤ t) : Wf τ M (s.advance n t) where
  __ := h
  log_le := fun m e he => (h.log_le m e he).trans ((ext_advance (τ := τ) ht).term_le m)
  vote_le := fun m u c hv => (h.vote_le m u c hv).trans ((ext_advance (τ := τ) ht).term_le m)
  ack_term := fun m u ha => (h.ack_term m u ha).trans ((ext_advance (τ := τ) ht).term_le m)

theorem ext_campaign (h : Wf τ M s) (ht : s.term n < t) : Ext τ n s (s.campaign n t) where
  __ := ext_advance (τ := τ) ht.le
  vote_ne := fun m hm => Function.update_of_ne hm _ _
  vote_keep := fun m u c hv => by
    have : m ≠ n ∨ u ≠ t := by
      by_contra hcon
      push Not at hcon
      obtain ⟨rfl, rfl⟩ := hcon
      rw [h.vote_none ht] at hv
      exact absurd hv (by simp)
    rw [campaign_vote_of_ne this, hv]
  cand_keep := fun m u hv => by
    have : m ≠ n ∨ u ≠ t := by
      by_contra hcon
      push Not at hcon
      obtain ⟨rfl, rfl⟩ := hcon
      rw [h.vote_none ht] at hv
      exact absurd hv (by simp)
    rw [campaign_cand_of_ne this]

theorem campaign_vote {m : N} {u : ℕ} {c : N} (hv : (s.campaign n t).vote m u = some c) :
    (m = n ∧ u = t ∧ c = n) ∨ ((m ≠ n ∨ u ≠ t) ∧ s.vote m u = some c) := by
  by_cases hm : m = n ∧ u = t
  · obtain ⟨rfl, rfl⟩ := hm
    left
    simpa [eq_comm] using hv
  · right
    have hne : m ≠ n ∨ u ≠ t := by
      by_contra hcon
      push Not at hcon
      exact hm hcon
    rw [campaign_vote_of_ne hne] at hv
    exact ⟨hne, hv⟩

theorem wf_campaign (h : Wf τ M s) (ht : s.term n < t) : Wf τ M (s.campaign n t) where
  __ := h
  canon_cand := fun m u hv => by
    rcases campaign_vote hv with ⟨rfl, rfl, -⟩ | ⟨hne, hv'⟩
    · rw [campaign_cand_self]; exact h.canon_log m
    · rw [(ext_campaign h ht).cand_keep m u hv']
      exact h.canon_cand m u hv'
  log_le := (wf_advance h ht.le).log_le
  cand_lt := fun m u hv e he => by
    rcases campaign_vote hv with ⟨rfl, rfl, -⟩ | ⟨hne, hv'⟩
    · rw [campaign_cand_self] at he
      exact lt_of_le_of_lt (h.log_le m e he) ht
    · rw [(ext_campaign h ht).cand_keep m u hv'] at he
      exact h.cand_lt m u hv' e he
  vote_pos := fun m u c hv => by
    rcases campaign_vote hv with ⟨rfl, rfl, -⟩ | ⟨-, hv'⟩
    · exact (Nat.zero_le _).trans_lt ht
    · exact h.vote_pos m u c hv'
  vote_le := fun m u c hv => by
    rcases campaign_vote hv with ⟨rfl, rfl, -⟩ | ⟨hne, hv'⟩
    · rw [campaign_term_self]
    · exact (h.vote_le m u c hv').trans ((ext_campaign h ht).term_le m)
  vote_self := fun m u c hv => by
    rcases campaign_vote hv with ⟨rfl, rfl, rfl⟩ | ⟨hne, hv'⟩
    · exact hv
    · exact (ext_campaign h ht).vote_keep c u c (h.vote_self m u c hv')
  elected := fun u c hl => by
    obtain ⟨Q, hQ, hv⟩ := h.elected u c hl
    exact ⟨Q, hQ, fun q hq => (ext_campaign h ht).vote_keep q u c (hv q hq)⟩
  ack_term := (wf_advance h ht.le).ack_term

variable {c : N}

theorem ext_grant (hv : s.vote n t = none ∨ s.vote n t = some c) :
    Ext τ n s (s.grant n c t) where
  __ := Ext.refl s n
  vote_ne := fun m hm => Function.update_of_ne hm _ _
  vote_keep := fun m u d hd => by
    by_cases hm : m = n ∧ u = t
    · obtain ⟨rfl, rfl⟩ := hm
      rcases hv with hv | hv
      · rw [hv] at hd; exact absurd hd (by simp)
      · rw [hv] at hd; simpa using hd
    · have hne : m ≠ n ∨ u ≠ t := by
        by_contra hcon
        push Not at hcon
        exact hm hcon
      rw [grant_vote_of_ne hne, hd]

theorem grant_vote {m : N} {u : ℕ} {d : N} (hv : (s.grant n c t).vote m u = some d) :
    (m = n ∧ u = t ∧ d = c) ∨ s.vote m u = some d := by
  by_cases hm : m = n ∧ u = t
  · obtain ⟨rfl, rfl⟩ := hm
    left
    simpa [eq_comm] using hv
  · right
    have hne : m ≠ n ∨ u ≠ t := by
      by_contra hcon
      push Not at hcon
      exact hm hcon
    rwa [grant_vote_of_ne hne] at hv

theorem wf_grant (h : Wf τ M s) (ht : s.term n = t) (hc : s.vote c t = some c)
    (hv : s.vote n t = none ∨ s.vote n t = some c) : Wf τ M (s.grant n c t) := by
  -- the only new self-vote is one that was there before
  have hself : ∀ m u, (s.grant n c t).vote m u = some m → s.vote m u = some m := by
    intro m u hm
    rcases grant_vote hm with ⟨rfl, rfl, rfl⟩ | hm
    · exact hc
    · exact hm
  exact
    { __ := h
      canon_cand := fun m u hm => h.canon_cand m u (hself m u hm)
      cand_lt := fun m u hm => h.cand_lt m u (hself m u hm)
      vote_pos := fun m u d hd => by
        rcases grant_vote hd with ⟨rfl, rfl, rfl⟩ | hd
        · exact h.vote_pos _ _ _ hc
        · exact h.vote_pos m u d hd
      vote_le := fun m u d hd => by
        rcases grant_vote hd with ⟨rfl, rfl, rfl⟩ | hd
        · exact ht.ge
        · exact h.vote_le m u d hd
      vote_self := fun m u d hd => by
        rcases grant_vote hd with ⟨rfl, rfl, rfl⟩ | hd
        · exact (ext_grant (τ := τ) hv).vote_keep _ _ _ hc
        · exact (ext_grant (τ := τ) hv).vote_keep _ _ _ (h.vote_self m u d hd)
      elected := fun u d hl => by
        obtain ⟨Q, hQ, hq⟩ := h.elected u d hl
        exact ⟨Q, hQ, fun q hqQ => (ext_grant (τ := τ) hv).vote_keep q u d (hq q hqQ)⟩ }

omit [DecidableEq N] in
theorem ext_elect (h : Wf τ M s) (hl : s.leader t = none) : Ext τ n s (s.elect n t) where
  __ := Ext.refl (τ := τ) s n
  leader_keep := fun u c hc => by
    have hu : u ≠ t := fun hu => by rw [hu, hl] at hc; exact absurd hc (by simp)
    rw [elect_leader_of_ne hu, hc]
  leader_ne := fun u c hc hcn => by
    by_cases hu : u = t
    · rw [hu, elect_leader_self] at hc
      exact absurd (Option.some.inj hc).symm hcn
    · rwa [elect_leader_of_ne hu] at hc
  hist_grow := fun u => by
    by_cases hu : u = t
    · rw [hu]
      refine ⟨s.cand n t, by rw [elect_hist_self, h.hist_nil t hl, List.nil_append], ?_⟩
      intro hne
      exact absurd hl hne
    · exact ⟨[], by rw [elect_hist_of_ne hu, List.append_nil], by simp⟩
  hist_ne := fun u c hc _ => by
    have hu : u ≠ t := fun hu => by rw [hu, hl] at hc; exact absurd hc (by simp)
    exact elect_hist_of_ne hu

omit [DecidableEq N] in
theorem wf_elect (h : Wf τ M s) (hl : s.leader t = none) {Q : Finset N} (hQ : Majority M Q)
    (hv : ∀ q ∈ Q, s.vote q t = some n) (hn : s.vote n t = some n) :
    Wf τ M (s.elect n t) := by
  have hgrow : ∀ u, s.hist u <+: (s.elect n t).hist u := (ext_elect h hl).hist_isPrefix
  exact
    { canon_hist := fun u => by
        by_cases hu : u = t
        · subst hu
          rw [elect_hist_self]
          exact (h.canon_cand n u hn).mono hgrow
        · rw [elect_hist_of_ne hu]
          exact (h.canon_hist u).mono hgrow
      canon_log := fun m => (h.canon_log m).mono hgrow
      canon_cand := fun m u hm => (h.canon_cand m u hm).mono hgrow
      hist_le := fun u e he => by
        by_cases hu : u = t
        · subst hu
          rw [elect_hist_self] at he
          exact (h.cand_lt n u hn e he).le
        · rw [elect_hist_of_ne hu] at he
          exact h.hist_le u e he
      hist_pos := fun u e he => by
        by_cases hu : u = t
        · subst hu
          rw [elect_hist_self] at he
          -- an entry of a canonical log is an entry of its own term's history
          obtain ⟨a, b, hab⟩ := List.append_of_mem he
          have hp : a ++ [e] <+: s.cand n u := ⟨b, by rw [hab]; simp⟩
          have := h.canon_cand n u hn _ hp (by simp)
          exact h.hist_pos _ e (this.subset (by simp))
        · rw [elect_hist_of_ne hu] at he
          exact h.hist_pos u e he
      log_le := h.log_le
      cand_lt := h.cand_lt
      hist_nil := fun u hu' => by
        have hu : u ≠ t := by rintro rfl; rw [elect_leader_self] at hu'; exact absurd hu' (by simp)
        rw [elect_hist_of_ne hu]
        rw [elect_leader_of_ne hu] at hu'
        exact h.hist_nil u hu'
      vote_pos := h.vote_pos
      vote_le := h.vote_le
      vote_self := h.vote_self
      elected := fun u c hc => by
        by_cases hu : u = t
        · subst hu
          rw [elect_leader_self] at hc
          obtain rfl := Option.some.inj hc
          exact ⟨Q, hQ, hv⟩
        · rw [elect_leader_of_ne hu] at hc
          exact h.elected u c hc
      ack_le := fun m u => (h.ack_le m u).trans (hgrow u).length_le
      ack_term := h.ack_term
      com_nil := fun u hu' => by
        have hu : u ≠ t := by rintro rfl; rw [elect_leader_self] at hu'; exact absurd hu' (by simp)
        rw [elect_leader_of_ne hu] at hu'
        exact h.com_nil u hu' }

variable {es : List E}

omit [DecidableEq N] in
theorem ext_append (hl : s.leader t = some n) (hes : ∀ e ∈ es, τ e = t) :
    Ext τ n s (s.append t es) where
  __ := Ext.refl (τ := τ) s n
  hist_grow := fun u => by
    by_cases hu : u = t
    · rw [hu]; exact ⟨es, append_hist_self, fun _ => hes⟩
    · exact ⟨[], by rw [append_hist_of_ne hu, List.append_nil], by simp⟩
  hist_ne := fun u c hc hcn => by
    have hu : u ≠ t := fun hu => by rw [hu, hl] at hc; exact hcn (Option.some.inj hc).symm
    exact append_hist_of_ne hu

omit [DecidableEq N] in
theorem wf_append (h : Wf τ M s) (hl : s.leader t = some n) (hes : ∀ e ∈ es, τ e = t)
    (ht : 0 < t) : Wf τ M (s.append t es) := by
  have hgrow : ∀ u, s.hist u <+: (s.append t es).hist u := (ext_append hl hes).hist_isPrefix
  exact
    { __ := h
      canon_hist := fun u => by
        by_cases hu : u = t
        · subst hu
          intro p hp hne
          rw [append_hist_self] at hp
          rcases Nat.lt_or_ge (s.hist u).length p.length with hlen | hlen
          · -- the prefix reaches into the new entries, so its last term is `u` itself
            obtain ⟨r, rfl⟩ := prefix_of_length_le (List.prefix_append _ es) hp hlen.le
            have hr : r ≠ [] := by rintro rfl; simp at hlen
            have hrs : r <+: es := (List.prefix_append_right_inj _).mp hp
            obtain ⟨e, he, hte⟩ := exists_mem_lastTerm τ hr
            rw [lastTerm_append_of_ne_nil τ _ hr, ← hte, hes e (hrs.subset he), append_hist_self]
            exact hp
          · have hp' : p <+: s.hist u := prefix_of_length_le hp (List.prefix_append _ es) hlen
            exact (h.canon_hist u p hp' hne).trans (hgrow _)
        · rw [append_hist_of_ne hu]
          exact (h.canon_hist u).mono hgrow
      canon_log := fun m => (h.canon_log m).mono hgrow
      canon_cand := fun m u hm => (h.canon_cand m u hm).mono hgrow
      hist_le := fun u e he => by
        by_cases hu : u = t
        · subst hu
          rw [append_hist_self, List.mem_append] at he
          rcases he with he | he
          · exact h.hist_le u e he
          · exact (hes e he).le
        · rw [append_hist_of_ne hu] at he
          exact h.hist_le u e he
      hist_pos := fun u e he => by
        by_cases hu : u = t
        · subst hu
          rw [append_hist_self, List.mem_append] at he
          rcases he with he | he
          · exact h.hist_pos u e he
          · rw [hes e he]; exact ht
        · rw [append_hist_of_ne hu] at he
          exact h.hist_pos u e he
      hist_nil := fun u hu' => by
        have hu : u ≠ t := by rintro rfl; exact absurd (hl.symm.trans hu') (by simp)
        rw [append_hist_of_ne hu]
        exact h.hist_nil u hu'
      ack_le := fun m u => (h.ack_le m u).trans (hgrow u).length_le }

variable {l : List E}

theorem ext_store : Ext τ n s (s.store n l) where
  __ := Ext.refl s n
  log_ne := fun _ hm => Function.update_of_ne hm _ _

theorem wf_store (h : Wf τ M s) (hl : l <+: s.hist (s.term n)) : Wf τ M (s.store n l) where
  __ := h
  canon_log := fun m => by
    by_cases hm : m = n
    · subst hm
      rw [store_log_self]
      exact (h.canon_hist _).of_isPrefix hl
    · rw [store_log_of_ne hm]
      exact h.canon_log m
  log_le := fun m e he => by
    by_cases hm : m = n
    · subst hm
      rw [store_log_self] at he
      exact h.hist_le _ e (hl.subset he)
    · rw [store_log_of_ne hm] at he
      exact h.log_le m e he

variable {k : ℕ}

/-- An acknowledgement is an old one, or the new one. -/
theorem acknowledge_ack (m : N) (u : ℕ) :
    (s.acknowledge n k).ack m u = s.ack m u ∨
      (m = n ∧ u = s.term n ∧ (s.acknowledge n k).ack m u = k) := by
  by_cases hne : m ≠ n ∨ u ≠ s.term n
  · exact Or.inl (acknowledge_ack_of_ne hne)
  · push Not at hne
    obtain ⟨rfl, rfl⟩ := hne
    rw [acknowledge_ack_self]
    rcases le_total (s.ack m (s.term m)) k with hk | hk
    · exact Or.inr ⟨rfl, rfl, max_eq_right hk⟩
    · exact Or.inl (max_eq_left hk)

theorem ext_acknowledge : Ext τ n s (s.acknowledge n k) where
  __ := Ext.refl s n
  ack_ne := fun _ hm => Function.update_of_ne hm _ _
  ack_le := fun m u => by
    by_cases hne : m ≠ n ∨ u ≠ s.term n
    · rw [acknowledge_ack_of_ne hne]
    · push Not at hne
      obtain ⟨rfl, rfl⟩ := hne
      rw [acknowledge_ack_self]
      exact le_max_left _ _

theorem wf_acknowledge (h : Wf τ M s) (hk : k ≤ (s.hist (s.term n)).length) :
    Wf τ M (s.acknowledge n k) where
  __ := h
  ack_le := fun m u => by
    rcases acknowledge_ack (s := s) (n := n) (k := k) m u with ha | ⟨rfl, rfl, ha⟩
    · rw [ha]; exact h.ack_le m u
    · rw [ha]; exact hk
  ack_term := fun m u hne => by
    rcases acknowledge_ack (s := s) (n := n) (k := k) m u with ha | ⟨rfl, rfl, -⟩
    · rw [ha] at hne; exact h.ack_term m u hne
    · exact le_rfl

omit [DecidableEq N] in
theorem ext_commit (hl : s.leader t = some n) (hk : s.com t ≤ k) : Ext τ n s (s.commit t k) where
  __ := Ext.refl s n
  com_le := fun u => by
    by_cases hu : u = t
    · rw [hu, commit_com_self]; exact hk
    · rw [commit_com_of_ne hu]
  com_ne := fun u c hc hcn => by
    have hu : u ≠ t := fun hu => by rw [hu, hl] at hc; exact hcn (Option.some.inj hc).symm
    rw [commit_com_of_ne hu]

omit [DecidableEq N] in
theorem wf_commit (h : Wf τ M s) (hl : s.leader t = some n) : Wf τ M (s.commit t k) where
  __ := h
  com_nil := fun u hu' => by
    have hu : u ≠ t := by rintro rfl; exact absurd (hl.symm.trans hu') (by simp)
    rw [commit_com_of_ne hu]
    exact h.com_nil u hu'

end Moves

end KvStore.Consensus
