import KvStore.Server.Projection

/-!
# Acknowledged writes

`applyCommitted` tells a waiting caller that its write went through when the entry it applies at the
caller's index has the caller's bytes. The entry may still be another one: a leader that was deposed
before its entry got anywhere is told of its success by the same command of its successor.

* `acknowledged_elsewhere`: a run in which that happens.
* `acknowledged_write`: if no two requests with the same bytes are ever given the same index in
  different terms, a write that is acknowledged is committed, as the very entry its caller was
  given.

The proof needs three things of every state: a caller is given at most one entry (`Servers.Fresh`),
a waiter waits for the entry it was given and every acknowledgement was for an entry that some node
had committed (`Servers.Told`), and every entry of every log was given to some request.
-/

namespace KvStore

open Consensus Machine

namespace Servers

variable {ε : Type} {mb : Members} {opts : ℕ → ServerOptions} {S S' T : Servers ε} {n : ℕ}

/-- No two requests with the same bytes are given the same index in different terms. -/
def Distinct (S : Servers ε) : Prop :=
  ∀ p ∈ S.given, ∀ p' ∈ S.given, p.2.index = p'.2.index → p.2.data = p'.2.data →
    p.2.term = p'.2.term

instance (S : Servers ε) : Decidable S.Distinct := by
  unfold Distinct
  infer_instance

/-! ## One entry for a caller -/

/-- The channels of the requests the server has not submitted yet. -/
def waiting (S : Servers ε) (n : ℕ) : List ℕ := (S.servers n).pending.map ProposeRequest.resultCh

/-- Every channel belongs to one request, which is still to be submitted or has been given one
entry. -/
structure Fresh (S : Servers ε) : Prop where
  given_nodup : (S.given.map Prod.fst).Nodup
  given_calls : ∀ ch ∈ S.given.map Prod.fst, ch ∈ S.calls
  waiting_nodup : ∀ n, (S.waiting n).Nodup
  waiting_calls : ∀ n, ∀ ch ∈ S.waiting n, ch ∈ S.calls
  waiting_given : ∀ n, ∀ ch ∈ S.waiting n, ch ∉ S.given.map Prod.fst
  waiting_ne : ∀ n m, n ≠ m → ∀ ch ∈ S.waiting n, ch ∉ S.waiting m

theorem Fresh.unique (h : Fresh S) {ch : ℕ} {e e' : LogEntry} (he : (ch, e) ∈ S.given)
    (he' : (ch, e') ∈ S.given) : e' = e := by
  have := List.inj_on_of_nodup_map h.given_nodup he he' rfl
  exact (Prod.mk.inj this).2.symm

/-- New channels join those that wait at server `n`; some of them are given entries and leave. -/
theorem Fresh.step (h : Fresh S) (new : List ℕ) {batch rest : List ℕ} {g : List (ℕ × LogEntry)}
    (hnodup : new.Nodup) (hnew : ∀ ch ∈ new, ch ∉ S.calls)
    (hsplit : batch ++ rest = S.waiting n ++ new) (hg : (g.map Prod.fst).Sublist batch)
    (hcalls : ∀ ch, ch ∈ S'.calls ↔ ch ∈ new ∨ ch ∈ S.calls) (hgiven : S'.given = S.given ++ g)
    (hn : (S'.waiting n).Sublist rest) (hother : ∀ m, m ≠ n → S'.waiting m = S.waiting m) :
    Fresh S' := by
  have hall : (batch ++ rest).Nodup := by
    rw [hsplit]
    refine List.nodup_append.mpr ⟨h.waiting_nodup n, hnodup, fun a ha b hb hab => ?_⟩
    exact hnew b hb (hab ▸ h.waiting_calls n a ha)
  obtain ⟨hbnodup, hrnodup, hdisj⟩ := List.nodup_append.mp hall
  have hfrom : ∀ ch, ch ∈ batch ∨ ch ∈ rest → ch ∈ S.waiting n ∨ ch ∈ new := fun ch hch => by
    rw [← List.mem_append, ← hsplit, List.mem_append]
    exact hch
  have hold : ∀ ch, ch ∈ batch ∨ ch ∈ rest → ch ∉ S.given.map Prod.fst := fun ch hch hin => by
    rcases hfrom ch hch with hw | hw
    · exact h.waiting_given n ch hw hin
    · exact hnew ch hw (h.given_calls ch hin)
  have hcall : ∀ ch, ch ∈ batch ∨ ch ∈ rest → ch ∈ S'.calls := fun ch hch => by
    rw [hcalls]
    exact (hfrom ch hch).symm.imp_right fun hw => h.waiting_calls n ch hw
  have hfst : S'.given.map Prod.fst = S.given.map Prod.fst ++ g.map Prod.fst := by
    rw [hgiven, List.map_append]
  -- a channel that waits elsewhere has nothing to do with those of server `n`
  have helse : ∀ m, m ≠ n → ∀ ch ∈ S.waiting m, ch ∉ batch ∧ ch ∉ rest := fun m hm ch hch => by
    have hno : ¬(ch ∈ batch ∨ ch ∈ rest) := fun hin => by
      rcases hfrom ch hin with hw | hw
      · exact h.waiting_ne m n hm ch hch hw
      · exact hnew ch hw (h.waiting_calls m ch hch)
    exact not_or.mp hno
  refine ⟨?_, ?_, fun m => ?_, fun m ch hch => ?_, fun m ch hch => ?_, fun m k hmk ch hch => ?_⟩
  · rw [hfst]
    refine List.nodup_append.mpr ⟨h.given_nodup, hbnodup.sublist hg, fun a ha b hb hab => ?_⟩
    exact hold b (Or.inl (hg.subset hb)) (hab ▸ ha)
  · intro ch hch
    rw [hfst, List.mem_append] at hch
    rcases hch with hch | hch
    · exact (hcalls ch).mpr (Or.inr (h.given_calls ch hch))
    · exact hcall ch (Or.inl (hg.subset hch))
  · by_cases hm : m = n
    · rw [hm]
      exact hrnodup.sublist hn
    · rw [hother m hm]
      exact h.waiting_nodup m
  · by_cases hm : m = n
    · rw [hm] at hch
      exact hcall ch (Or.inr (hn.subset hch))
    · rw [hother m hm] at hch
      exact (hcalls ch).mpr (Or.inr (h.waiting_calls m ch hch))
  · rw [hfst, List.mem_append, not_or]
    by_cases hm : m = n
    · rw [hm] at hch
      refine ⟨hold ch (Or.inr (hn.subset hch)), fun hin => ?_⟩
      exact hdisj ch (hg.subset hin) ch (hn.subset hch) rfl
    · rw [hother m hm] at hch
      exact ⟨h.waiting_given m ch hch, fun hin => (helse m hm ch hch).1 (hg.subset hin)⟩
  · by_cases hm : m = n
    · rw [hm] at hch
      have hk : k ≠ n := fun hk => hmk (hm.trans hk.symm)
      rw [hother k hk]
      exact fun hin => (helse k hk ch hin).2 (hn.subset hch)
    · rw [hother m hm] at hch
      by_cases hk : k = n
      · rw [hk]
        exact fun hin => (helse m hm ch hch).2 (hn.subset hin)
      · rw [hother k hk]
        exact h.waiting_ne m k hmk ch hch

/-- A round brings the channel of its event, which is new. -/
theorem Fresh.round (h : Fresh S) {ev : Event} (hsees : S.Sees n ev) {rest : List ProposeRequest}
    (hsplit : (S.servers n).batch ev ++ rest = (S.servers n).pending ++ ev.requests)
    (hcalls : S'.calls = (S.note n ev).calls) (hgiven : S'.given = (S.note n ev).given)
    (hn : (S'.waiting n).Sublist (rest.map ProposeRequest.resultCh))
    (hother : ∀ m, m ≠ n → S'.servers m = S.servers m) : Fresh S' := by
  refine h.step (n := n) (ev.requests.map ProposeRequest.resultCh) ?_ ?_ ?_
    Server.gives_sublist ?_ hgiven hn (fun m hm => ?_)
  · cases ev <;> simp [Event.requests]
  · cases ev with
    | propose req =>
      intro ch hch
      obtain rfl : ch = req.resultCh := by simpa [Event.requests] using hch
      exact hsees.2
    | tick | recv m | readIndex ch | batchTimer | closed | stop => simp [Event.requests]
  · rw [waiting, ← List.map_append, ← List.map_append, hsplit]
  · intro ch
    rw [hcalls]
    cases ev <;> simp [note, Event.requests]
  · rw [waiting, waiting, hother m hm]

/-- The requests a round submits are the first of those that wait. -/
theorem batch_append (s : Server ε) (ev : Event) :
    ∃ rest, s.batch ev ++ rest = s.pending ++ ev.requests := by
  cases ev with
  | propose req =>
    by_cases hfull : ({ s with pending := s.pending ++ [req] } : Server ε).full
    · exact ⟨[], by rw [List.append_nil]; exact if_pos hfull⟩
    · exact ⟨s.pending ++ [req], by rw [Server.batch, if_neg hfull]; rfl⟩
  | batchTimer => exact ⟨[], rfl⟩
  | tick | recv m | readIndex ch | closed | stop => exact ⟨_, rfl⟩

variable [StorageEngine ε]

theorem Fresh.stepped {a : ServersAction ε} (h : Fresh S) (hstep : Stepped mb opts S a S') :
    Fresh S' := by
  cases hstep with
  | idle n ev s hsees hh =>
    cases Server.handled_of_eq hh with
    | idle _ hnode hsent hresults hpending hwaiters =>
      refine h.round hsees hpending rfl rfl ?_ (fun m hm => Function.update_of_ne hm ..)
      simp only [waiting, absorb, Function.update_self]
      exact List.Sublist.refl _
  | pumped n ev s nd rd s' hn hsees hh hp hs =>
    cases Server.handled_of_eq hh with
    | called op _ hrun hnew hmsg hstorage hsent hresults hpending hwaiters =>
      refine h.round hsees hpending rfl rfl ?_ (fun m hm => Function.update_of_ne hm ..)
      rcases s.pumped_cases nd rd with ⟨s₂, hs₂, -⟩ | ⟨s₂, hs₂, -, hset⟩
      · rw [hs] at hs₂
        cases hs₂
      · rw [hs] at hs₂
        cases hs₂
        simp only [waiting, absorb, Function.update_self]
        rw [hset.pending_eq, (s.delivered_frame nd rd).2.2.1]
  | died n e T S' storage ha hk hn hT hr =>
    obtain ⟨nd, snap, s, -, hs, rfl⟩ := restart_cases hr
    have hround : ∀ {ev : Event}, S.Sees n ev → T.calls = (S.note n ev).calls →
        T.given = (S.note n ev).given → (∀ m, m ≠ n → T.servers m = S.servers m) →
        Fresh { T with servers := Function.update T.servers n s } := by
      intro ev hsees hcalls hgiven hother
      obtain ⟨rest, hrest⟩ := batch_append (S.servers n) ev
      refine h.round hsees hrest hcalls hgiven ?_ (fun m hm => ?_)
      · simp only [waiting, Function.update_self, hs.pending_eq, List.map_nil]
        exact List.nil_sublist _
      · simp only [Function.update_of_ne hm]
        exact hother m hm
    cases hT with
    | between =>
      have hsplit : [] ++ S.waiting n = S.waiting n ++ [] := (List.append_nil _).symm
      refine h.step (g := []) [] List.nodup_nil (by simp) hsplit (List.Sublist.refl []) (by simp)
        (List.append_nil _).symm ?_ (fun m hm => ?_)
      · simp only [waiting, Function.update_self, hs.pending_eq, List.map_nil]
        exact List.nil_sublist _
      · simp only [waiting, Function.update_of_ne hm]
    | handling ev s' hsees hh =>
      exact hround hsees rfl rfl fun m hm => Function.update_of_ne hm ..
    | persisting ev s' hsees hh hp =>
      exact hround hsees rfl rfl fun m hm => Function.update_of_ne hm ..
    | cut ev s' k hsees hh => exact hround hsees rfl rfl fun _ _ => rfl
    | pumping ev s' nd rd s'' hsees hh hp hs' =>
      exact hround hsees rfl rfl fun m hm => Function.update_of_ne hm ..

/-! ## What callers are told -/

/-- The caller `ch` was given an entry, and a node had an entry with its index and bytes
committed. -/
def Acked (S : Servers ε) (ch : ℕ) : Prop :=
  ∃ e e', (ch, e) ∈ S.given ∧ e' ∈ S.committed ∧ e' ∈ S.given.map Prod.snd ∧
    e'.index = e.index ∧ e'.data = e.data

/-- A waiter waits at the index of the entry it was given, and who is told of a success is
`Acked`. -/
structure Told (S : Servers ε) : Prop where
  clean : ∀ n, (S.servers n).results = []
  waiters : ∀ n i q, (S.servers n).waiters i = some q →
    ∃ t, (q.resultCh, (⟨t, i, q.data⟩ : LogEntry)) ∈ S.given
  results : ∀ ch, (ch, .ok ()) ∈ S.results → S.Acked ch

omit [StorageEngine ε] in
theorem Acked.mono {ch : ℕ} (h : S.Acked ch) (hgiven : S.given <+: S'.given)
    (hcom : S.committed <+: S'.committed) : S'.Acked ch := by
  obtain ⟨e, e', he, hcommitted, hfrom, hindex, hdata⟩ := h
  exact ⟨e, e', hgiven.subset he, hcom.subset hcommitted, (hgiven.map _).subset hfrom,
    hindex, hdata⟩

omit [StorageEngine ε] in
/-- What a round applies is committed at its node, and was given to some request. -/
theorem Shows.committed_given {c : Cluster} {A : Abs} (h : Shows S c) (hsim : Sim False mb c A)
    (hA : ∀ t, ∀ e ∈ A.hist t, e ∈ S.given.map Prod.snd) (hn : n ∈ mb.ids) {ev : Event}
    (hsees : S.Sees n ev) {s : Server ε} (hh : (S.servers n).handle ev = .ok (s, true)) {nd : Node}
    {rd : Ready} (hp : s.node.persist = some (nd, rd)) {start : ℕ} {es : List LogEntry}
    (hes : nd.r.entries start nd.r.commitIndex = some es) {e : LogEntry} (he : e ∈ es) :
    e ∈ nd.r.committedEntries ∧ e ∈ (S.given ++ (S.servers n).gives ev).map Prod.snd := by
  cases Server.handled_of_eq hh with
  | called op _ hrun hnew hmsg hstorage hsent hresults hpending hwaiters =>
    obtain ⟨c₁, hstep, hnd, -⟩ := h.run hn (h.deliverable hsees hmsg) hrun hstorage hp
    obtain ⟨A₁, hsim₁, hmoves⟩ := hsim.step False.elim hstep
    have hlive := (hsim₁.node n hn).live
    rw [hnd] at hlive
    obtain ⟨hcom, hlog⟩ := hlive.spans.mem_committedEntries hes he
    refine ⟨hcom, ?_⟩
    rw [List.map_append, List.mem_append]
    -- the log is a beginning of a history, and a history has only old entries and those of the call
    have hhist := (hlive.canon_log.prefix_last (List.ne_nil_of_mem hlog)).subset hlog
    rcases hmoves.fresh _ e hhist with ⟨u, hu⟩ | hu
    · exact Or.inl (hA u e hu)
    · refine Or.inr (hnew e ?_)
      rw [← h.nodes]
      exact hu

/-- The second half of a round keeps what callers are told, whether it panics or not. -/
theorem Told.settled (h : Told S) {ev : Event} {s s' : Server ε}
    (hh : (S.servers n).handle ev = .ok (s, true)) {nd : Node} {rd : Ready}
    (hset : Server.Settles nd (s.delivered nd rd) s')
    (hes : ∀ start es, nd.r.entries start nd.r.commitIndex = some es → ∀ e ∈ es,
      e ∈ nd.r.committedEntries ∧ e ∈ (S.given ++ (S.servers n).gives ev).map Prod.snd) :
    Told ({ S.note n ev with committed := S.committed ++ nd.r.committedEntries }.absorb n s') := by
  obtain ⟨-, -, -, hw, hr⟩ := s.delivered_frame nd rd
  cases Server.handled_of_eq hh with
  | called op _ hrun hnew hmsg hstorage hsent hresults hpending hwaiters =>
    have hgiven : ∀ i q, s.waiters i = some q →
        ∃ t, (q.resultCh, (⟨t, i, q.data⟩ : LogEntry)) ∈ S.given ++ (S.servers n).gives ev := by
      intro i q hq
      rcases hwaiters i q hq with hq | ⟨t, ht⟩
      · obtain ⟨t, ht⟩ := h.waiters n i q hq
        exact ⟨t, List.mem_append_left _ ht⟩
      · exact ⟨t, List.mem_append_right _ ht⟩
    refine ⟨fun m => ?_, fun m i q hq => ?_, fun ch hch => ?_⟩
    · by_cases hm : m = n
      · simp only [absorb, hm, Function.update_self]
      · simp only [absorb, Function.update_of_ne hm]
        exact h.clean m
    · by_cases hm : m = n
      · simp only [absorb, hm, Function.update_self] at hq
        have hq' := hset.waiters i q hq
        rw [hw] at hq'
        exact hgiven i q hq'
      · simp only [absorb, Function.update_of_ne hm] at hq
        obtain ⟨t, ht⟩ := h.waiters m i q hq
        exact ⟨t, List.mem_append_left _ ht⟩
    · rcases List.mem_append.mp hch with hold | hnow
      · exact (h.results ch hold).mono (List.prefix_append _ _) (List.prefix_append _ _)
      rcases hset.results ch hnow with hold | ⟨start, es, hread, e, he, q, hq, rfl, hdata⟩
      · rw [hr, hresults, h.clean n] at hold
        cases hold
      · obtain ⟨hcom, hfrom⟩ := hes start es hread e he
        rw [hw] at hq
        obtain ⟨t, ht⟩ := hgiven e.index q hq
        exact ⟨_, e, ht, List.mem_append_right _ hcom, hfrom, rfl, hdata.symm⟩

omit [StorageEngine ε] in
/-- A server that has been started again waits for nothing. -/
theorem Told.restarted (h : Told S) (hother : ∀ m, m ≠ n → T.servers m = S.servers m)
    (hgiven : S.given <+: T.given) (hresults : ∀ ch, (ch, .ok ()) ∈ T.results → T.Acked ch)
    {s : Server ε} {nd : Node} (hs : Started s nd) :
    Told { T with servers := Function.update T.servers n s } where
  clean := fun m => by
    by_cases hm : m = n
    · simp only [hm, Function.update_self, hs.results_eq]
    · simp only [Function.update_of_ne hm, hother m hm]
      exact h.clean m
  waiters := fun m i q hq => by
    by_cases hm : m = n
    · simp only [hm, Function.update_self, hs.waiters_eq] at hq
      cases hq
    · simp only [Function.update_of_ne hm, hother m hm] at hq
      obtain ⟨t, ht⟩ := h.waiters m i q hq
      exact ⟨t, hgiven.subset ht⟩
  results := hresults

theorem Told.stepped {c : Cluster} {A : Abs} {a : ServersAction ε} (h : Told S) (hc : Shows S c)
    (hsim : Sim False mb c A) (hA : ∀ t, ∀ e ∈ A.hist t, e ∈ S.given.map Prod.snd)
    (hstep : Stepped mb opts S a S') : Told S' := by
  cases hstep with
  | idle n ev s hsees hh =>
    cases Server.handled_of_eq hh with
    | idle _ hnode hsent hresults hpending hwaiters =>
      refine ⟨fun m => ?_, fun m i q hq => ?_, fun ch hch => ?_⟩
      · by_cases hm : m = n
        · simp only [absorb, hm, Function.update_self]
        · simp only [absorb, Function.update_of_ne hm]
          exact h.clean m
      · have hq' : (S.servers m).waiters i = some q := by
          by_cases hm : m = n
          · simp only [absorb, hm, Function.update_self, hwaiters] at hq
            rw [hm]
            exact hq
          · simp only [absorb, Function.update_of_ne hm] at hq
            exact hq
        obtain ⟨t, ht⟩ := h.waiters m i q hq'
        exact ⟨t, List.mem_append_left _ ht⟩
      · rcases List.mem_append.mp hch with hold | hnow
        · exact (h.results ch hold).mono (List.prefix_append _ _) List.prefix_rfl
        · have hno := hresults ch hnow
          rw [h.clean n] at hno
          cases hno
  | pumped n ev s nd rd s' hn hsees hh hp hs =>
    rcases s.pumped_cases nd rd with ⟨s₂, hs₂, -⟩ | ⟨s₂, hs₂, -, hset⟩
    · rw [hs] at hs₂
      cases hs₂
    · rw [hs] at hs₂
      cases hs₂
      exact h.settled hh hset fun start es hes e he =>
        hc.committed_given hsim hA hn hsees hh hp hes he
  | died n e T S' storage ha hk hn hT hr =>
    obtain ⟨nd₀, snap, s₀, -, hs₀, rfl⟩ := restart_cases hr
    have hquiet : ∀ {ev : Event} {s : Server ε}, s.results = (S.servers n).results →
        ∀ ch, (ch, .ok ()) ∈ ((S.note n ev).absorb n s).results →
          ((S.note n ev).absorb n s).Acked ch := by
      intro ev s hres ch hch
      rcases List.mem_append.mp hch with hold | hnow
      · exact (h.results ch hold).mono (List.prefix_append _ _) List.prefix_rfl
      · rw [hres, h.clean n] at hnow
        cases hnow
    cases hT with
    | between => exact h.restarted (fun _ _ => rfl) List.prefix_rfl h.results hs₀
    | handling ev s hsees hh =>
      cases Server.handled_of_eq hh with
      | panicked _ hnode hsent hresults =>
        exact h.restarted (fun m hm => Function.update_of_ne hm ..) (List.prefix_append _ _)
          (hquiet hresults) hs₀
    | persisting ev s hsees hh hp =>
      cases Server.handled_of_eq hh with
      | called op _ hrun hnew hmsg hstorage hsent hresults hpending hwaiters =>
        exact h.restarted (fun m hm => Function.update_of_ne hm ..) (List.prefix_append _ _)
          (hquiet hresults) hs₀
    | cut ev s k hsees hh =>
      exact h.restarted (T := S.note n ev) (fun _ _ => rfl) (List.prefix_append _ _)
        (fun ch hch => (h.results ch hch).mono (List.prefix_append _ _) List.prefix_rfl) hs₀
    | pumping ev s nd rd s' hsees hh hp hs =>
      rcases s.pumped_cases nd rd with ⟨s₂, hs₂, -, hset⟩ | ⟨s₂, hs₂, -⟩
      · rw [hs] at hs₂
        cases hs₂
        have hset' := h.settled hh hset fun start es hes e he =>
          hc.committed_given hsim hA hn hsees hh hp hes he
        exact h.restarted (fun m hm => Function.update_of_ne hm ..) (List.prefix_append _ _)
          hset'.results hs₀
      · rw [hs] at hs₂
        cases hs₂

end Servers

/-! ## Acknowledged writes are committed -/

section Main

variable {ε : Type} [StorageEngine ε] {mb : Members} {opts : ℕ → ServerOptions} {eng : ε}
  {S : Servers ε}

theorem Servers.Runs.told {as : List (ServersAction ε)} (h : Servers.Runs mb opts eng as S) :
    S.Fresh ∧ S.Told := by
  have hall : S.Fresh ∧ S.Told ∧ ∃ c A, S.Shows c ∧ Sim False mb c A ∧
      ∀ t, ∀ e ∈ A.hist t, e ∈ S.given.map Prod.snd := by
    refine exec_induct (P := fun _ _ => True) (I := fun S : Servers ε => S.Fresh ∧ S.Told ∧
      ∃ c A, S.Shows c ∧ Sim False mb c A ∧ ∀ t, ∀ e ∈ A.hist t, e ∈ S.given.map Prod.snd)
      (fun S a S' ⟨hfresh, htold, c, A, hc, hsim, hA⟩ _ hstep => ?_) ?_
      (along_of_all (fun _ _ => trivial) _ as) h
    · have hst := Servers.step_cases hstep
      obtain ⟨bs, c', hbs, hc', hal⟩ := hc.projects hst
      obtain ⟨A', hsim', hA'⟩ := hsim.run_creates
        (fun t e he => (hst.given_isPrefix.map Prod.snd).subset (hA t e he)) hal hbs
      exact ⟨hfresh.stepped hst, htold.stepped hc hsim hA hst, c', A', hc', hsim', hA'⟩
    · refine ⟨⟨List.nodup_nil, nofun, fun _ => List.nodup_nil, nofun, nofun, nofun⟩,
        ⟨fun _ => rfl, nofun, nofun⟩, _, _, Servers.shows_init mb opts eng,
          sim_init False mb, nofun⟩
  exact ⟨hall.1, hall.2.1⟩

/-- **An acknowledged write is the caller's own.** If no two requests with the same bytes are given
one index in different terms, a caller that is told of its success was given one entry, and that
entry, with its index and its term, has been committed. -/
theorem acknowledged_write {as : List (ServersAction ε)} (h : Servers.Runs mb opts eng as S)
    (hdist : S.Distinct) {ch : ℕ} (hok : (ch, .ok ()) ∈ S.results) :
    ∃ e, (ch, e) ∈ S.given ∧ e ∈ S.committed ∧ ∀ e', (ch, e') ∈ S.given → e' = e := by
  obtain ⟨hfresh, htold⟩ := h.told
  obtain ⟨e, e', he, hcom, hfrom, hindex, hdata⟩ := htold.results ch hok
  obtain ⟨p, hp, rfl⟩ := List.mem_map.mp hfrom
  -- the entry that was applied has the caller's index and bytes, so it has the caller's term too
  have hterm := hdist p hp _ he hindex hdata
  have heq : p.2 = e := by
    obtain ⟨_, _, _, _⟩ := p
    obtain ⟨_, _, _⟩ := e
    simp only at hindex hdata hterm
    rw [hindex, hdata, hterm]
  rw [heq] at hcom
  exact ⟨e, he, hcom, fun e' he' => hfresh.unique he he'⟩

end Main

/-! ## A write acknowledged by the wrong entry -/

/-- A `Put` of one key and one value. -/
def putOne : Bytes := encodeCommand ⟨cmdPut, [7], [8]⟩

/-- A round that does not die, of a server on a store that does not fail. -/
def roundOf (n : ℕ) (ev : Event) : ServersAction FlakyStore := .round n ev none {}

/-- Node `q` elects node `n`, whose log is empty. -/
def electServer (n q oldTerm newTerm : ℕ) : List (ServersAction FlakyStore) :=
  [roundOf n .tick, roundOf n .tick,
    roundOf q (.recv { type := .preVote, fromId := n, toId := q, term := oldTerm }),
    roundOf n (.recv { type := .preVoteResponse, fromId := q, toId := n, voteGranted := true }),
    roundOf q (.recv { type := .requestVote, fromId := n, toId := q, term := newTerm }),
    roundOf n (.recv { type := .requestVoteResponse, fromId := q, toId := n, term := newTerm,
                       voteGranted := true })]

/-- Node two leads term two, is given the `Put` and commits it with node three. -/
def commitTwo : List (ServersAction FlakyStore) :=
  electServer 2 3 1 2 ++
  [roundOf 2 (.propose ⟨putOne, 200⟩),
    roundOf 3 (.recv { type := .appendEntries, fromId := 2, toId := 3, term := 2,
                       entries := [⟨2, 1, putOne⟩] }),
    roundOf 2 (.recv { type := .appendEntriesResponse, fromId := 3, toId := 2, term := 2,
                       success := true, matchIndex := 1 })]

/-- Without a rival the leader of term two acknowledges its caller's own entry. -/
theorem acknowledged_write_three : ∃ S,
    Servers.Runs .three (fun _ => {}) {} (electServer 1 2 0 1 ++ commitTwo) S ∧ S.Distinct ∧
    (200, .ok ()) ∈ S.results ∧ ∃ e, (200, e) ∈ S.given ∧ e ∈ S.committed := by
  have hrun : ((exec (Servers.step .three fun _ => {}) (Servers.init .three (fun _ => {}) {})
      (electServer 1 2 0 1 ++ commitTwo)).map fun S =>
        decide (S.Distinct ∧ (200, .ok ()) ∈ S.results)) = some true := by
    decide +kernel
  obtain ⟨S, h, hrun⟩ := Option.map_eq_some_iff.mp hrun
  obtain ⟨hdist, hok⟩ := of_decide_eq_true hrun
  obtain ⟨e, he, hcom, -⟩ := acknowledged_write h hdist hok
  exact ⟨S, h, hdist, hok, e, he, hcom⟩

/-- Node one leads term one and is given the same `Put`, which reaches nobody. It then learns of
node two's term, entry and commit. -/
def sameBytesRun : List (ServersAction FlakyStore) :=
  electServer 1 2 0 1 ++ [roundOf 1 (.propose ⟨putOne, 100⟩)] ++ commitTwo ++
  [roundOf 1 (.recv { type := .appendEntries, fromId := 2, toId := 1, term := 2,
                      entries := [⟨2, 1, putOne⟩] }),
    roundOf 2 .tick,
    roundOf 1 (.recv { type := .appendEntries, fromId := 2, toId := 1, term := 2, prevLogIndex := 1,
                       prevLogTerm := 2, leaderCommit := 1 })]

/-- **A caller is told of another's success.** Caller one hundred was given index one in term one.
It is told that its write went through, and what was committed at that index is the entry of term
two. -/
theorem acknowledged_elsewhere : ∃ S, Servers.Runs .three (fun _ => {}) {} sameBytesRun S ∧
    (100, .ok ()) ∈ S.results ∧ (100, (⟨1, 1, putOne⟩ : LogEntry)) ∈ S.given ∧
    (⟨1, 1, putOne⟩ : LogEntry) ∉ S.committed ∧ (⟨2, 1, putOne⟩ : LogEntry) ∈ S.committed := by
  have hrun : ((exec (Servers.step .three fun _ => {}) (Servers.init .three (fun _ => {}) {})
      sameBytesRun).map fun S => decide ((100, .ok ()) ∈ S.results ∧
        (100, (⟨1, 1, putOne⟩ : LogEntry)) ∈ S.given ∧
        (⟨1, 1, putOne⟩ : LogEntry) ∉ S.committed ∧ (⟨2, 1, putOne⟩ : LogEntry) ∈ S.committed)) =
      some true := by
    decide +kernel
  obtain ⟨S, h, hrun⟩ := Option.map_eq_some_iff.mp hrun
  exact ⟨S, h, of_decide_eq_true hrun⟩

end KvStore
