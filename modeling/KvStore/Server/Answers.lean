import KvStore.Server.Replicas

/-!
# What the answers mean

A caller of `Put` or `Delete` is told one of several things: that its write went through, that the
server has stopped, an error of the node, that its proposal was superseded, or an error of the
application of its entry. Each of them says something about what has become of the request and what
will become of it.

* `Servers.Dismissed`: the request is not an entry of any log, and no server has it to submit.
* `Servers.Reported`: an entry has been committed at the index of the request's entry, and the
  caller is told what `applyCommitted` makes of the two.
* `Servers.Recorded`: what has been recorded as committed is committed, in runs that process no
  unsafe snapshot. In contrast to `Servers.Faithful` the engines may do what they like.
* `answers_final`: which answer means which of the two, and that a write whose caller is told to try
  again, or that the server has turned it down, is not and will not be in the committed log.
-/

namespace KvStore

open Consensus Machine

namespace Server

variable {ε : Type} {s s₀ s' : Server ε} {ev : Event} {nd : Node} {rd : Ready} {p : ℕ × ApplyResult}

/-! ## Requests that are turned down -/

/-- A round that answers without a call of `pump` answers requests that it has given no entry, and
keeps none of them unless it is the last. -/
structure Refuses (s₀ : Server ε) (ev : Event) (s : Server ε) (p : ℕ × ApplyResult) : Prop where
  gives : s₀.gives ev = []
  asked : p.1 ∈ (s₀.pending ++ ev.requests).map ProposeRequest.resultCh
  left : s.pending = [] ∨ s.stopped = true
  result : p.2 = .error .stopped ∨ ∃ e, p.2 = .error (.raft e)

theorem submitBatch_refuses (h : s.submitBatch (s₀.batch ev) = .ok (s', false))
    (hbatch : s₀.batch ev = s₀.pending ++ ev.requests) (hnode : s.node = s₀.node)
    (hpending : s.pending = []) (hresults : s.results = []) (hp : p ∈ s'.results) :
    Refuses s₀ ev s' p := by
  unfold submitBatch at h
  split_ifs at h with hnil
  · cases h
    rw [hresults] at hp
    cases hp
  rcases s.orPanic_cases (s.node.r.proposeBatch ((s₀.batch ev).map ProposeRequest.data)) with
    ⟨-, hpanic⟩ | ⟨⟨r, res⟩, hrun, hok⟩
  · rw [hpanic] at h
    cases h
  rw [hok] at h
  cases res with
  | ok indices => cases h
  | error e =>
    cases h
    rw [hnode] at hrun
    have hp' : p ∈ s.results ++ (s₀.batch ev).map fun q => (q.resultCh, .error (.raft e)) := hp
    rw [hresults, List.nil_append] at hp'
    obtain ⟨q, hq, rfl⟩ := List.mem_map.mp hp'
    refine ⟨?_, ?_, Or.inl hpending, Or.inr ⟨e, rfl⟩⟩
    · rw [gives, hrun]
    · rw [← hbatch]
      exact List.mem_map_of_mem hq

theorem gives_of_batch (h : s₀.batch ev = []) : s₀.gives ev = [] := by
  have hsub : ((s₀.gives ev).map Prod.fst).Sublist ((s₀.batch ev).map ProposeRequest.resultCh) :=
    gives_sublist
  rw [h] at hsub
  exact List.map_eq_nil_iff.mp (List.sublist_nil.mp hsub)

/-- **Who is answered without a call of `pump`.** -/
theorem handle_refuses (h : s₀.handle ev = .ok (s, false)) (hresults : s₀.results = [])
    (hp : p ∈ s.results) : Refuses s₀ ev s p := by
  have hquiet : ∀ {s₁ : Server ε}, s₁.results = s₀.results → p ∉ s₁.results := by
    intro s₁ h₁ hp₁
    rw [h₁, hresults] at hp₁
    cases hp₁
  -- what `failPending` tells everyone who waits
  have hfails : ∀ {s₁ : Server ε}, s₀.batch ev = [] → s₁.stopped = true →
      s₁.results = s₀.results ++ s₀.pending.map (fun q => (q.resultCh, .error .stopped)) →
        p ∈ s₁.results →
      Refuses s₀ ev s₁ p := by
    intro s₁ hbatch hstopped h₁ hp₁
    rw [h₁, hresults, List.nil_append] at hp₁
    obtain ⟨q, hq, rfl⟩ := List.mem_map.mp hp₁
    exact ⟨gives_of_batch hbatch, List.mem_map_of_mem (List.mem_append_left _ hq), Or.inr hstopped,
      Or.inl rfl⟩
  cases ev with
  | tick =>
    rcases s₀.orPanic_cases s₀.node.r.tick with ⟨-, hpanic⟩ | ⟨r, -, hok⟩
    · rw [handle, hpanic] at h
      cases h
    · rw [handle, hok] at h
      cases h
  | recv m =>
    rcases s₀.orPanic_cases (s₀.node.r.step m) with ⟨-, hpanic⟩ | ⟨r, -, hok⟩
    · rw [handle, hpanic] at h
      cases h
    · rw [handle, hok] at h
      cases h
  | propose req =>
    unfold handle at h
    dsimp only at h
    by_cases hfull : ({ s₀ with pending := s₀.pending ++ [req] } : Server ε).full
    · rw [if_pos hfull] at h
      have hb : s₀.batch (.propose req) = s₀.pending ++ [req] := if_pos hfull
      rw [← hb] at h
      exact submitBatch_refuses h hb rfl rfl hresults hp
    · rw [if_neg hfull] at h
      split_ifs at h
      · cases h
        exact absurd hp (hquiet rfl)
      · cases h
        exact absurd hp (hquiet rfl)
  | readIndex ch =>
    unfold handle at h
    dsimp only at h
    rcases ({ s₀ with nextReadCtx := s₀.nextReadCtx + 1 } : Server ε).orPanic_cases
      (s₀.node.r.requestReadIndex s₀.nextReadCtx) with ⟨-, hpanic⟩ | ⟨⟨r, res⟩, -, hok⟩
    · rw [hpanic] at h
      cases h
    rw [hok] at h
    cases res with
    | error e =>
      cases h
      exact absurd hp (hquiet rfl)
    | ok u => cases h
  | batchTimer =>
    have hb : s₀.batch .batchTimer = s₀.pending ++ Event.batchTimer.requests :=
      (List.append_nil _).symm
    exact submitBatch_refuses (s := { s₀ with pending := [], batchTimer := false }) h hb rfl rfl
      hresults hp
  | closed =>
    cases h
    exact hfails rfl rfl rfl hp
  | stop =>
    cases h
    exact hfails rfl rfl rfl hp

/-! ## Requests whose index has been applied -/

/-- What `applyCommitted` says to the caller that waits at the index of an entry it applies. -/
def verdict (batchErr : Option EngineError) (data : Bytes) (e : LogEntry) : ApplyResult :=
  if data ≠ e.data then .error .superseded else resultFor batchErr e

/-- The answer is the verdict on an entry of `nd` at or below its commit index, told to who waits
there. -/
def Tells (nd : Node) (w : ℕ → Option ProposeRequest) (p : ℕ × ApplyResult) : Prop :=
  ∃ start es, nd.r.entries start nd.r.commitIndex = some es ∧ ∃ e ∈ es, ∃ q batchErr,
    w e.index = some q ∧ p = (q.resultCh, verdict batchErr q.data e)

theorem settle_tells {batchErr : Option EngineError} {e : LogEntry}
    (hp : p ∈ (s.settle batchErr e).results) : p ∈ s.results ∨ ∃ q, s.waiters e.index = some q ∧
      p = (q.resultCh, verdict batchErr q.data e) := by
  unfold settle at hp
  dsimp only at hp
  split at hp
  · exact Or.inl hp
  · next q hq =>
    rcases List.mem_append.mp hp with hp | hp
    · exact Or.inl hp
    · exact Or.inr ⟨q, hq, List.mem_singleton.mp hp⟩

theorem foldl_settle_tells {start : ℕ} {es es' : List LogEntry}
    (hes : nd.r.entries start nd.r.commitIndex = some es) (batchErr : Option EngineError)
    (hsub : ∀ e ∈ es', e ∈ es) (hp : p ∈ (es'.foldl (settle batchErr) s).results) :
    p ∈ s.results ∨ Tells nd s.waiters p := by
  induction es' generalizing s with
  | nil => exact Or.inl hp
  | cons e es' ih =>
    have he : e ∈ es := hsub e List.mem_cons_self
    rw [List.foldl_cons] at hp
    rcases ih (fun e' he' => hsub e' (List.mem_cons_of_mem _ he')) hp with
      hp | ⟨i, es₁, hes₁, e₁, he₁, q, b, hq, rfl⟩
    · rcases settle_tells hp with hp | ⟨q, hq, hpq⟩
      · exact Or.inl hp
      · exact Or.inr ⟨start, es, hes, e, he, q, batchErr, hq, hpq⟩
    · -- who waits after a verdict has waited before it
      exact Or.inr ⟨i, es₁, hes₁, e₁, he₁, q, b, (Settles.settle hes he batchErr s).waiters _ q hq,
        rfl⟩

variable [StorageEngine ε]

theorem applyCommitted_tells (h : s.applyCommitted = .ok s') (hp : p ∈ s'.results) :
    p ∈ s.results ∨ Tells s.node s.waiters p := by
  unfold applyCommitted at h
  split_ifs at h
  · cases h
    exact Or.inl hp
  rcases s.orPanic_cases (s.node.r.entries s.lastApplied s.node.r.commitIndex) with
    ⟨-, hpanic⟩ | ⟨es, hes, hok⟩
  · rw [hpanic] at h
    cases h
  rw [hok] at h
  cases h
  unfold applyEntries at hp
  split_ifs at hp
  · exact Or.inl hp
  · have htells := foldl_settle_tells hes _ (fun _ he => he) hp
    exact htells

theorem maybeSnapshot_results (h : s.maybeSnapshot = .ok s') : s'.results = s.results := by
  unfold maybeSnapshot at h
  split_ifs at h
  iterate 3
    · cases h
      rfl
  split at h
  · cases h
    rfl
  · next data hdata =>
    rcases s.orPanic_cases (s.node.r.createSnapshot s.lastApplied data) with
      ⟨-, hpanic⟩ | ⟨⟨r, err⟩, -, hok⟩
    · rw [hpanic] at h
      cases h
    rw [hok] at h
    cases err <;> cases h <;> rfl

/-- **Who is answered by the second half of a round**, whether it panics or not. -/
theorem pumped_tells (h : s.pumped nd rd = .ok s' ∨ s.pumped nd rd = .error s')
    (hp : p ∈ s'.results) : p ∈ s.results ∨ Tells nd s.waiters p := by
  have hpump : s.pumped nd rd = (s.delivered nd rd).applyCommitted.bind fun s =>
      s.maybeSnapshot.bind fun s => .ok (rd.readStates.foldl resolveRead s) := rfl
  obtain ⟨hnode, -, -, hwaiters, hresults⟩ := s.delivered_frame nd rd
  rw [hpump] at h
  rcases (s.delivered nd rd).applyCommitted_cases with happ | ⟨s₁, happ, -, -⟩
  · -- `applyCommitted` panics before it has told anyone anything
    rw [happ] at h
    rcases h with h | h
    · cases h
    · cases h
      rw [hresults] at hp
      exact Or.inl hp
  rw [happ, Except.bind] at h
  have htells : p ∈ s₁.results → p ∈ s.results ∨ Tells nd s.waiters p := fun hp₁ => by
    have := applyCommitted_tells happ hp₁
    rwa [hresults, hnode, hwaiters] at this
  rcases s₁.maybeSnapshot_cases with hsnap | ⟨s₂, hsnap, -, -⟩
  · rw [hsnap] at h
    rcases h with h | h
    · cases h
    · cases h
      exact htells hp
  · rw [hsnap] at h
    rcases h with h | h
    · cases h
      obtain ⟨ps, rs, heq, -⟩ := foldl_resolveRead_eq rd.readStates s₂
      rw [heq] at hp
      refine htells ?_
      rw [← maybeSnapshot_results hsnap]
      exact hp
    · cases h

end Server

namespace Servers

variable {ε : Type} {mb : Members} {opts : ℕ → ServerOptions} {S S' : Servers ε} {c : Cluster}
    {A : Abs} {n ch : ℕ}
  {ev : Event} {a : ServersAction ε} {p : ℕ × ApplyResult} {s s' : Server ε} {nd : Node}
    {rd : Ready}

/-- The request is not an entry of any log, and only a server that has stopped may still have it. -/
structure Dismissed (S : Servers ε) (ch : ℕ) : Prop where
  called : ch ∈ S.calls
  not_given : ch ∉ S.given.map Prod.fst
  stopped : ∀ n, ch ∈ S.waiting n → (S.servers n).stopped = true

/-- An entry has been committed at the index of the entry that the request was given, and the answer
is the verdict on it. -/
def Reported (S : Servers ε) (p : ℕ × ApplyResult) : Prop :=
  ∃ e e' batchErr, (p.1, e) ∈ S.given ∧ e' ∈ S.committed ∧ e'.index = e.index ∧
    p.2 = Server.verdict batchErr e.data e'

/-- What an answer stands for. -/
def Means (S : Servers ε) (p : ℕ × ApplyResult) : Prop :=
  (S.Dismissed p.1 ∧ (p.2 = .error .stopped ∨ ∃ e, p.2 = .error (.raft e))) ∨ S.Reported p

/-- What an answer says about the request, in the state in which it has been given and in a later
one. A success: the bytes of the request have been committed at its index, and they are a command.
An error of the server or its node: the request is not an entry of any log. A proposal that was
superseded: other bytes have been committed at its index, and its own entry is not. Another error:
the engine has not taken what has been committed. -/
def Certain (S S' : Servers ε) (ch : ℕ) : ApplyResult → Prop
  | .ok () => ∃ e e' cmd, (ch, e) ∈ S.given ∧ e' ∈ S.committed ∧ e'.index = e.index ∧
      e'.data = e.data ∧ decodeAndValidateCommand e' = .ok cmd
  | .error .stopped | .error (.raft _) => ∀ e, (ch, e) ∉ S'.given
  | .error .superseded => ∃ e e', (ch, e) ∈ S.given ∧ e' ∈ S.committed ∧ e'.index = e.index ∧
      e'.data ≠ e.data ∧ e ∉ S'.committed
  | .error (.malformed i) | .error (.unknownCommand _ i) | .error (.applying i _) =>
    ∃ e e', (ch, e) ∈ S.given ∧ e' ∈ S.committed ∧ e'.index = i ∧ e.index = i ∧ e'.data = e.data

theorem Reported.mono (h : S.Reported p) (hgiven : S.given ⊆ S'.given)
    (hcom : S.committed ⊆ S'.committed) : S'.Reported p := by
  obtain ⟨e, e', batchErr, he, he', hrest⟩ := h
  exact ⟨e, e', batchErr, hgiven he, hcom he', hrest⟩

/-- What a verdict says, if an entry that lost its index is not committed later either. -/
theorem Reported.certain {res : ApplyResult} (h : S.Reported (ch, res))
    (hlost : ∀ e, ∀ e' ∈ S.committed, e'.index = e.index → e'.data ≠ e.data → e ∉ S'.committed) :
    S.Certain S' ch res := by
  obtain ⟨e, e', batchErr, he, he', hindex, rfl⟩ := h
  unfold Server.verdict
  split_ifs with hdata
  · exact ⟨e, e', he, he', hindex, Ne.symm hdata, hlost e e' he' hindex (Ne.symm hdata)⟩
  have hdata' : e'.data = e.data := (not_not.mp hdata).symm
  unfold Server.resultFor
  cases hdec : decodeAndValidateCommand e' with
  | error err =>
    unfold decodeAndValidateCommand at hdec
    split at hdec
    · cases hdec
      exact ⟨e, e', he, he', rfl, hindex.symm, hdata'⟩
    · split_ifs at hdec
      cases hdec
      exact ⟨e, e', he, he', rfl, hindex.symm, hdata'⟩
  | ok cmd =>
    cases batchErr with
    | none => exact ⟨e, e', cmd, he, he', hindex, hdata', hdec⟩
    | some err => exact ⟨e, e', he, he', rfl, hindex.symm, hdata'⟩

/-! ## The requests of a round -/

/-- The channels of the requests that server `n` has in a round. -/
def asking (S : Servers ε) (n : ℕ) (ev : Event) : List ℕ :=
  ((S.servers n).pending ++ ev.requests).map ProposeRequest.resultCh

theorem mem_asking : ch ∈ S.asking n ev ↔ ch ∈ S.waiting n ∨
    ch ∈ ev.requests.map ProposeRequest.resultCh := by
  rw [asking, List.map_append, List.mem_append, waiting]

theorem gives_subset_asking : ((S.servers n).gives ev).map Prod.fst ⊆ S.asking n ev := by
  obtain ⟨rest, hrest⟩ := batch_append (S.servers n) ev
  rw [asking, ← hrest, List.map_append]
  exact List.subset_append_of_subset_left _ Server.gives_sublist.subset

/-- The channel of an event is new. -/
theorem Sees.not_called (h : S.Sees n ev) (hch : ch ∈ ev.requests.map ProposeRequest.resultCh) :
    ch ∉ S.calls := by
  cases ev with
  | propose req =>
    obtain rfl : ch = req.resultCh := by simpa [Event.requests] using hch
    exact h.2
  | tick | recv m | readIndex i | batchTimer | closed | stop => simp [Event.requests] at hch

theorem mem_note_calls : ch ∈ (S.note n ev).calls ↔ ch ∈ ev.requests.map ProposeRequest.resultCh ∨
    ch ∈ S.calls := by
  cases ev <;> simp [note, Event.requests]

/-- The requests of a round have not been given an entry, and no other server has them. -/
theorem Fresh.apart (h : Fresh S) (hsees : S.Sees n ev) (hch : ch ∈ S.asking n ev) :
    ch ∉ S.given.map Prod.fst ∧ ∀ m, m ≠ n → ch ∉ S.waiting m := by
  rcases mem_asking.mp hch with hold | hnew
  · exact ⟨h.waiting_given n ch hold, fun m hm hin => h.waiting_ne n m hm.symm ch hold hin⟩
  · have hcalls := hsees.not_called hnew
    exact ⟨fun hin => hcalls (h.given_calls ch hin), fun m _ hin =>
      hcalls (h.waiting_calls m ch hin)⟩

theorem Fresh.asking_called (h : Fresh S) (hch : ch ∈ S.asking n ev) : ch ∈ (S.note n ev).calls :=
  mem_note_calls.mpr ((mem_asking.mp hch).symm.imp_right fun hold => h.waiting_calls n ch hold)

/-- A server that sees an event has not stopped, so it does not have a request that is dismissed. -/
theorem Dismissed.not_asking (h : S.Dismissed ch) (hsees : S.Sees n ev) : ch ∉ S.asking n ev := by
  intro hch
  rcases mem_asking.mp hch with hold | hnew
  · have hstopped := h.stopped n hold
    rw [hsees.1.1] at hstopped
    cases hstopped
  · exact hsees.not_called hnew h.called

/-! ## What a round answers -/

/-- A request that a round turns down is dismissed. -/
theorem dismissed_of_refuses (hfresh : Fresh S) (hsees : S.Sees n ev)
    (h : Server.Refuses (S.servers n) ev s p) : ((S.note n ev).absorb n s).Dismissed p.1 := by
  have hasked : p.1 ∈ S.asking n ev := h.asked
  obtain ⟨hnot, hothers⟩ := hfresh.apart hsees hasked
  refine ⟨hfresh.asking_called hasked, ?_, fun m hm => ?_⟩
  · show p.1 ∉ (S.given ++ (S.servers n).gives ev).map Prod.fst
    rw [h.gives, List.append_nil]
    exact hnot
  · by_cases hmn : m = n
    · subst hmn
      simp only [waiting, absorb, Function.update_self] at hm ⊢
      rcases h.left with hnil | hstopped
      · rw [hnil] at hm
        cases hm
      · exact hstopped
    · simp only [waiting, absorb, Function.update_of_ne hmn] at hm
      exact absurd hm (hothers m hmn)

/-- The verdict on an entry that a round applies. -/
theorem reported_of_tells {l : List LogEntry} {b : ℕ} (htold : Told S)
    (hh : (S.servers n).handle ev = .ok (s, true)) (hsp : Spans nd.r l b)
    (h : Server.Tells nd s.waiters p) :
    ({ S.note n ev with committed := S.committed ++ nd.r.committedEntries }.absorb n s').Reported
      p := by
  obtain ⟨start, es, hes, e, he, q, batchErr, hq, rfl⟩ := h
  obtain ⟨t, ht⟩ : ∃ t, (q.resultCh, (⟨t, e.index, q.data⟩ : LogEntry)) ∈ S.given ++
      (S.servers n).gives ev := by
    cases Server.handled_of_eq hh with
    | called op _ hrun hnew hmsg hstorage hsent hresults hpending hwaiters =>
      rcases hwaiters _ q hq with hold | ⟨t, ht⟩
      · obtain ⟨t, ht⟩ := htold.waiters n _ q hold
        exact ⟨t, List.mem_append_left _ ht⟩
      · exact ⟨t, List.mem_append_right _ ht⟩
  exact ⟨_, e, batchErr, ht, List.mem_append_right _ (hsp.mem_committedEntries hes he).1, rfl, rfl⟩

/-- What a round that calls `pump` has to say, it says after `Persist`. -/
theorem Told.handle_results (h : Told S) (hh : (S.servers n).handle ev = .ok (s, true)) :
    s.results = [] := by
  cases Server.handled_of_eq hh with
  | called op _ hrun hnew hmsg hstorage hsent hresults hpending hwaiters => rw [hresults, h.clean]

variable [StorageEngine ε]

/-! ## A request that is dismissed stays so -/

/-- **What a step does to requests**: a round of one server takes those of its event, gives entries
to some of the ones it has and keeps others; a crash forgets them. -/
theorem Stepped.requests (h : Stepped mb opts S a S') :
    ∃ n, (∀ m, m ≠ n → S'.servers m = S.servers m) ∧
    ((S'.calls = S.calls ∧ S'.given = S.given ∧ S'.waiting n = []) ∨
      ∃ ev, S.Sees n ev ∧ S'.calls = (S.note n ev).calls ∧ S'.given = (S.note n ev).given ∧
        S'.waiting n ⊆ S.asking n ev) := by
  have hkeeps : ∀ {n : ℕ} {ev : Event} {T : Servers ε} {s : Server ε},
      (S.servers n).batch ev ++ s.pending = (S.servers n).pending ++ ev.requests →
      (T.absorb n s).waiting n ⊆ S.asking n ev := by
    intro n ev T s hpending
    rw [asking, ← hpending, List.map_append]
    simp only [waiting, absorb, Function.update_self]
    exact List.subset_append_right _ _
  cases h with
  | idle n ev s hsees hh =>
    refine ⟨n, fun m hm => Function.update_of_ne hm .., Or.inr ⟨ev, hsees, rfl, rfl, ?_⟩⟩
    cases Server.handled_of_eq hh with
    | idle _ hnode hsent hresults hpending hwaiters => exact hkeeps hpending
  | pumped n ev s nd rd s' hn hsees hh hp hs =>
    refine ⟨n, fun m hm => Function.update_of_ne hm .., Or.inr ⟨ev, hsees, rfl, rfl, ?_⟩⟩
    cases Server.handled_of_eq hh with
    | called op _ hrun hnew hmsg hstorage hsent hresults hpending hwaiters =>
      rcases s.pumped_cases nd rd with ⟨s₂, hs₂, -⟩ | ⟨s₂, hs₂, -, hset⟩
      · rw [hs] at hs₂
        cases hs₂
      rw [hs] at hs₂
      cases hs₂
      refine hkeeps ?_
      rw [hset.pending_eq, (s.delivered_frame nd rd).2.2.1]
      exact hpending
  | died n e T S' storage ha hk hn hT hr =>
    obtain ⟨nd, snap, s, -, hs, rfl⟩ := restart_cases hr
    have hwaiting : ({ T with servers := Function.update T.servers n s } : Servers ε).waiting n =
        [] := by
      simp only [waiting, Function.update_self, hs.pending_eq, List.map_nil]
    refine ⟨n, fun m hm => ?_, ?_⟩
    · simp only [Function.update_of_ne hm, hT.servers_of_ne hm]
    · rw [hwaiting]
      cases hT with
      | between => exact Or.inl ⟨rfl, rfl, rfl⟩
      | handling ev s' hsees hh => exact Or.inr ⟨ev, hsees, rfl, rfl, List.nil_subset _⟩
      | persisting ev s' hsees hh hp => exact Or.inr ⟨ev, hsees, rfl, rfl, List.nil_subset _⟩
      | cut ev s' k hsees hh => exact Or.inr ⟨ev, hsees, rfl, rfl, List.nil_subset _⟩
      | pumping ev s' nd' rd s'' hsees hh hp hs' =>
        exact Or.inr ⟨ev, hsees, rfl, rfl, List.nil_subset _⟩

theorem Dismissed.stepped (h : S.Dismissed ch) (hstep : Stepped mb opts S a S') :
    S'.Dismissed ch := by
  obtain ⟨n, hother, hcases⟩ := hstep.requests
  have hstopped : ch ∉ S'.waiting n → ∀ m, ch ∈ S'.waiting m → (S'.servers m).stopped = true := by
    intro hno m hm
    by_cases hmn : m = n
    · rw [hmn] at hm
      exact absurd hm hno
    · rw [waiting, hother m hmn] at hm
      rw [hother m hmn]
      exact h.stopped m hm
  rcases hcases with ⟨hcalls, hgiven, hwaiting⟩ | ⟨ev, hsees, hcalls, hgiven, hwaiting⟩
  · refine ⟨by rw [hcalls]; exact h.called, by rw [hgiven]; exact h.not_given, hstopped ?_⟩
    rw [hwaiting]
    exact List.not_mem_nil
  · have hno := h.not_asking hsees
    refine ⟨?_, fun hin => ?_, hstopped fun hin => hno (hwaiting hin)⟩
    · rw [hcalls]
      exact mem_note_calls.mpr (Or.inr h.called)
    · rw [hgiven] at hin
      have hin' : ch ∈ (S.given ++ (S.servers n).gives ev).map Prod.fst := hin
      rw [List.map_append, List.mem_append] at hin'
      rcases hin' with hin' | hin'
      · exact h.not_given hin'
      · exact hno (gives_subset_asking hin')

theorem Means.stepped (h : S.Means p) (hstep : Stepped mb opts S a S') : S'.Means p := by
  rcases h with ⟨hd, hres⟩ | hr
  · exact Or.inl ⟨hd.stepped hstep, hres⟩
  · exact Or.inr (hr.mono hstep.given_isPrefix.subset hstep.committed_subset)

/-! ## What is recorded as committed -/

/-- The nodes show a state of the protocol in its safe half, and what has been recorded is committed
there. -/
structure Recorded (mb : Members) (S : Servers ε) (c : Cluster) (A : Abs) : Prop where
  shows : Shows S c
  sim : Sim True mb c A
  committed : ∀ e ∈ S.committed, ∃ K, Decided A K ∧ e ∈ K

namespace Recorded

omit [StorageEngine ε] in
/-- One entry at an index. -/
theorem unique (h : Recorded mb S c A) {e e' : LogEntry} (he : e ∈ S.committed)
    (he' : e' ∈ S.committed) (hindex : e'.index = e.index) : e' = e := by
  obtain ⟨K, hK, heK⟩ := h.committed e he
  obtain ⟨K', hK', heK'⟩ := h.committed e' he'
  have hidx := h.sim.good.indexed_decided hK
  have hmem : e' ∈ K := h.sim.good.mem_decided hK hK' heK' (by rw [hindex]; exact hidx.index_le heK)
  exact hidx.eq_of_index heK hmem hindex

omit [StorageEngine ε] in
/-- What a node has at or below its commit index is committed. -/
theorem decided_committedEntries {A₁ : Abs} (hok : NodeOk True mb A₁ n nd) {e : LogEntry}
    (he : e ∈ nd.r.committedEntries) : ∃ K, Decided A₁ K ∧ e ∈ K := by
  rw [hok.live.spans.committedEntries_eq] at he
  exact ⟨_, .of_backed (hok.live.secure trivial).commit, List.mem_of_mem_drop he⟩

theorem of_eq (h : Recorded mb S c A) (ha : a.Safe S) (hstep : Stepped mb opts S a S')
    (hcom : S'.committed = S.committed) : ∃ c' A', Recorded mb S' c' A' := by
  obtain ⟨bs, c', hbs, hshows, hal⟩ := h.shows.projectsTo (permits_safe h.shows ha) hstep
  obtain ⟨A', hsim, hgrows⟩ := h.sim.run (along_of_imp (fun _ _ hsafe _ => hsafe) hal) hbs
  refine ⟨c', A', hshows, hsim, fun e he => ?_⟩
  obtain ⟨K, hK, heK⟩ := h.committed e (hcom ▸ he)
  exact ⟨K, hK.grows hgrows, heK⟩

omit [StorageEngine ε] in
theorem committed_append (h : Recorded mb S c A) {A₁ : Abs} (hok : NodeOk True mb A₁ n nd)
    (hgrows : Grows LogEntry.term A A₁) :
    ∀ e ∈ S.committed ++ nd.r.committedEntries, ∃ K, Decided A₁ K ∧ e ∈ K := by
  intro e he
  rcases List.mem_append.mp he with he | he
  · obtain ⟨K, hK, heK⟩ := h.committed e he
    exact ⟨K, hK.grows hgrows, heK⟩
  · exact decided_committedEntries hok he

omit [StorageEngine ε] in
/-- The call of a round and its `Persist`, in the protocol. -/
theorem persists (h : Recorded mb S c A) (hn : n ∈ mb.ids) {recovered : ε} {cut : Option ℕ}
    (ha : (ServersAction.round n ev cut recovered).Safe S) (hsees : S.Sees n ev)
    (hh : (S.servers n).handle ev = .ok (s, true)) (hp : s.node.persist = some (nd, rd)) :
    ∃ c₁ A₁, Sim True mb c₁ A₁ ∧ Grows LogEntry.term A A₁ ∧ c₁.nodes n = nd ∧
      c₁.net = c.net ++ rd.messages ∧ ∀ m, m ≠ n → c₁.nodes m = c.nodes m := by
  cases Server.handled_of_eq hh with
  | called op _ hrun hnew hmsg hstorage hsent hresults hpending hwaiters =>
    obtain ⟨c₁, hstep, hnd, hnet, hoth⟩ :=
      h.shows.run hn (h.shows.deliverable hsees hmsg) hrun hstorage hp
    have hsafe : (Action.run n op none).Safe c :=
      (permits_safe h.shows ha).run ev rfl op none hmsg hnew
    obtain ⟨A₁, hsim, hmoves⟩ := h.sim.step (fun _ => hsafe) hstep
    exact ⟨c₁, A₁, hsim, hmoves.toGrows, hnd, hnet, hoth⟩

/-- A round that does not panic. -/
theorem pumped (h : Recorded mb S c A) (hn : n ∈ mb.ids) {recovered : ε} {cut : Option ℕ}
    (ha : (ServersAction.round n ev cut recovered).Safe S) (hsees : S.Sees n ev)
    (hh : (S.servers n).handle ev = .ok (s, true)) (hp : s.node.persist = some (nd, rd))
    (hs : s.pumped nd rd = .ok s') : ∃ c' A', Recorded mb
      ({ S.note n ev with committed := S.committed ++ nd.r.committedEntries }.absorb n s')
        c' A' := by
  obtain ⟨op, c₁, c', hmsg, hnew, hstep, hnd, hshows, hc'⟩ := h.shows.pumped hn hsees hh hp hs
  have hsafe : (Action.run n op none).Safe c :=
    (permits_safe h.shows ha).run ev rfl op none hmsg hnew
  obtain ⟨A₁, hsim, hmoves⟩ := h.sim.step (fun _ => hsafe) hstep
  have hok := hsim.node n hn
  rw [hnd] at hok
  refine ⟨c', A₁, hshows, ?_, h.committed_append hok hmoves.toGrows⟩
  rcases hc' with rfl | ⟨index, data, r, err, hcreate, rfl⟩
  · exact hsim
  · rw [← hnd] at hcreate ⊢
    exact hsim.compact hn hcreate

/-- A round that panics after `Persist`: the process starts again on what its node had stored. -/
theorem pumping (h : Recorded mb S c A) (hn : n ∈ mb.ids) {recovered recovered' : ε}
    {cut : Option ℕ} (ha : (ServersAction.round n ev cut recovered).Safe S) (hsees : S.Sees n ev)
    (hh : (S.servers n).handle ev = .ok (s, true)) (hp : s.node.persist = some (nd, rd))
    (hs : s.pumped nd rd = .error s')
    (hr : ({ S.note n ev with committed := S.committed ++ nd.r.committedEntries }.absorb n
      s').restart mb opts n s'.node.storage recovered' = some S') :
    ∃ c' A', Recorded mb S' c' A' := by
  obtain ⟨c₁, A₁, hsim, hgrows, hnd, hnet, hoth⟩ := h.persists hn ha hsees hh hp
  rcases s.pumped_cases nd rd with ⟨s₂, hs₂, hnode, hset⟩ | ⟨s₂, hs₂, -⟩
  swap
  · rw [hs] at hs₂
    cases hs₂
  rw [hs] at hs₂
  cases hs₂
  have hbut : ShowsBut n
      ({ S.note n ev with committed := S.committed ++ nd.r.committedEntries }.absorb n s') c₁ := by
    refine .of_shows h.shows hoth (fun m hm => Function.update_of_ne hm ..) ?_
    show c₁.net = S.net ++ s'.sent
    rw [h.shows.sent_eq hh hset, hnet, h.shows.net]
  obtain ⟨bs, c', hbs, hshows, hal⟩ : ProjectsTo mb (fun c a => a.Safe c) c₁ S' :=
    .crash hr hn [] rfl (by rw [hnd, hnode]) hbut trivial trivial
  obtain ⟨A', hsim', hgrows'⟩ := hsim.run (along_of_imp (fun _ _ hsafe _ => hsafe) hal) hbs
  have hok := hsim.node n hn
  rw [hnd] at hok
  refine ⟨c', A', hshows, hsim', fun e he => ?_⟩
  obtain ⟨nd₀, snap, s₀, -, -, rfl⟩ := restart_cases hr
  obtain ⟨K, hK, heK⟩ := h.committed_append hok hgrows e he
  exact ⟨K, hK.grows hgrows', heK⟩

/-- **A safe step keeps it**, whatever the engines do. -/
theorem step (h : Recorded mb S c A) (ha : a.Safe S) (hstep : Stepped mb opts S a S') :
    ∃ c' A', Recorded mb S' c' A' := by
  have hof := h.of_eq ha hstep
  cases hstep with
  | idle n ev s hsees hh => exact hof rfl
  | pumped n ev s nd rd s' hn hsees hh hp hs => exact h.pumped hn ha hsees hh hp hs
  | died n e T S' storage hae hk hn hT hr =>
    obtain ⟨rfl, rfl⟩ := hae
    have hcom : T.committed = S.committed → S'.committed = S.committed := by
      obtain ⟨nd₀, snap, s₀, -, -, rfl⟩ := restart_cases hr
      exact id
    generalize hev : a.event = e at hT
    cases hT with
    | between => exact hof (hcom rfl)
    | handling ev s hsees hh => exact hof (hcom rfl)
    | persisting ev s hsees hh hp => exact hof (hcom rfl)
    | cut ev s k hsees hh => exact hof (hcom rfl)
    | pumping ev s nd rd s' hsees hh hp hs =>
      cases a with
      | crash => cases hev
      | round m ev' cut recovered =>
        cases hev
        exact h.pumping hn ha hsees hh hp hs hr

end Recorded

/-! ## Every answer means what it says -/

/-- **What a step answers.** -/
theorem Recorded.answers (h : Recorded mb S c A) (hfresh : Fresh S) (htold : Told S) (ha : a.Safe S)
    (hstep : Stepped mb opts S a S') (hp : p ∈ S'.results) : p ∈ S.results ∨ S'.Means p := by
  -- what the second half of a round answers
  have hpump : ∀ {n : ℕ} {ev : Event} {cut : Option ℕ} {recovered : ε} {s s' : Server ε} {nd : Node}
      {rd : Ready}, n ∈ mb.ids → (ServersAction.round n ev cut recovered).Safe S → S.Sees n ev →
      (S.servers n).handle ev = .ok (s, true) → s.node.persist = some (nd, rd) →
      (s.pumped nd rd = .ok s' ∨ s.pumped nd rd = .error s') → p ∈ s'.results →
      ({ S.note n ev with committed := S.committed ++ nd.r.committedEntries }.absorb n s').Reported
        p := by
    intro n ev cut recovered s s' nd rd hn ha hsees hh hper hs hp
    rcases Server.pumped_tells hs hp with hno | htells
    · rw [htold.handle_results hh] at hno
      cases hno
    · obtain ⟨c₁, A₁, hsim, -, hnd, -⟩ := h.persists hn ha hsees hh hper
      have hok := hsim.node n hn
      rw [hnd] at hok
      exact reported_of_tells htold hh hok.live.spans htells
  cases hstep with
  | idle n ev s hsees hh =>
    rcases List.mem_append.mp hp with hp | hp
    · exact Or.inl hp
    · have hrefuses := Server.handle_refuses hh (htold.clean n) hp
      exact Or.inr (Or.inl ⟨dismissed_of_refuses hfresh hsees hrefuses, hrefuses.result⟩)
  | pumped n ev s nd rd s' hn hsees hh hper hs =>
    rcases List.mem_append.mp hp with hp | hp
    · exact Or.inl hp
    · exact Or.inr (Or.inr (hpump hn ha hsees hh hper (Or.inl hs) hp))
  | died n e T S' storage hae hk hn hT hr =>
    obtain ⟨rfl, rfl⟩ := hae
    obtain ⟨nd₀, snap, s₀, -, -, rfl⟩ := restart_cases hr
    generalize hev : a.event = e at hT
    cases hT with
    | between => exact Or.inl hp
    | handling ev s hsees hh =>
      cases Server.handled_of_eq hh with
      | panicked _ hnode hsent hresults =>
        rcases List.mem_append.mp hp with hp | hp
        · exact Or.inl hp
        · rw [hresults, htold.clean] at hp
          cases hp
    | persisting ev s hsees hh hper =>
      rcases List.mem_append.mp hp with hp | hp
      · exact Or.inl hp
      · rw [htold.handle_results hh] at hp
        cases hp
    | cut ev s k hsees hh => exact Or.inl hp
    | pumping ev s nd rd s' hsees hh hper hs =>
      rcases List.mem_append.mp hp with hold | hnow
      · exact Or.inl hold
      · cases a with
        | crash => cases hev
        | round m ev' cut recovered =>
          cases hev
          have hrep := hpump hn ha hsees hh hper (Or.inr hs) hnow
          exact Or.inr (Or.inr (hrep.mono (List.Subset.refl _) (List.Subset.refl _)))

end Servers

section Main

variable {ε : Type} [StorageEngine ε] {mb : Members} {opts : ℕ → ServerOptions} {eng : ε}
    {S S' : Servers ε}
  {as bs : List (ServersAction ε)} {ch : ℕ}

theorem Servers.Runs.means (h : Servers.Runs mb opts eng as S)
    (hP : Along (Servers.step mb opts) (fun S a => a.Safe S) (Servers.init mb opts eng) as) :
    (∃ c A, Servers.Recorded mb S c A) ∧ ∀ p ∈ S.results, S.Means p := by
  let I : List (ServersAction ε) → Servers ε → Prop := fun as S =>
    Servers.Runs mb opts eng as S ∧ (∃ c A, Servers.Recorded mb S c A) ∧ ∀ p ∈ S.results, S.Means p
  have hinit : I [] (Servers.init mb opts eng) :=
    ⟨rfl, ⟨_, _, Servers.shows_init mb opts eng, sim_init True mb, fun e he => by cases he⟩,
      fun p hp => by cases hp⟩
  have hall : I ([] ++ as) S := exec_history (I := I) ?_ hinit hP h
  · exact hall.2
  · rintro cs S a S' - ⟨hrun, ⟨c, A, hrec⟩, hmeans⟩ ha hstep
    have hstepped := Servers.step_cases hstep
    obtain ⟨hfresh, htold⟩ := hrun.told
    refine ⟨exec_append.mpr ⟨S, hrun, by rw [exec_singleton]; exact hstep⟩, hrec.step ha hstepped,
      fun p hp => ?_⟩
    rcases hrec.answers hfresh htold ha hstepped hp with hold | hnow
    · exact (hmeans p hold).stepped hstepped
    · exact hnow

/-- **Answers are final.** In a run that processes no unsafe snapshot, what a caller has been told
is so, and a write that has been refused or superseded is not committed in any later state. -/
theorem answers_final (h : Servers.Runs mb opts eng as S)
    (h' : exec (Servers.step mb opts) S bs = some S') (hP :
    Along (Servers.step mb opts) (fun S a => a.Safe S) (Servers.init mb opts eng) (as ++ bs))
    {res : ApplyResult} (hres : (ch, res) ∈ S.results) : S.Certain S' ch res := by
  have hrun : Servers.Runs mb opts eng (as ++ bs) S' := exec_append.mpr ⟨S, h, h'⟩
  obtain ⟨⟨c', A', hrec'⟩, -⟩ := hrun.means hP
  rcases (h.means ((along_append h).mp hP).1).2 _ hres with ⟨hd, hres⟩ | hrep
  · have hd' : S'.Dismissed ch := exec_induct (P := fun _ _ => True) (I := fun S => S.Dismissed ch)
      (fun _ _ _ hd _ hstep => hd.stepped (Servers.step_cases hstep)) hd
        (along_of_all (fun _ _ => trivial) S bs) h'
    have hnot : ∀ e, (ch, e) ∉ S'.given := fun e he => hd'.not_given (List.mem_map_of_mem he)
    rcases hres with hres | ⟨err, hres⟩
    · cases hres
      exact hnot
    · cases hres
      exact hnot
  · refine hrep.certain fun e e' he' hindex hdata he => ?_
    -- two entries at one index are committed in the later state
    have heq := hrec'.unique he (Servers.exec_committed_subset h' he') hindex
    exact hdata (congrArg LogEntry.data heq)

end Main

/-! ## A proposal that is superseded -/

/-- Node one leads term one and is given a `Put` that reaches nobody, and node three turns one down.
Node two then commits another `Put` at the same index, and node one learns of it. -/
def supersededRun : List (ServersAction FlakyStore) :=
  electServer 1 2 0 1 ++
  [roundOf 1 (.propose ⟨encodeCommand ⟨cmdPut, [7], [9]⟩, 100⟩),
    roundOf 3 (.propose ⟨putOne, 300⟩)] ++ commitTwo ++
  [roundOf 1
    (.recv
      { type := .appendEntries, fromId := 2, toId := 1, term := 2, entries := [⟨2, 1, putOne⟩] }),
          roundOf 2 .tick,
    roundOf 1 (.recv { type := .appendEntries, fromId := 2, toId := 1, term := 2, prevLogIndex := 1,
                       prevLogTerm := 2, leaderCommit := 1 })]

/-- The two answers, and what they say after one more round. -/
theorem answers_final_superseded : ∃ S S' : Servers FlakyStore,
    Servers.Runs .three (fun _ => {}) {} supersededRun S ∧
    exec (Servers.step .three fun _ => {}) S [roundOf 2 .tick] = some S' ∧
    (100, .error .superseded) ∈ S.results ∧ (300, .error (.raft .notLeader)) ∈ S.results ∧
    (∃ e, (100, e) ∈ S.given ∧ e ∉ S'.committed) ∧ ∀ e, (300, e) ∉ S'.given := by
  have hrun :
      ((exec (Servers.step .three fun _ => {}) (Servers.init .three (fun _ => {}) {})
        supersededRun).bind fun S =>
          (exec (Servers.step .three fun _ => {}) S [roundOf 2 .tick]).map fun _ =>
        decide ((100, .error .superseded) ∈ S.results ∧
          (300, .error (.raft .notLeader)) ∈ S.results)) =
      some true := by
    decide +kernel
  have hsafe : Along (Servers.step .three fun _ => {}) (fun S a => a.Safe S)
      (Servers.init .three (fun _ => {}) ({} : FlakyStore))
        (supersededRun ++ [roundOf 2 .tick]) := by
    decide +kernel
  obtain ⟨S, h, hrun⟩ := Option.bind_eq_some_iff.mp hrun
  obtain ⟨S', h', hrun⟩ := Option.map_eq_some_iff.mp hrun
  obtain ⟨hlost, hrefused⟩ := of_decide_eq_true hrun
  obtain ⟨e, -, he, -, -, -, hnot⟩ := answers_final h h' hsafe hlost
  exact ⟨S, S', h, h', hlost, hrefused, ⟨e, he, hnot⟩, answers_final h h' hsafe hrefused⟩

end KvStore
