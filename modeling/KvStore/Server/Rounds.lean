import KvStore.Server.System

/-!
# What a round of a server does

A round has two halves: the call on the node with what the loop notes down around it, and the rest
of `pump` once `Persist` has returned.

* `Server.handled`: the first half makes a call on the node, or leaves the node alone, or panics.
  The entries its call creates are those it gives to requests (`Server.gives_eq`).
* `Server.pumped_cases`: the second half only takes waiters out, and acknowledges only entries of
  the node at or below its commit index (`Server.Settles`). The node is what `Persist` left, or that
  compacted once more.
-/

namespace KvStore

/-- The request an event brings. -/
def Event.requests : Event → List ProposeRequest
  | .propose req => [req]
  | _ => []

/-! ## The indices of a batch -/

theorem Raft.appendDatas_indices {r r' : Raft} {datas : List Bytes} {indices : List ℕ}
    (h : r.appendDatas datas = some (r', indices)) :
    indices = (entriesFrom r.currentTerm (r.lastLogIndex.getD 0) datas).map LogEntry.index := by
  induction datas generalizing r r' indices with
  | nil =>
    obtain ⟨-, rfl⟩ := Prod.mk.inj (Option.some.inj h)
    rfl
  | cons d ds ih =>
    obtain ⟨last, hlast, h⟩ := Option.bind_eq_some_iff.mp h
    obtain ⟨⟨r₁, is⟩, happ, h⟩ := Option.bind_eq_some_iff.mp h
    obtain ⟨-, rfl⟩ := Prod.mk.inj (Option.some.inj h)
    have hnext : ({ r with log := r.log ++ [⟨r.currentTerm, last + 1, d⟩] } : Raft).lastLogIndex =
        some (last + 1) := by
      rw [lastLogIndex, List.getLast?_concat]
      rfl
    have his := ih happ
    rw [hnext] at his
    rw [his, hlast]
    rfl

/-- `ProposeBatch` gives a leader's batch the indices after its log. -/
theorem Raft.proposeBatch_ok {r r' : Raft} {datas : List Bytes} {indices : List ℕ}
    (h : r.proposeBatch datas = some (r', .ok indices)) :
    r.role = .leader ∧
      indices = (entriesFrom r.currentTerm (r.lastLogIndex.getD 0) datas).map LogEntry.index := by
  unfold proposeBatch at h
  split_ifs at h with hr
  · simp at h
  refine ⟨not_not.mp hr, ?_⟩
  obtain ⟨⟨r₁, is⟩, happ, h⟩ := Option.bind_eq_some_iff.mp h
  obtain ⟨r₂, -, h⟩ := Option.bind_eq_some_iff.mp h
  have heq : is = indices := by
    split_ifs at h
    · obtain ⟨r₃, -, h⟩ := Option.bind_eq_some_iff.mp h
      cases h
      rfl
    · cases h
      rfl
  rw [← heq]
  exact appendDatas_indices happ

/-- A `ProposeBatch` that is turned down leaves the node as it was. -/
theorem Raft.proposeBatch_error {r r' : Raft} {datas : List Bytes} {e : Error}
    (h : r.proposeBatch datas = some (r', .error e)) : r' = r := by
  unfold proposeBatch at h
  split_ifs at h
  · cases h
    rfl
  · obtain ⟨x, -, h⟩ := Option.bind_eq_some_iff.mp h
    obtain ⟨y, -, h⟩ := Option.bind_eq_some_iff.mp h
    split_ifs at h
    · obtain ⟨z, -, h⟩ := Option.bind_eq_some_iff.mp h
      cases h
    · cases h

theorem Raft.requestReadIndex_error {r r' : Raft} {ctx : ℕ} {e : Error}
    (h : r.requestReadIndex ctx = some (r', .error e)) : r' = r := by
  unfold requestReadIndex at h
  dsimp only at h
  split_ifs at h
  · cases h
    rfl
  · cases h
  · obtain ⟨x, -, h⟩ := Option.bind_eq_some_iff.mp h
    cases h

/-- Requests and the indices of their entries, put together again. -/
theorem zip_entriesFrom (t k : ℕ) (reqs : List ProposeRequest) :
    ((reqs.zip ((entriesFrom t k (reqs.map ProposeRequest.data)).map LogEntry.index)).map
      fun p => (⟨t, p.2, p.1.data⟩ : LogEntry)) =
        entriesFrom t k (reqs.map ProposeRequest.data) := by
  induction reqs generalizing k with
  | nil => rfl
  | cons q qs ih =>
    simp only [List.map_cons, entriesFrom, List.zip_cons_cons]
    rw [ih]

namespace Server

variable {ε : Type} {s s₁ s' : Server ε} {ev : Event}

/-- A batch that is taken becomes the entries the node appends. -/
theorem gives_eq {r : Raft} {indices : List ℕ}
    (h : s.node.r.proposeBatch ((s.batch ev).map ProposeRequest.data) = some (r, .ok indices)) :
    (s.gives ev).map Prod.snd =
      Op.new s.node.r (.propose ((s.batch ev).map ProposeRequest.data)) := by
  obtain ⟨hr, rfl⟩ := Raft.proposeBatch_ok h
  rw [gives, h, Op.new, if_pos hr, List.map_map]
  exact zip_entriesFrom _ _ _

/-- Only requests of the batch are given an entry, each one. -/
theorem gives_sublist : ((s.gives ev).map Prod.fst).Sublist
    ((s.batch ev).map ProposeRequest.resultCh) := by
  unfold gives
  split
  · rw [List.map_map]
    have hmap : ∀ (qs : List ProposeRequest) (is : List ℕ),
        ((qs.zip is).map fun p => p.1.resultCh).Sublist (qs.map ProposeRequest.resultCh) := by
      intro qs
      induction qs with
      | nil => simp
      | cons q qs ih =>
        intro is
        cases is with
        | nil => exact List.nil_sublist _
        | cons i is => exact (ih is).cons_cons _
    exact hmap _ _
  · exact List.nil_sublist _

/-! ## Up to `Persist` -/

/-- What the first half of a round does: a call on the node, with the waiters of its batch
registered; nothing that concerns the node; or a panic. -/
inductive Handled (s : Server ε) (ev : Event) : Outcome ε (Server ε × Bool) → Prop
  | called (op : Op) (s₁ : Server ε) (hrun : op.run s.node.r = some s₁.node.r)
      (hnew : ∀ e ∈ op.new s.node.r, e ∈ (s.gives ev).map Prod.snd)
      (hmsg : ∀ m, op = .step m → ev = .recv m)
      (hstorage : s₁.node.storage = s.node.storage) (hsent : s₁.sent = s.sent)
      (hresults : s₁.results = s.results)
      (hpending : s.batch ev ++ s₁.pending = s.pending ++ ev.requests)
      (hwaiters : ∀ i q, s₁.waiters i = some q → s.waiters i = some q ∨
        ∃ t, (q.resultCh, (⟨t, i, q.data⟩ : LogEntry)) ∈ s.gives ev) :
      Handled s ev (.ok (s₁, true))
  | idle (s₁ : Server ε) (hnode : s₁.node = s.node) (hsent : s₁.sent = s.sent)
      (hresults : ∀ ch, (ch, .ok ()) ∈ s₁.results → (ch, .ok ()) ∈ s.results)
      (hpending : s.batch ev ++ s₁.pending = s.pending ++ ev.requests)
      (hwaiters : s₁.waiters = s.waiters) : Handled s ev (.ok (s₁, false))
  | panicked (s₁ : Server ε) (hnode : s₁.node = s.node) (hsent : s₁.sent = s.sent)
      (hresults : s₁.results = s.results) : Handled s ev (.error s₁)

theorem orPanic_cases {α : Type} (s : Server ε) (o : Option α) :
    (o = none ∧ s.orPanic o = .error s) ∨ ∃ a, o = some a ∧ s.orPanic o = .ok a := by
  cases o with
  | none => exact Or.inl ⟨rfl, rfl⟩
  | some a => exact Or.inr ⟨a, rfl, rfl⟩

theorem register_waiters {reqs : List ProposeRequest} {indices : List ℕ} {i : ℕ}
    {q : ProposeRequest} (h : (s.register reqs indices).waiters i = some q) :
    s.waiters i = some q ∨ (q, i) ∈ reqs.zip indices := by
  have hfold : ∀ (ps : List (ProposeRequest × ℕ)) (w : ℕ → Option ProposeRequest),
      (ps.foldl (fun w p => Function.update w p.2 (some p.1)) w : ℕ → Option ProposeRequest) i =
        some q →
      w i = some q ∨ (q, i) ∈ ps := by
    intro ps
    induction ps with
    | nil => exact fun w hw => Or.inl hw
    | cons p ps ih =>
      intro w hw
      rcases ih _ hw with hw | hmem
      · dsimp only at hw
        by_cases hi : i = p.2
        · rw [hi, Function.update_self] at hw
          obtain rfl := Option.some.inj hw
          exact Or.inr (List.mem_cons.mpr (Or.inl (by rw [hi])))
        · rw [Function.update_of_ne hi] at hw
          exact Or.inl hw
      · exact Or.inr (List.mem_cons_of_mem _ hmem)
  exact hfold _ _ h

/-- `submitBatch` of the requests of the round, the server's `pending` being `s₀`'s. -/
theorem submitBatch_handled {s₀ : Server ε} (hnode : s.node = s₀.node) (hsent : s.sent = s₀.sent)
    (hresults : s.results = s₀.results) (hwaiters : s.waiters = s₀.waiters)
    (hpending : s₀.batch ev ++ s.pending = s₀.pending ++ ev.requests) :
    Handled s₀ ev (s.submitBatch (s₀.batch ev)) := by
  unfold submitBatch
  by_cases hnil : s₀.batch ev = []
  · rw [if_pos hnil]
    exact .idle s hnode hsent (by rw [hresults]; exact fun _ h => h) hpending hwaiters
  rw [if_neg hnil]
  rcases s.orPanic_cases (s.node.r.proposeBatch ((s₀.batch ev).map ProposeRequest.data)) with
    ⟨-, hp⟩ | ⟨⟨r, res⟩, hrun, hp⟩
  · rw [hp]
    exact .panicked s hnode hsent hresults
  rw [hp]
  have hrun₀ := hrun
  rw [hnode] at hrun₀
  cases res with
  | error e =>
    have hr := Raft.proposeBatch_error hrun
    refine .idle _ ?_ hsent (fun ch hch => ?_) hpending hwaiters
    · rw [hr, ← hnode]
      rfl
    · rcases List.mem_append.mp hch with h | h
      · rw [← hresults]
        exact h
      · obtain ⟨q, -, hq⟩ := List.mem_map.mp h
        cases hq
  | ok indices =>
    refine .called (.propose ((s₀.batch ev).map ProposeRequest.data)) _ ?_ ?_ ?_ ?_ hsent hresults
      hpending ?_
    · rw [Op.run, hrun₀]
      rfl
    · rw [gives_eq hrun₀]
      exact fun e he => he
    · exact fun m hm => by cases hm
    · rw [← hnode]
      rfl
    · intro i q hq
      rcases register_waiters hq with h | h
      · exact Or.inl (by rw [← hwaiters]; exact h)
      · refine Or.inr ⟨s₀.node.r.currentTerm, ?_⟩
        rw [gives, hrun₀]
        exact List.mem_map.mpr ⟨(q, i), h, rfl⟩

/-- **What the first half of a round does.** -/
theorem handled (s : Server ε) (ev : Event) : Handled s ev (s.handle ev) := by
  cases ev with
  | tick =>
    rcases s.orPanic_cases s.node.r.tick with ⟨-, hp⟩ | ⟨r, hrun, hp⟩
    · rw [handle, hp]
      exact .panicked s rfl rfl rfl
    · rw [handle, hp]
      exact .called .tick _ hrun (by simp [Op.new]) (by simp) rfl rfl rfl
        (by simp [batch, Event.requests, setRaft]) fun i q hq => Or.inl hq
  | recv m =>
    rcases s.orPanic_cases (s.node.r.step m) with ⟨-, hp⟩ | ⟨r, hrun, hp⟩
    · rw [handle, hp]
      exact .panicked s rfl rfl rfl
    · rw [handle, hp]
      exact .called (.step m) _ hrun (by simp [Op.new]) (by simp) rfl rfl rfl
        (by simp [batch, Event.requests, setRaft]) fun i q hq => Or.inl hq
  | propose req =>
    unfold handle
    dsimp only
    by_cases hfull : ({ s with pending := s.pending ++ [req] } : Server ε).full
    · rw [if_pos hfull]
      have hb : s.batch (.propose req) = s.pending ++ [req] := if_pos hfull
      rw [← hb]
      exact submitBatch_handled rfl rfl rfl rfl (by rw [hb, List.append_nil]; rfl)
    · rw [if_neg hfull]
      have hb : s.batch (.propose req) = [] := if_neg hfull
      split_ifs
      · exact .idle _ rfl rfl (fun _ h => h) (by rw [hb]; rfl) rfl
      · exact .idle _ rfl rfl (fun _ h => h) (by rw [hb]; rfl) rfl
  | readIndex ch =>
    unfold handle
    dsimp only
    rcases ({ s with nextReadCtx := s.nextReadCtx + 1 } : Server ε).orPanic_cases
      (s.node.r.requestReadIndex s.nextReadCtx) with ⟨-, hp⟩ | ⟨⟨r, res⟩, hrun, hp⟩
    · rw [hp]
      exact .panicked _ rfl rfl rfl
    rw [hp]
    cases res with
    | error e =>
      have hr := Raft.requestReadIndex_error hrun
      refine .idle _ ?_ rfl (fun _ h => h) (by simp [batch, Event.requests, setRaft]) rfl
      rw [hr]
      rfl
    | ok u =>
      exact .called (.readIndex s.nextReadCtx) _ (by rw [Op.run, hrun]; rfl) (by simp [Op.new])
        (by simp) rfl rfl rfl (by simp [batch, Event.requests, setRaft]) fun i q hq => Or.inl hq
  | batchTimer =>
    exact submitBatch_handled (s := { s with pending := [], batchTimer := false }) rfl rfl rfl rfl
      rfl
  | closed =>
    refine .idle _ rfl rfl (fun ch hch => ?_) (by simp [batch, Event.requests, failPending]) rfl
    rcases List.mem_append.mp hch with h | h
    · exact h
    · obtain ⟨q, -, hq⟩ := List.mem_map.mp h
      cases hq
  | stop =>
    refine .idle _ rfl rfl (fun ch hch => ?_)
      (by simp [batch, Event.requests, failPending, failPendingReadIndexes]) rfl
    rcases List.mem_append.mp hch with h | h
    · exact h
    · obtain ⟨q, -, hq⟩ := List.mem_map.mp h
      cases hq

theorem handled_of_eq {ev : Event} {res : Outcome ε (Server ε × Bool)} (hh : s.handle ev = res) :
    Handled s ev res :=
  hh ▸ s.handled ev

/-! ## After `Persist` -/

/-- What the rest of a round does to the callers, once `Persist` has left the node at `nd`: waiters
are only removed, and only entries of `nd` at or below its commit index are acknowledged. -/
structure Settles (nd : Node) (s s' : Server ε) : Prop where
  sent_eq : s'.sent = s.sent
  pending_eq : s'.pending = s.pending
  waiters : ∀ i q, s'.waiters i = some q → s.waiters i = some q
  results : ∀ ch, (ch, .ok ()) ∈ s'.results → (ch, .ok ()) ∈ s.results ∨
    ∃ start es, nd.r.entries start nd.r.commitIndex = some es ∧
      ∃ e ∈ es, ∃ q, s.waiters e.index = some q ∧ q.resultCh = ch ∧ q.data = e.data

namespace Settles

variable {nd : Node} {s₂ : Server ε}

theorem of_eq (nd : Node) (hsent : s'.sent = s.sent) (hpending : s'.pending = s.pending)
    (hwaiters : s'.waiters = s.waiters) (hresults : s'.results = s.results) : Settles nd s s' :=
  ⟨hsent, hpending, fun _ _ h => hwaiters ▸ h, fun _ h => Or.inl (hresults ▸ h)⟩

theorem refl (nd : Node) (s : Server ε) : Settles nd s s := of_eq nd rfl rfl rfl rfl

theorem trans (h : Settles nd s s₁) (h' : Settles nd s₁ s₂) : Settles nd s s₂ where
  sent_eq := h'.sent_eq.trans h.sent_eq
  pending_eq := h'.pending_eq.trans h.pending_eq
  waiters := fun i q hq => h.waiters i q (h'.waiters i q hq)
  results := fun ch hch => by
    rcases h'.results ch hch with hch | ⟨start, es, hes, e, he, q, hq, hrest⟩
    · exact h.results ch hch
    · exact Or.inr ⟨start, es, hes, e, he, q, h.waiters _ q hq, hrest⟩

theorem settle {start : ℕ} {es : List LogEntry}
    (hes : nd.r.entries start nd.r.commitIndex = some es) {e : LogEntry} (he : e ∈ es)
    (batchErr : Option EngineError) (s : Server ε) : Settles nd s (s.settle batchErr e) := by
  unfold Server.settle
  dsimp only
  split
  · exact of_eq nd rfl rfl rfl rfl
  · next q hq =>
    refine ⟨rfl, rfl, fun i q' hq' => ?_, fun ch hch => ?_⟩
    · dsimp only at hq'
      by_cases hi : i = e.index
      · rw [hi, Function.update_self] at hq'
        cases hq'
      · rwa [Function.update_of_ne hi] at hq'
    · rcases List.mem_append.mp hch with h | h
      · exact Or.inl h
      · rw [List.mem_singleton, Prod.mk.injEq] at h
        obtain ⟨rfl, hres⟩ := h
        split_ifs at hres with hdata
        exact Or.inr ⟨start, es, hes, e, he, q, hq, rfl, not_not.mp hdata⟩

theorem foldl_settle {start : ℕ} {es : List LogEntry}
    (hes : nd.r.entries start nd.r.commitIndex = some es) (batchErr : Option EngineError)
    {es' : List LogEntry} (hsub : ∀ e ∈ es', e ∈ es) (s : Server ε) :
    Settles nd s (es'.foldl (Server.settle batchErr) s) := by
  induction es' generalizing s with
  | nil => exact refl nd s
  | cons e es' ih =>
    rw [List.foldl_cons]
    exact (settle hes (hsub e (by simp)) batchErr s).trans
      (ih (fun e' he' => hsub e' (List.mem_cons_of_mem _ he')) _)

theorem foldl_resolveRead (nd : Node) (rss : List ReadState) (s : Server ε) :
    Settles nd s (rss.foldl resolveRead s) := by
  induction rss generalizing s with
  | nil => exact refl nd s
  | cons rs rss ih =>
    rw [List.foldl_cons]
    refine trans ?_ (ih _)
    unfold resolveRead
    split <;> exact of_eq nd rfl rfl rfl rfl

end Settles

/-- The loop that tells the waiters changes `lastApplied` and what waiters are told. -/
theorem foldl_settle_eq (batchErr : Option EngineError) (es : List LogEntry) (s : Server ε) :
    ∃ w rs, es.foldl (settle batchErr) s = { s with
      lastApplied := (es.getLast?.map LogEntry.index).getD s.lastApplied
      waiters := w
      results := rs } := by
  induction es generalizing s with
  | nil => exact ⟨s.waiters, s.results, rfl⟩
  | cons e es ih =>
    have hstep : ∃ w rs, settle batchErr s e = { s with
        lastApplied := e.index
        waiters := w
        results := rs } := by
      unfold settle
      dsimp only
      split
      · exact ⟨_, _, rfl⟩
      · exact ⟨_, _, rfl⟩
    obtain ⟨w, rs, hstep⟩ := hstep
    obtain ⟨w', rs', heq⟩ := ih (settle batchErr s e)
    refine ⟨w', rs', ?_⟩
    rw [List.foldl_cons, heq, hstep, List.getLast?_cons]
    cases es.getLast? <;> rfl

/-- The loop that answers reads says nothing but the indices of the reads that are ready. -/
theorem foldl_resolveRead_eq (rss : List ReadState) (s : Server ε) :
    ∃ ps rs, rss.foldl resolveRead s = { s with
        pendingReadIndexes := ps
        readResults := s.readResults ++ rs } ∧
      ∀ p ∈ rs, ∃ x ∈ rss, p.2 = .ok x.index := by
  induction rss generalizing s with
  | nil => exact ⟨s.pendingReadIndexes, [], by simp, by simp⟩
  | cons x rss ih =>
    have hstep : ∃ ps rs, s.resolveRead x = { s with
          pendingReadIndexes := ps
          readResults := s.readResults ++ rs } ∧ ∀ p ∈ rs, p.2 = .ok x.index := by
      unfold resolveRead
      split
      · exact ⟨s.pendingReadIndexes, [], by simp, by simp⟩
      · exact ⟨_, [_], rfl, by simp⟩
    obtain ⟨ps, rs, hstep, hrs⟩ := hstep
    obtain ⟨ps', rs', heq, hrs'⟩ := ih (s.resolveRead x)
    refine ⟨ps', rs ++ rs', by rw [List.foldl_cons, heq, hstep, List.append_assoc], fun p hp => ?_⟩
    rcases List.mem_append.mp hp with hp | hp
    · exact ⟨x, List.mem_cons_self, hrs p hp⟩
    · obtain ⟨y, hy, hpy⟩ := hrs' p hp
      exact ⟨y, List.mem_cons_of_mem _ hy, hpy⟩

/-- The node `nd`, or what a `CreateSnapshot` that returns makes of it. -/
def Compacts (nd nd' : Node) : Prop :=
  nd' = nd ∨ ∃ index data r err, nd.r.createSnapshot index data = some (r, err) ∧
    nd' = ⟨r, nd.storage⟩

variable [StorageEngine ε]

theorem applyEntries_frame {start : ℕ} {es : List LogEntry}
    (hes : s.node.r.entries start s.node.r.commitIndex = some es) :
    (s.applyEntries es).node = s.node ∧ Settles s.node s (s.applyEntries es) := by
  unfold applyEntries
  split_ifs with hnil
  · exact ⟨rfl, .refl _ _⟩
  · dsimp only
    refine ⟨?_, Settles.trans ?_ (Settles.foldl_settle hes _ (fun e he => he) _)⟩
    · obtain ⟨w, rs, heq⟩ := foldl_settle_eq
        (if opsOf es = [] then (s.eng, none) else StorageEngine.applyBatch s.eng (opsOf es)).2 es
        { s with eng :=
            (if opsOf es = [] then (s.eng, none) else StorageEngine.applyBatch s.eng (opsOf es)).1 }
      rw [heq]
    · exact .of_eq _ rfl rfl rfl rfl

theorem applyCommitted_cases (s : Server ε) :
    s.applyCommitted = .error s ∨
      ∃ s', s.applyCommitted = .ok s' ∧ s'.node = s.node ∧ Settles s.node s s' := by
  unfold applyCommitted
  split_ifs
  · exact Or.inr ⟨s, rfl, rfl, .refl _ _⟩
  rcases s.orPanic_cases (s.node.r.entries s.lastApplied s.node.r.commitIndex) with
    ⟨-, hp⟩ | ⟨es, hes, hp⟩
  · exact Or.inl (by rw [hp]; rfl)
  · rw [hp]
    exact Or.inr ⟨_, rfl, applyEntries_frame hes⟩

theorem maybeSnapshot_cases (s : Server ε) :
    s.maybeSnapshot = .error s ∨
      ∃ s', s.maybeSnapshot = .ok s' ∧ Compacts s.node s'.node ∧ ∀ nd, Settles nd s s' := by
  unfold maybeSnapshot
  split_ifs
  iterate 3 exact Or.inr ⟨s, rfl, Or.inl rfl, fun nd => .refl nd s⟩
  split
  · exact Or.inr ⟨s, rfl, Or.inl rfl, fun nd => .refl nd s⟩
  · next data hdata =>
    rcases s.orPanic_cases (s.node.r.createSnapshot s.lastApplied data) with
      ⟨-, hp⟩ | ⟨⟨r, err⟩, hrun, hp⟩
    · exact Or.inl (by rw [hp]; rfl)
    rw [hp]
    cases err with
    | error e =>
      exact Or.inr ⟨_, rfl, Or.inr ⟨_, _, r, _, hrun, rfl⟩, fun nd => .of_eq nd rfl rfl rfl rfl⟩
    | ok u =>
      exact Or.inr ⟨_, rfl, Or.inr ⟨_, _, r, _, hrun, rfl⟩, fun nd => .of_eq nd rfl rfl rfl rfl⟩

theorem delivered_frame (s : Server ε) (nd : Node) (rd : Ready) :
    (s.delivered nd rd).node = nd ∧ (s.delivered nd rd).sent = s.sent ++ rd.messages ∧
      (s.delivered nd rd).pending = s.pending ∧ (s.delivered nd rd).waiters = s.waiters ∧
      (s.delivered nd rd).results = s.results := by
  unfold delivered
  dsimp only
  split
  · exact ⟨rfl, rfl, rfl, rfl, rfl⟩
  · unfold restore
    split <;> exact ⟨rfl, rfl, rfl, rfl, rfl⟩

/-- **What the second half of a round does.** -/
theorem pumped_cases (s : Server ε) (nd : Node) (rd : Ready) :
    (∃ s', s.pumped nd rd = .error s' ∧ s'.node = nd ∧ Settles nd (s.delivered nd rd) s') ∨
    ∃ s', s.pumped nd rd = .ok s' ∧ Compacts nd s'.node ∧ Settles nd (s.delivered nd rd) s' := by
  have hpump : s.pumped nd rd = (s.delivered nd rd).applyCommitted.bind fun s =>
      s.maybeSnapshot.bind fun s => .ok (rd.readStates.foldl resolveRead s) := rfl
  obtain ⟨hnode, -⟩ := s.delivered_frame nd rd
  rw [hpump]
  generalize s.delivered nd rd = s₁ at hnode ⊢
  subst hnode
  rcases s₁.applyCommitted_cases with happ | ⟨s₂, happ, hn₂, hset₂⟩
  · rw [happ]
    exact Or.inl ⟨s₁, rfl, rfl, .refl _ _⟩
  rw [happ]
  rcases s₂.maybeSnapshot_cases with hsnap | ⟨s₃, hsnap, hc, hset₃⟩
  · exact Or.inl ⟨s₂, by rw [Except.bind, hsnap]; rfl, hn₂, hset₂⟩
  · rw [hn₂] at hc
    refine Or.inr ⟨rd.readStates.foldl resolveRead s₃, by rw [Except.bind, hsnap]; rfl, ?_,
      (hset₂.trans (hset₃ _)).trans (.foldl_resolveRead _ _ _)⟩
    obtain ⟨ps, rs, heq, -⟩ := foldl_resolveRead_eq rd.readStates s₃
    rw [heq]
    exact hc

theorem pump_eq {nd : Node} {rd : Ready} (hp : s.node.persist = some (nd, rd)) :
    s.pump = s.pumped nd rd := by
  rw [pump, hp]
  rfl

theorem pump_eq_error (hp : s.node.persist = none) : s.pump = .error s := by
  rw [pump, hp]
  rfl

theorem round_eq (hh : s.handle ev = .ok (s₁, true)) : s.round ev = s₁.pump := by
  rw [round, hh]
  rfl

omit [StorageEngine ε] in
theorem persisted_eq (hh : s.handle ev = .ok (s₁, true)) :
    s.persisted ev = s₁.node.persist.map Prod.fst := by
  rw [persisted, hh]

end Server

end KvStore
