import KvStore.Server.AnswersOnce

/-!
# The event loop is the server

`Server.lean` models the loop with the node of `Storage.lean` built in: its channels are logs, its
timer is a flag, and its rounds are total but for the node's panics. A round of `Loop` over that
node, if it returns, is a round of that server.

* `Loop.server`: the server that a loop is.
* `Loop.round_server`: a round of the loop is a round of the server; what happens outside of the
  loop changes nothing.
* `Loop.runs_server`: a run of the loop is a run of the server's rounds.
-/

namespace KvStore

open Machine

namespace Loop

variable {ε : Type} {s s' : Loop Node ε} {p : List ProposeRequest} {timer stopped : Bool}

/-! ## The server of a loop -/

/-- The table as a list of pairs. -/
def pairs {β : Type} (t : AList fun _ : ℕ => β) : List (ℕ × β) := t.entries.map fun x => (x.1, x.2)

/-- The server of the loop, with a batch, a timer and a status. -/
def serverWith (s : Loop Node ε) (p : List ProposeRequest) (timer stopped : Bool) : Server ε where
  node := s.node
  eng := s.eng
  batchWindow := s.batchWindow
  maxBatchSize := s.maxBatchSize
  lastApplied := s.lastApplied
  waiters := fun i => s.waiters.lookup i
  snapshotThreshold := s.snapshotThreshold
  lastSnapshotIndex := s.lastSnapshotIndex
  pendingReadIndexes := pairs s.pendingReadIndexes
  nextReadCtx := s.nextReadCtx
  pending := p
  batchTimer := timer
  stopped := stopped
  sent := s.sent
  results := s.results.log
  readResults := s.readResults.log

/-- The server that the loop is. -/
def server (s : Loop Node ε) : Server ε :=
  s.serverWith s.pending s.batchTimerC.isSome (s.status = .returned)

section Pairs

variable {β : Type} {t : AList fun _ : ℕ => β} {k : ℕ}

theorem lookup_pairs : (pairs t).lookup k = t.lookup k := by
  obtain ⟨l, hl⟩ := t
  show (l.map fun x => (x.1, x.2)).lookup k = l.dlookup k
  clear hl
  induction l with
  | nil => rfl
  | cons x l ih =>
    rw [List.map_cons, List.lookup_cons]
    by_cases h : k = x.1
    · subst h
      obtain ⟨a, b⟩ := x
      simp
    · rw [beq_eq_false_iff_ne.mpr h, List.dlookup_cons_ne l x h]
      exact ih

theorem filter_pairs : (pairs t).filter (fun x => x.1 ≠ k) = pairs (t.erase k) := by
  obtain ⟨l, hl⟩ := t
  show (l.map fun x => (x.1, x.2)).filter (fun x => x.1 ≠ k) = (l.kerase k).map fun x => (x.1, x.2)
  induction l with
  | nil => rfl
  | cons x l ih =>
    obtain ⟨hx, hl⟩ := List.nodupKeys_cons.mp hl
    rw [List.map_cons]
    by_cases h : k = x.1
    · rw [List.filter_cons_of_neg (by simp [h]), List.kerase_cons_eq h, ih hl,
        List.kerase_of_notMem_keys (h ▸ hx)]
    · rw [List.filter_cons_of_pos (by simpa using Ne.symm h), List.kerase_cons_ne h, ih hl,
        List.map_cons]

theorem pairs_insert {b : β} (h : k ∉ t) : pairs (t.insert k b) = (k, b) :: pairs t := by
  rw [pairs, AList.entries_insert_of_notMem h]
  rfl

theorem lookup_erase_eq : (fun i => (t.erase k).lookup i) =
    Function.update (fun i => t.lookup i) k none := by
  funext i
  by_cases h : i = k
  · subst h
    rw [Function.update_self, AList.lookup_erase]
  · rw [Function.update_of_ne h, AList.lookup_erase_ne h]

theorem lookup_insert_eq (b : β) :
    (fun i => (t.insert k b).lookup i) = Function.update (fun i => t.lookup i) k (some b) := by
  funext i
  by_cases h : i = k
  · subst h
    rw [Function.update_self, AList.lookup_insert]
  · rw [Function.update_of_ne h, AList.lookup_insert_ne h]

end Pairs

/-! ## Parts of a round -/

theorem answer_server {ch : ℕ} {res : ApplyResult} (h : s.answer ch res = .ok s') :
    s' = { s with results := s.results.push ch res } := by
  rw [answer, Mailbox.send] at h
  split_ifs at h
  exact (Except.ok.inj h).symm

theorem answerRead_server {ch : ℕ} {res : Except ServerError ℕ} (h : s.answerRead ch res = .ok s') :
    s' = { s with readResults := s.readResults.push ch res } := by
  rw [answerRead, Mailbox.send] at h
  split_ifs at h
  exact (Except.ok.inj h).symm

theorem settle_server {batchErr : Option EngineError} {entry : LogEntry}
    (h : settle batchErr s entry = .ok s') : s'.serverWith p timer stopped =
      Server.settle batchErr (s.serverWith p timer stopped) entry := by
  rw [settle] at h
  dsimp only at h
  rw [Server.settle]
  cases hw : s.waiters.lookup entry.index with
  | none =>
    rw [hw] at h
    obtain rfl := Except.ok.inj h
    simp [serverWith, hw]
  | some q =>
    rw [hw] at h
    rw [answer_server h]
    simp only [serverWith, hw, lookup_erase_eq]
    rfl

theorem resolveRead_server {rs : ReadState} (h : resolveRead s rs = .ok s') :
    s'.serverWith p timer stopped = Server.resolveRead (s.serverWith p timer stopped) rs := by
  rw [resolveRead] at h
  rw [Server.resolveRead]
  cases hr : s.pendingReadIndexes.lookup rs.context with
  | none =>
    rw [hr] at h
    obtain rfl := Except.ok.inj h
    simp [serverWith, lookup_pairs, hr]
  | some ch =>
    rw [hr] at h
    rw [answerRead_server h]
    simp only [serverWith, lookup_pairs, hr, filter_pairs]
    rfl

/-- A loop whose rounds are those of the server's loop. -/
theorem foldlM_server {α : Type} {f : Loop Node ε → α → Outcome Node ε (Loop Node ε)}
    {g : Server ε → α → Server ε} (hf : ∀ s a s', f s a = .ok s' →
    s'.serverWith p timer stopped = g (s.serverWith p timer stopped) a) {as : List α}
    (h : as.foldlM f s = .ok s') : s'.serverWith p timer stopped =
      as.foldl g (s.serverWith p timer stopped) := by
  induction as generalizing s with
  | nil =>
    obtain rfl := Except.ok.inj h
    rfl
  | cons a as ih =>
    rw [List.foldlM_cons] at h
    cases hs : f s a with
    | error e =>
      rw [hs] at h
      cases h
    | ok s₁ =>
      rw [hs] at h
      rw [List.foldl_cons, ← hf s a s₁ hs]
      exact ih h

theorem bind_ok {α β σ : Type} {x : Except σ α} {f : α → Except σ β} {b : β}
    (h : (x >>= f) = .ok b) : ∃ a, x = .ok a ∧ f a = .ok b := by
  cases x with
  | error e => cases h
  | ok a => exact ⟨a, rfl, h⟩

theorem orPanic_ok {α β : Type} {o : Option α} {f : α → Outcome Node ε β} {b : β}
    (h : (s.orPanic o >>= f) = .ok b) : ∃ a, o = some a ∧ f a = .ok b := by
  cases o with
  | none => cases h
  | some a => exact ⟨a, rfl, h⟩

/-- A call of the node is one on its state machine. -/
theorem node_call {nd nd' : Node} {α : Type} {o : Option (Raft × α)} {a : α}
    (h : (o.map fun x => ((⟨x.1, nd.storage⟩ : Node), x.2)) = some (nd', a)) :
    ∃ r, o = some (r, a) ∧ nd' = ⟨r, nd.storage⟩ := by
  obtain ⟨⟨r, b⟩, ho, heq⟩ := Option.map_eq_some_iff.mp h
  obtain ⟨rfl, rfl⟩ := Prod.mk.inj heq
  exact ⟨r, ho, rfl⟩

variable [StorageEngine ε]

theorem applyCommitted_server (h : s.applyCommitted = .ok s') :
    (s.serverWith p timer stopped).applyCommitted = .ok (s'.serverWith p timer stopped) := by
  rw [applyCommitted] at h
  rw [Server.applyCommitted]
  by_cases hle : s.node.r.commitIndex ≤ s.lastApplied
  · rw [if_pos (show RaftNode.commitIndex s.node ≤ s.lastApplied from hle)] at h
    obtain rfl := Except.ok.inj h
    exact if_pos hle
  · rw [if_neg (show ¬RaftNode.commitIndex s.node ≤ s.lastApplied from hle)] at h
    obtain ⟨entries, hentries, h⟩ := orPanic_ok h
    have hle' : ¬(s.serverWith p timer stopped).node.r.commitIndex ≤
        (s.serverWith p timer stopped).lastApplied := hle
    have hentries' : (s.serverWith p timer stopped).node.r.entries
        (s.serverWith p timer stopped).lastApplied
          (s.serverWith p timer stopped).node.r.commitIndex = some entries := hentries
    have hstep : (s.serverWith p timer stopped).applyEntries entries =
        s'.serverWith p timer stopped := by
      rw [Server.applyEntries]
      split_ifs at h ⊢ with hnil
      · obtain rfl := Except.ok.inj h
        rfl
      · exact (foldlM_server (fun s entry s' hs => settle_server hs) h).symm
    rw [if_neg hle', hentries', ← hstep]
    rfl

theorem maybeSnapshot_server (h : s.maybeSnapshot = .ok s') :
    (s.serverWith p timer stopped).maybeSnapshot = .ok (s'.serverWith p timer stopped) := by
  rw [maybeSnapshot] at h
  rw [Server.maybeSnapshot]
  split_ifs at h with hzero hle hlt
  · obtain rfl := Except.ok.inj h
    exact if_pos hzero
  · obtain rfl := Except.ok.inj h
    exact (if_neg hzero).trans (if_pos hle)
  · obtain rfl := Except.ok.inj h
    exact (if_neg hzero).trans ((if_neg hle).trans (if_pos hlt))
  refine (if_neg hzero).trans ((if_neg hle).trans ((if_neg hlt).trans ?_))
  simp only [serverWith]
  cases hsnap : StorageEngine.snapshot s.eng with
  | error e =>
    rw [hsnap] at h
    obtain rfl := Except.ok.inj h
    rfl
  | ok data =>
    rw [hsnap] at h
    obtain ⟨⟨nd, err⟩, hcall, h⟩ := orPanic_ok h
    obtain ⟨r, hcreate, rfl⟩ := node_call hcall
    dsimp only
    rw [hcreate]
    cases err with
    | error e =>
      obtain rfl := Except.ok.inj h
      rfl
    | ok u =>
      obtain rfl := Except.ok.inj h
      rfl

theorem deliver_server {nd : Node} {rd : Ready}
    (h : deliver { s with node := nd } ⟨rd.messages, rd.readStates, rd.snapshotToApply⟩ = .ok s') :
    (s.serverWith p timer stopped).pumped nd rd = .ok (s'.serverWith p timer stopped) := by
  -- what is sent and restored before the entries are applied
  obtain ⟨s₁, hs₁, hdelivered⟩ : ∃ s₁ : Loop Node ε, (do
      let s ← s₁.applyCommitted
      let s ← s.maybeSnapshot
      rd.readStates.foldlM resolveRead s) = .ok s' ∧
      s₁.serverWith p timer stopped = (s.serverWith p timer stopped).delivered nd rd := by
    rw [deliver] at h
    rw [Server.delivered]
    cases hsnap : rd.snapshotToApply with
    | none =>
      rw [hsnap] at h
      exact ⟨_, h, rfl⟩
    | some snap =>
      rw [hsnap] at h
      refine ⟨_, h, ?_⟩
      dsimp only
      rw [restore, Server.restore]
      simp only [serverWith]
      cases hrestore : StorageEngine.restoreSnapshot s.eng snap.data with
      | mk eng err =>
        cases err with
        | none => rfl
        | some e => rfl
  obtain ⟨s₂, hs₂, hs₁⟩ := bind_ok hs₁
  obtain ⟨s₃, hs₃, hs₂'⟩ := bind_ok hs₁
  rw [Server.pumped, ← hdelivered, applyCommitted_server hs₂]
  show ((s₂.serverWith p timer stopped).maybeSnapshot >>= _) = _
  rw [maybeSnapshot_server hs₃, foldlM_server (fun s rs s' hs => resolveRead_server hs) hs₂']
  rfl

theorem pump_server (h : s.pump = .ok s') :
    (s.serverWith p timer stopped).pump = .ok (s'.serverWith p timer stopped) := by
  obtain ⟨⟨nd, persisted⟩, hcall, h⟩ := orPanic_ok h
  obtain ⟨⟨nd', rd⟩, hpersist, heq⟩ := Option.map_eq_some_iff.mp hcall
  obtain ⟨rfl, rfl⟩ := Prod.mk.inj heq
  have hpersist' : (s.serverWith p timer stopped).node.persist = some (nd', rd) := hpersist
  rw [Server.pump, hpersist']
  exact deliver_server h

omit [StorageEngine ε] in
theorem answers_server {reqs : List ProposeRequest} {res : ApplyResult}
    (h : reqs.foldlM (fun s r => s.answer r.resultCh res) s = .ok s') :
    s'.serverWith p timer stopped =
      { s.serverWith p timer stopped with
        results := s.results.log ++ reqs.map fun r => (r.resultCh, res) } := by
  induction reqs generalizing s with
  | nil =>
    obtain rfl := Except.ok.inj h
    rw [List.map_nil, List.append_nil]
    rfl
  | cons r reqs ih =>
    rw [List.foldlM_cons] at h
    obtain ⟨s₁, hs₁, h⟩ := bind_ok h
    rw [ih h, answer_server hs₁, List.map_cons, ← List.singleton_append, ← List.append_assoc]
    rfl

omit [StorageEngine ε] in
theorem registers_server {reqs : List ProposeRequest} {indices : List ℕ} {k : ℕ}
    (h : (reqs.zipIdx k).foldlM (register indices) s = .ok s') :
    s'.serverWith p timer stopped = (s.serverWith p timer stopped).register reqs
    (indices.drop k) := by
  induction reqs generalizing s k with
  | nil =>
    obtain rfl := Except.ok.inj h
    rfl
  | cons r reqs ih =>
    rw [List.zipIdx_cons, List.foldlM_cons] at h
    obtain ⟨s₁, hs₁, h⟩ := bind_ok h
    obtain ⟨index, hindex, hs₁⟩ := orPanic_ok hs₁
    obtain rfl := Except.ok.inj hs₁
    obtain ⟨hk, rfl⟩ := List.getElem?_eq_some_iff.mp hindex
    rw [ih h, List.drop_eq_getElem_cons hk]
    simp only [Server.register, serverWith, lookup_insert_eq, List.zip_cons_cons, List.foldl_cons]

theorem submitBatch_server {reqs : List ProposeRequest} (h : s.submitBatch reqs = .ok s') :
    ((s.serverWith p timer stopped).submitBatch reqs >>= fun x =>
      if x.2 then x.1.pump else pure x.1) = .ok (s'.serverWith p timer stopped) := by
  rw [submitBatch] at h
  rw [Server.submitBatch]
  split_ifs at h ⊢ with hnil
  · obtain rfl := Except.ok.inj h
    rfl
  · obtain ⟨⟨nd, res⟩, hcall, h⟩ := orPanic_ok h
    obtain ⟨r, hpropose, rfl⟩ := node_call hcall
    have hpropose' : (s.serverWith p timer stopped).node.r.proposeBatch
        (reqs.map ProposeRequest.data) = some (r, res) := hpropose
    rw [hpropose']
    cases res with
    | error e => exact congrArg Except.ok (answers_server h).symm
    | ok indices =>
      obtain ⟨s₁, hs₁, h⟩ := bind_ok h
      have hregister : s₁.serverWith p timer stopped = _ := registers_server hs₁
      have hpump : (s₁.serverWith p timer stopped).pump = _ := pump_server h
      rw [hregister, List.drop_zero] at hpump
      exact hpump

/-! ## Rounds -/

/-- What the server sees of it. -/
def event (s : Loop Node ε) : LoopEvent → Option Event
  | .tick => some .tick
  | .recv m => some (.recv m)
  | .closed => some .closed
  | .propose => s.proposeCh.head?.map .propose
  | .readIndex => s.readIndexCh.head?.map .readIndex
  | .batchTimer => some .batchTimer
  | .stop _ => some .stop
  | _ => none

omit [StorageEngine ε] in
/-- A part of a round changes neither batch nor timer. -/
theorem server_of_pumps {new rest : List ℕ} (h : s.Pumps new (.ok s') rest) :
    s'.server = s'.serverWith s.pending s.batchTimerC.isSome (s.status = .returned) := by
  obtain ⟨hleads, hs⟩ := h
  rw [server, hs, show s'.pending = s.pending from congrArg Frame.pending hleads.frame,
    show s'.batchTimerC = s.batchTimerC from congrArg Frame.batchTimerC hleads.frame]

/-- A round that ends with a `pump`. -/
theorem server_pump (hpump : s.pump = .ok s') (h : s.Inv) : s.server.pump = .ok s'.server := by
  have hnew : (s.handled ++ []).Subperm (s.accepted.map ProposeRequest.resultCh) := by
    simpa using h.handled
  have hpumps := pump_pumps (h.toFinal.distinct hnew)
  rw [hpump] at hpumps
  rw [server_of_pumps hpumps]
  exact pump_server hpump

/-- A round that submits the batch. -/
theorem flush_server (hflush : s.flush = .ok s') (h : s.Final) (hb : s.Batched) :
    ((s.serverWith [] s.batchTimerC.isSome (s.status = .returned)).submitBatch s.pending >>=
      fun x => if x.2 then x.1.pump else pure x.1) = .ok s'.server := by
  obtain ⟨s₁, hsubmit, hs'⟩ := bind_ok hflush
  obtain rfl := Except.ok.inj hs'
  rw [submitBatch_server hsubmit]
  by_cases hnil : s.pending = []
  · rw [submitBatch, if_pos hnil] at hsubmit
    obtain rfl := Except.ok.inj hsubmit
    rfl
  · have hpumps := submitBatch_pumps hnil (h.distinct hb.handled_append)
    rw [hsubmit] at hpumps
    obtain ⟨hleads, hs⟩ := hpumps
    rw [server, show s₁.status = s.status from hs, show s₁.batchTimerC = s.batchTimerC from
      congrArg Frame.batchTimerC hleads.frame]
    rfl

/-- The round returns, no read gets the number of one that is pending, and pending reads are met in
order. -/
def Plain (s : Loop Node ε) (ev : LoopEvent) : Prop :=
  (∃ s', s.round ev = .ok s') ∧ s.nextReadCtx + 1 < 2 ^ 64 ∧ s.nextReadCtx ∉ s.pendingReadIndexes ∧
    ∀ order, ev = .stop order → order = s.pendingReadIndexes.entries

theorem propose_server (h : s.Inv) (hs : s.status = .running) {req : ProposeRequest}
    {queue : List ProposeRequest} (hqueue : s.proposeCh = req :: queue)
    (hround : s.round .propose = .ok s') : s.server.round (.propose req) = .ok s'.server := by
  have hfinal := h.toFinal.accept hqueue
  have hbatched := (h.between hs).toBatched.accept hqueue
  have hround' : (if s.accept.full then s.accept.disarm.flush
      else if s.accept.pending.length = 1 then .ok s.accept.arm else .ok s.accept) = .ok s' :=
        hround
  have hhandle : s.server.handle (.propose req) =
      if s.accept.full then { s.accept.server with pending := [], batchTimer := false }.submitBatch
        s.accept.pending
      else if s.accept.pending.length = 1 then
        .ok ({ s.accept.server with batchTimer := true }, false)
      else .ok (s.accept.server, false) := by
    rw [accept_eq hqueue]
    rfl
  rw [Server.round, hhandle]
  split_ifs at hround' ⊢ with hcond hone
  · have hflush := flush_server hround' hfinal.disarm hbatched.disarm.1
    rw [hbatched.disarm.2] at hflush
    rw [← hflush]
    have hdisarm : s.accept.disarm.serverWith [] false (s.accept.disarm.status = .returned) =
        { s.accept.server with pending := [], batchTimer := false } ∧
            s.accept.disarm.pending = s.accept.pending := by
      rw [disarm]
      split
      · exact ⟨rfl, rfl⟩
      · exact ⟨rfl, rfl⟩
    rw [← hdisarm.1, ← hdisarm.2]
    rfl
  · obtain rfl := Except.ok.inj hround'
    rfl
  · obtain rfl := Except.ok.inj hround'
    rfl

theorem readIndex_server (h : s.Inv) {ch : ℕ} {queue : List ℕ}
    (hqueue : s.readIndexCh = ch :: queue) (hplain : s.Plain .readIndex)
    (hround : s.round .readIndex = .ok s') : s.server.round (.readIndex ch) = .ok s'.server := by
  obtain ⟨-, hctx, hfresh, -⟩ := hplain
  rw [round, hqueue] at hround
  obtain ⟨⟨nd, res⟩, hcall, hround⟩ := orPanic_ok hround
  obtain ⟨r, hrequest, rfl⟩ := node_call hcall
  have hrequest' : s.server.node.r.requestReadIndex s.server.nextReadCtx = some (r, res) := hrequest
  have hnext : (s.nextReadCtx + 1) % 2 ^ 64 = s.nextReadCtx + 1 := Nat.mod_eq_of_lt hctx
  rw [Server.round, Server.handle]
  dsimp only
  rw [hrequest']
  cases res with
  | error e =>
    rw [answerRead_server hround]
    simp only [hnext]
    rfl
  | ok u =>
    have hpump := server_pump hround (h.read_registered hqueue _ _ _)
    rw [← hpump]
    simp only [hnext, server, serverWith, pairs_insert hfresh]
    rfl

omit [StorageEngine ε] in
/-- The server of the loop after it has failed its batch, with a status. -/
theorem failPending_server (hfail : s.failPending .stopped = .ok s') (h : s.Inv)
    (hs : s.status = .running) (stopped : Bool) :
    s'.serverWith s'.pending s'.batchTimerC.isSome stopped =
      { s.server.failPending .stopped with stopped := stopped } := by
  have hpumps := answers_pumps (h.toFinal.distinct (h.between hs).handled_append) (.error .stopped)
  rw [failPending] at hfail
  rw [hfail] at hpumps
  obtain ⟨hleads, -⟩ := hpumps
  rw [show s'.pending = s.pending from congrArg Frame.pending hleads.frame,
    show s'.batchTimerC = s.batchTimerC from congrArg Frame.batchTimerC hleads.frame,
      answers_server hfail]
  rfl

theorem closed_server (h : s.Inv) (hs : s.status = .running) (hround : s.round .closed = .ok s') :
    s.server.round .closed = .ok s'.server := by
  obtain ⟨s₁, hfail, hround⟩ := bind_ok hround
  obtain rfl := Except.ok.inj hround
  exact congrArg Except.ok (failPending_server hfail h hs true).symm

omit [StorageEngine ε] in
theorem failPendingReadIndexes_server {order : List (Σ _ : ℕ, ℕ)} {e : ServerError}
    (hfail : s.failPendingReadIndexes order e = .ok s')
    (horder : order = s.pendingReadIndexes.entries) :
    s'.serverWith p timer stopped = (s.serverWith p timer stopped).failPendingReadIndexes e := by
  induction order generalizing s with
  | nil =>
    obtain rfl := Except.ok.inj hfail
    simp [Server.failPendingReadIndexes, serverWith, pairs, ← horder]
  | cons x order ih =>
    rw [failPendingReadIndexes, List.foldlM_cons] at hfail
    obtain ⟨s₁, hs₁, hfail⟩ := bind_ok hfail
    obtain ⟨s₂, hs₂, hs₁⟩ := bind_ok hs₁
    obtain rfl := Except.ok.inj hs₁
    rw [answerRead_server hs₂] at hfail
    have hrest : order = (s.pendingReadIndexes.erase x.1).entries := by
      show order = s.pendingReadIndexes.entries.kerase x.1
      rw [← horder, List.kerase_cons_eq rfl]
    rw [ih hfail hrest]
    simp [Server.failPendingReadIndexes, serverWith, pairs, ← horder, ← hrest, Mailbox.push]

theorem stop_server (h : s.Inv) (hs : s.status = .running)
    (hround : s.round (.stop s.pendingReadIndexes.entries) = .ok s') :
    s.server.round .stop = .ok s'.server := by
  obtain ⟨s₁, hfail, hround⟩ := bind_ok hround
  obtain ⟨s₂, hreads, hround⟩ := bind_ok hround
  obtain rfl := Except.ok.inj hround
  have hfinal := h.failPending hs
  rw [hfail] at hfinal
  obtain ⟨hfinal, hsame⟩ := hfinal
  have hnew : (s₁.handled ++ []).Subperm (s₁.accepted.map ProposeRequest.resultCh) := by
    simpa using hfinal.handled
  have hpumps :=
    failPendingReadIndexes_pumps (hfinal.distinct hnew) (.of_eq (by rw [hsame])) .stopped
  rw [hreads] at hpumps
  obtain ⟨hleads, -⟩ := hpumps
  have hserver : s₂.serverWith s₂.pending s₂.batchTimerC.isSome true =
      { (s.server.failPending .stopped).failPendingReadIndexes .stopped with stopped := true } := by
    rw [show s₂.pending = s₁.pending from congrArg Frame.pending hleads.frame,
      show s₂.batchTimerC = s₁.batchTimerC from congrArg Frame.batchTimerC hleads.frame,
      failPendingReadIndexes_server hreads (by rw [hsame]), failPending_server hfail h hs true]
    rfl
  exact congrArg Except.ok hserver.symm

/-- **A round of the loop is a round of the server.** -/
theorem round_server (h : s.Inv) {ev : LoopEvent} (hsees : s.Sees ev) (hplain : s.Plain ev)
    (hround : s.round ev = .ok s') :
    match s.event ev with
    | none => s'.server = s.server
    | some e => s.server.sees e ∧ s.server.round e = .ok s'.server := by
  have hsee : ∀ e, s.status = .running → (e = .batchTimer → s.batchTimerC ≠ none) →
      s.server.sees e := by
    intro e hs htimer
    refine ⟨by simp [server, serverWith, hs], fun he => ?_⟩
    exact Option.isSome_iff_ne_none.mpr (htimer he)
  cases ev with
  | call data =>
    obtain rfl := Except.ok.inj hround
    rfl
  | callRead =>
    obtain rfl := Except.ok.inj hround
    rfl
  | receive ch =>
    obtain rfl := Except.ok.inj hround
    rfl
  | receiveRead ch =>
    obtain rfl := Except.ok.inj hround
    rfl
  | fire t =>
    obtain rfl := Except.ok.inj hround
    rfl
  | close =>
    obtain rfl := Except.ok.inj hround
    rfl
  | tick =>
    refine ⟨hsee _ hsees nofun, ?_⟩
    obtain ⟨nd, hcall, hpump⟩ := orPanic_ok hround
    obtain ⟨r, htick, rfl⟩ := Option.map_eq_some_iff.mp hcall
    have htick' : s.server.node.r.tick = some r := htick
    rw [Server.round, Server.handle, htick']
    exact server_pump hpump (h.of_eq rfl rfl rfl rfl)
  | recv m =>
    refine ⟨hsee _ hsees nofun, ?_⟩
    obtain ⟨nd, hcall, hpump⟩ := orPanic_ok hround
    obtain ⟨r, hstep, rfl⟩ := Option.map_eq_some_iff.mp hcall
    have hstep' : s.server.node.r.step m = some r := hstep
    rw [Server.round, Server.handle, hstep']
    exact server_pump hpump (h.of_eq rfl rfl rfl rfl)
  | closed => exact ⟨hsee _ hsees nofun, closed_server h hsees hround⟩
  | propose =>
    obtain ⟨req, queue, hqueue⟩ := List.exists_cons_of_ne_nil hsees.2
    rw [event, hqueue]
    exact ⟨hsee _ hsees.1 nofun, propose_server h hsees.1 hqueue hround⟩
  | readIndex =>
    obtain ⟨ch, queue, hqueue⟩ := List.exists_cons_of_ne_nil hsees.2
    rw [event, hqueue]
    exact ⟨hsee _ hsees.1 nofun, readIndex_server h hqueue hplain hround⟩
  | batchTimer =>
    obtain ⟨hs, t, ht, -⟩ := hsees
    refine ⟨hsee _ hs fun _ => by rw [Option.mem_def.mp ht]; nofun, ?_⟩
    have hb := h.between hs
    exact flush_server hround ⟨h.calls, h.readCalls, h.submitted, h.handled, h.readHandled,
      h.unblocked⟩ ⟨hb.accepted, hb.handled, nofun, fun _ => rfl⟩
  | stop order =>
    obtain rfl := hplain.2.2.2 order rfl
    exact ⟨hsee _ hsees.1 nofun, stop_server h hsees.1 hround⟩

end Loop

/-- A round of the server that returns. -/
def Server.take {ε : Type} [StorageEngine ε] (t : Server ε) (e : Event) : Option (Server ε) :=
  if t.sees e then (t.round e).toOption else none

/-- **A run of the loop is a run of the server**, if its rounds are plain. -/
theorem Loop.runs_server {ε : Type} [StorageEngine ε] (nd : Node) (eng : ε)
    (batchWindow maxBatchSize snapshotThreshold index : ℕ) {evs : List LoopEvent} {s : Loop Node ε}
    (hplain : Along Loop.step Loop.Plain
    (Loop.new nd eng batchWindow maxBatchSize snapshotThreshold index) evs)
    (hrun : exec Loop.step (Loop.new nd eng batchWindow maxBatchSize snapshotThreshold index) evs =
      some s) : ∃ es, exec Server.take (Loop.new nd eng batchWindow maxBatchSize snapshotThreshold
        index).server es = some s.server := by
  refine (exec_induct (I := fun s : Loop Node ε => s.Inv ∧ ∃ es, exec Server.take
    (Loop.new nd eng batchWindow maxBatchSize snapshotThreshold index).server es = some s.server) ?_
    ⟨Loop.inv_new nd eng batchWindow maxBatchSize snapshotThreshold index, [], rfl⟩ hplain hrun).2
  rintro s₁ ev s₂ ⟨hinv, es, hes⟩ hplain hstep
  refine ⟨hinv.step hstep, ?_⟩
  rw [Loop.step] at hstep
  split_ifs at hstep with hsees
  obtain ⟨s', hround⟩ := hplain.1
  rw [hround] at hstep
  obtain rfl := Option.some.inj hstep
  have hserver := Loop.round_server hinv hsees hplain hround
  cases hev : s₁.event ev with
  | none =>
    rw [hev] at hserver
    exact ⟨es, hserver ▸ hes⟩
  | some e =>
    rw [hev] at hserver
    obtain ⟨hsee, hserver⟩ := hserver
    refine ⟨es ++ [e], exec_append.mpr ⟨_, hes, exec_singleton.mpr ?_⟩⟩
    rw [Server.take, if_pos hsee, hserver]
    rfl

end KvStore
