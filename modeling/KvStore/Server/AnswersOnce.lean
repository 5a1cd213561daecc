import KvStore.Server.EventLoop

/-!
# Every request is answered at most once

A request moves: from `proposeCh` to `pending`, from there to the table of waiters, and out of it
when its entry is applied. A read moves from `readIndexCh` to the table of pending reads, and out of
it when it is confirmed. Whatever the node answers, a channel is in one of these places or has been
answered, and in at most one of them once.

* `Loop.handled`, `Loop.readHandled`: the channels that were answered, and those in the table.
* `Loop.Leads`: what a part of a round does to them, with the channels that are left to it. A part
  that settles a request only moves its channel; one that overwrites a waiter loses one.
* `Loop.Final`: what holds even in the state in which the loop has ended.
* `Loop.Between`: what holds between two rounds. `Loop.Inv.round`: a round keeps it.
* `requests_answered_once`: every accepted proposal is passed to `ProposeBatch` once and in order,
  every channel gets at most one value and no send blocks, and a batch that waits has its timer
  armed.
-/

namespace KvStore

open Machine

namespace Loop

variable {ν ε : Type} {s s' s'' : Loop ν ε} {new rest : List ℕ} {ch : ℕ}

/-! ## What a part of a round does -/

/-- The channels of `propose` that were answered, and those of the waiters. -/
def handled (s : Loop ν ε) : List ℕ :=
  s.results.answered ++ channelsOf ProposeRequest.resultCh s.waiters

/-- The channels of `LinearizableGet` that were answered, and those of the pending reads. -/
def readHandled (s : Loop ν ε) : List ℕ :=
  s.readResults.answered ++ channelsOf id s.pendingReadIndexes

/-- The queues, the batch and its timer, and the history. -/
structure Frame where
  proposeCh : List ProposeRequest
  readIndexCh : List ℕ
  pending : List ProposeRequest
  batchTimer : Option ℕ
  batchTimerC : Option ℕ
  timers : Timers
  calls : ℕ
  readCalls : ℕ
  accepted : List ProposeRequest
  acceptedReads : List ℕ
  batches : List (List ProposeRequest)

/-- The queues, the batch and its timer, and the history. -/
def frame (s : Loop ν ε) : Frame :=
  ⟨s.proposeCh, s.readIndexCh, s.pending, s.batchTimer, s.batchTimerC, s.timers, s.calls,
    s.readCalls, s.accepted, s.acceptedReads, s.batches⟩

/-- No channel is handled twice, those that are left included. -/
structure Distinct (s : Loop ν ε) (rest : List ℕ) : Prop where
  handled : (s.handled ++ rest).Nodup
  readHandled : s.readHandled.Nodup

/-- From `s`, with `new` to be handled, to `s'`, with `rest` left: no channel is handled twice. -/
structure Leads (s : Loop ν ε) (new : List ℕ) (s' : Loop ν ε) (rest : List ℕ) : Prop where
  handled : (s'.handled ++ rest).Subperm (s.handled ++ new)
  readHandled : s'.readHandled.Subperm s.readHandled
  frame : s'.frame = s.frame

/-- A part of a round leads on if it returns, and if it panics; it does not block. -/
def Pumps (s : Loop ν ε) (new : List ℕ) (x : Outcome ν ε (Loop ν ε)) (rest : List ℕ) : Prop :=
  Ensures x (fun s' => (∃ left, s.Leads new s' left) ∧ s'.status = .panicked)
    (fun s' => s.Leads new s' rest ∧ s'.status = s.status)

theorem Leads.refl (s : Loop ν ε) (new : List ℕ) : s.Leads new s new :=
  ⟨.refl _, .refl _, rfl⟩

theorem Leads.trans {mid : List ℕ} (h : s.Leads new s' mid) (h' : s'.Leads mid s'' rest) :
    s.Leads new s'' rest :=
  ⟨h'.handled.trans h.handled, h'.readHandled.trans h.readHandled, h'.frame.trans h.frame⟩

theorem Leads.distinct (h : s.Leads new s' rest) (hd : s.Distinct new) : s'.Distinct rest :=
  ⟨nodup_of_subperm hd.handled h.handled, nodup_of_subperm hd.readHandled h.readHandled⟩

namespace Pumps

variable {mid : List ℕ} {x : Outcome ν ε (Loop ν ε)}

theorem ok (h : s.Leads new s' rest) (hs : s'.status = s.status) : s.Pumps new (.ok s') rest :=
  ⟨h, hs⟩

/-- What is done before leads to where the part begins. -/
theorem after (hx : s'.Pumps mid x rest) (h : s.Leads new s' mid) (hs : s'.status = s.status) :
    s.Pumps new x rest := by
  cases x with
  | error s'' =>
    obtain ⟨⟨left, hleads⟩, hpanic⟩ := hx
    exact ⟨⟨left, h.trans hleads⟩, hpanic⟩
  | ok s'' =>
    obtain ⟨hleads, hs'⟩ := hx
    exact ⟨h.trans hleads, hs'.trans hs⟩

theorem bind {f : Loop ν ε → Outcome ν ε (Loop ν ε)} (h : s.Pumps new x mid)
    (hf : ∀ s', s.Leads new s' mid → s'.Pumps mid (f s') rest) : s.Pumps new (x >>= f) rest :=
  Ensures.bind h fun s' hs' => (hf s' hs'.1).after hs'.1 hs'.2

/-- A call of the node that may panic. -/
theorem orPanic {α : Type} {f : α → Outcome ν ε (Loop ν ε)} (o : Option α)
    (hf : ∀ a, s.Pumps new (f a) rest) : s.Pumps new (s.orPanic o >>= f) rest := by
  cases o with
  | none => exact ⟨⟨new, .refl _, .refl _, rfl⟩, rfl⟩
  | some a => exact hf a

/-- A loop, each round of which handles its own channels. -/
theorem foldlM {α : Type} {f : Loop ν ε → α → Outcome ν ε (Loop ν ε)} (g : α → List ℕ)
    (hf : ∀ (s : Loop ν ε) a rest, s.Distinct (g a ++ rest) → s.Pumps (g a ++ rest) (f s a) rest)
    {as : List α} (hd : s.Distinct (as.flatMap g)) : s.Pumps (as.flatMap g) (as.foldlM f s) [] := by
  refine Ensures.foldlM (I := fun (left : List α) s' =>
    s.Leads (as.flatMap g) s' (left.flatMap g) ∧ s'.status = s.status) ?_ ⟨.refl _ _, rfl⟩
  rintro a left s₁ ⟨hleads, hs⟩
  rw [List.flatMap_cons] at hleads
  exact (hf s₁ a _ (hleads.distinct hd)).after hleads hs

/-- A loop that has no channels of its own. -/
theorem foldlM_quiet {α : Type} {f : Loop ν ε → α → Outcome ν ε (Loop ν ε)}
    (hf : ∀ (s : Loop ν ε) a, s.Distinct [] → s.Pumps [] (f s a) []) (as : List α)
    (hd : s.Distinct []) : s.Pumps [] (as.foldlM f s) [] := by
  refine Ensures.foldlM (I := fun (_ : List α) s' => s.Leads [] s' [] ∧ s'.status = s.status) ?_
    ⟨.refl _ _, rfl⟩
  rintro a left s₁ ⟨hleads, hs⟩
  exact (hf s₁ a (hleads.distinct hd)).after hleads hs

end Pumps

/-! ## Sends -/

theorem answer_eq (h : ch ∉ s.results.answered) (res : ApplyResult) :
    s.answer ch res = .ok { s with results := s.results.push ch res } := by
  rw [answer, Mailbox.send_eq h]

theorem answerRead_eq (h : ch ∉ s.readResults.answered) (res : Except ServerError ℕ) :
    s.answerRead ch res = .ok { s with readResults := s.readResults.push ch res } := by
  rw [answerRead, Mailbox.send_eq h]

/-- A channel that is still to be handled is answered. -/
theorem answer_pumps (hd : s.Distinct (ch :: rest)) (res : ApplyResult) :
    s.Pumps (ch :: rest) (s.answer ch res) rest := by
  have hnot : ch ∉ s.results.answered := fun hmem =>
    List.disjoint_of_nodup_append hd.handled (List.mem_append_left _ hmem) List.mem_cons_self
  rw [answer_eq hnot]
  refine .ok ⟨List.Perm.subperm ?_, .refl _, rfl⟩ rfl
  simp only [handled, Mailbox.answered_push, List.append_assoc, List.singleton_append]
  refine List.Perm.append_left _ ?_
  exact List.perm_middle.symm

/-- A request is registered, and one that was registered at the index before is lost. -/
theorem register_pumps {indices : List ℕ} {x : ProposeRequest × ℕ} :
    s.Pumps (x.1.resultCh :: rest) (register indices s x) rest := by
  refine .orPanic _ fun index => .ok ⟨?_, .refl _, rfl⟩ rfl
  have hsub : (channelsOf ProposeRequest.resultCh (s.waiters.erase index)).Subperm
      (channelsOf ProposeRequest.resultCh s.waiters) := channelsOf_erase.subperm
  simp only [handled, channelsOf_insert, List.append_assoc, List.cons_append]
  refine (List.subperm_append_left _).mpr ?_
  refine List.Subperm.trans ?_ List.perm_middle.symm.subperm
  exact (List.subperm_cons _).mpr ((List.subperm_append_right _).mpr hsub)

/-- All the requests are told the same. -/
theorem answers_pumps {reqs : List ProposeRequest}
    (hd : s.Distinct (reqs.map ProposeRequest.resultCh)) (res : ApplyResult) :
    s.Pumps (reqs.map ProposeRequest.resultCh) (reqs.foldlM (fun s r => s.answer r.resultCh res) s)
    [] := by
  rw [← List.flatMap_pure_eq_map] at hd ⊢
  exact Pumps.foldlM _ (fun s r rest hd => answer_pumps hd res) hd

/-- All the requests are registered. -/
theorem registers_pumps {reqs : List ProposeRequest} (indices : List ℕ)
    (hd : s.Distinct (reqs.map ProposeRequest.resultCh)) :
    s.Pumps (reqs.map ProposeRequest.resultCh) (reqs.zipIdx.foldlM (register indices) s) [] := by
  have hmap : reqs.map ProposeRequest.resultCh = reqs.zipIdx.flatMap fun x => [x.1.resultCh] := by
    rw [← List.map_eq_flatMap, ← List.zipIdx_map_fst 0 reqs, List.map_map]
    simp
  rw [hmap] at hd ⊢
  exact Pumps.foldlM _ (fun s x rest hd => register_pumps) hd

/-- A waiter is answered when its entry is applied. -/
theorem settle_pumps (hd : s.Distinct []) (batchErr : Option EngineError) (entry : LogEntry) :
    s.Pumps [] (settle batchErr s entry) [] := by
  rw [settle]
  dsimp only
  split
  next => exact .ok ⟨.refl _, .refl _, rfl⟩ rfl
  next p hp =>
    have hnot : p.resultCh ∉ s.results.answered :=
      notMem_of_lookup hp (by simpa using hd.handled : s.handled.Nodup)
    rw [answer_eq]
    · refine .ok ⟨List.Perm.subperm ?_, .refl _, rfl⟩ rfl
      rw [List.append_nil, List.append_nil, handled, Mailbox.answered_push]
      exact perm_of_lookup hp _
    · exact hnot

/-- A read is answered when it is confirmed. -/
theorem resolveRead_pumps (hd : s.Distinct []) (rs : ReadState) :
    s.Pumps [] (resolveRead s rs) [] := by
  rw [resolveRead]
  split
  next => exact .ok (.refl _ _) rfl
  next ch hch =>
    have hnot : ch ∉ s.readResults.answered := notMem_of_lookup (f := id) hch hd.readHandled
    rw [answerRead_eq]
    · refine .ok ⟨.refl _, List.Perm.subperm ?_, rfl⟩ rfl
      rw [readHandled, Mailbox.answered_push]
      exact perm_of_lookup (f := id) hch _
    · exact hnot

/-! ## The pump and the batch -/

/-- The state differs in what the channels do not depend on. -/
theorem Leads.of_eq (hh : s'.handled = s.handled) (hr : s'.readHandled = s.readHandled)
    (hf : s'.frame = s.frame) : s.Leads new s' new :=
  ⟨by rw [hh], by rw [hr], hf⟩

variable [RaftNode ν] [StorageEngine ε]

theorem applyCommitted_pumps (hd : s.Distinct []) : s.Pumps [] s.applyCommitted [] := by
  rw [applyCommitted]
  split_ifs with hle
  · exact .ok (.refl _ _) rfl
  refine .orPanic _ fun entries => ?_
  by_cases hnil : entries = []
  · rw [if_pos hnil]
    exact .ok (.refl _ _) rfl
  · rw [if_neg hnil]
    dsimp only
    generalize (if opsOf entries = [] then _ else _) = applied
    have hd' : Distinct { s with eng := applied.1 } [] := ⟨hd.handled, hd.readHandled⟩
    have hloop := Pumps.foldlM_quiet (fun s entry hd => settle_pumps hd applied.2 entry) entries hd'
    exact hloop.after (.of_eq rfl rfl rfl) rfl

theorem maybeSnapshot_pumps : s.Pumps [] s.maybeSnapshot [] := by
  rw [maybeSnapshot]
  split_ifs with hzero hle hlt
  · exact .ok (.refl _ _) rfl
  · exact .ok (.refl _ _) rfl
  · exact .ok (.refl _ _) rfl
  split
  · exact .ok (.refl _ _) rfl
  refine .orPanic _ fun ⟨nd, err⟩ => ?_
  cases err with
  | error e => exact .ok (.of_eq rfl rfl rfl) rfl
  | ok u => exact .ok (.of_eq rfl rfl rfl) rfl

omit [RaftNode ν] in
theorem restore_leads (s : Loop ν ε) (snap : Snapshot) : s.Leads [] (s.restore snap) [] ∧
    (s.restore snap).status = s.status := by
  rw [restore]
  split
  · exact ⟨.of_eq rfl rfl rfl, rfl⟩
  · exact ⟨.of_eq rfl rfl rfl, rfl⟩

theorem deliver_pumps (hd : s.Distinct []) (p : Persisted) : s.Pumps [] (s.deliver p) [] := by
  obtain ⟨messages, readStates, snapshotToApply⟩ := p
  have hfrom : ∀ s₁ : Loop ν ε, s.Leads [] s₁ [] ∧ s₁.status = s.status → s.Pumps [] (do
      let s ← applyCommitted { s₁ with sent := s₁.sent ++ messages }
      let s ← s.maybeSnapshot
      readStates.foldlM resolveRead s) [] := by
    rintro s₁ ⟨hleads, hs⟩
    have hleads' : s.Leads [] { s₁ with sent := s₁.sent ++ messages } [] :=
      hleads.trans (.of_eq rfl rfl rfl)
    refine .after ((applyCommitted_pumps (hleads'.distinct hd)).bind fun s₂ hs₂ => ?_) hleads' hs
    refine maybeSnapshot_pumps.bind fun s₃ hs₃ => ?_
    exact Pumps.foldlM_quiet (fun s rs hd => resolveRead_pumps hd rs) readStates
      (hs₃.distinct (hs₂.distinct (hleads'.distinct hd)))
  cases snapshotToApply with
  | none => exact hfrom s ⟨.refl _ _, rfl⟩
  | some snap => exact hfrom _ (s.restore_leads snap)

/-- **`pump` answers nobody twice.** -/
theorem pump_pumps (hd : s.Distinct []) : s.Pumps [] s.pump [] := by
  rw [pump]
  refine .orPanic _ fun ⟨nd, persisted⟩ => ?_
  cases persisted with
  | none => exact .ok (.of_eq rfl rfl rfl) rfl
  | some p =>
    have hd' : Distinct { s with node := nd } [] := ⟨hd.handled, hd.readHandled⟩
    exact (deliver_pumps hd' p).after (.of_eq rfl rfl rfl) rfl

/-- **`submitBatch` passes the batch on once**, and answers or registers each of its requests. -/
theorem submitBatch_pumps {reqs : List ProposeRequest} (hne : reqs ≠ [])
    (hd : s.Distinct (reqs.map ProposeRequest.resultCh)) :
    Pumps { s with batches := s.batches ++ [reqs] } (reqs.map ProposeRequest.resultCh)
    (s.submitBatch reqs) [] := by
  rw [submitBatch, if_neg hne]
  refine .orPanic _ fun ⟨nd, res⟩ => ?_
  have hd' : Distinct { s with batches := s.batches ++ [reqs], node := nd }
    (reqs.map ProposeRequest.resultCh) :=
    ⟨hd.handled, hd.readHandled⟩
  cases res with
  | error e => exact (answers_pumps hd' _).after (.of_eq rfl rfl rfl) rfl
  | ok indices =>
    have hsubmit := (registers_pumps indices hd').bind fun s₁ hs₁ => pump_pumps (hs₁.distinct hd')
    exact hsubmit.after (.of_eq rfl rfl rfl) rfl

omit [RaftNode ν] [StorageEngine ε] in
/-- `failPendingReadIndexes` answers every pending read, in any order. -/
theorem failPendingReadIndexes_pumps (hd : s.Distinct []) {order : List (Σ _ : ℕ, ℕ)}
    (horder : order.Perm s.pendingReadIndexes.entries) (e : ServerError) :
    s.Pumps [] (s.failPendingReadIndexes order e) [] := by
  have hloop : Ensures (s.failPendingReadIndexes order e)
      (fun s' => (∃ left, s.Leads [] s' left) ∧ s'.status = .panicked)
      (fun s' => (s.Leads [] s' [] ∧ s'.status = s.status) ∧
        List.Perm [] s'.pendingReadIndexes.entries) := by
    refine Ensures.foldlM (I := fun left s' =>
      (s.Leads [] s' [] ∧ s'.status = s.status) ∧ left.Perm s'.pendingReadIndexes.entries) ?_
        ⟨⟨.refl _ _, rfl⟩, horder⟩
    rintro x left s₁ ⟨⟨hleads, hs⟩, hperm⟩
    have hlookup : s₁.pendingReadIndexes.lookup x.1 = some x.2 :=
      AList.mem_lookup_iff.mpr (hperm.subset List.mem_cons_self)
    have hnot : x.2 ∉ s₁.readResults.answered :=
      notMem_of_lookup (f := id) hlookup (hleads.distinct hd).readHandled
    rw [answerRead_eq hnot]
    refine ⟨⟨hleads.trans ⟨.refl _, List.Perm.subperm ?_, rfl⟩, hs⟩, ?_⟩
    · rw [readHandled, Mailbox.answered_push]
      exact perm_of_lookup (f := id) hlookup _
    · have hkeys : (x :: left).NodupKeys :=
        (List.perm_nodupKeys hperm).mpr s₁.pendingReadIndexes.nodupKeys
      have herase := hperm.kerase (a := x.1) hkeys
      rwa [List.kerase_cons_eq rfl] at herase
  exact hloop.mono fun s' hs' => hs'.1

/-! ## Between two rounds -/

/-- What holds in every state, also in the one the loop has ended in. -/
structure Final (s : Loop ν ε) : Prop where
  calls : (s.accepted ++ s.proposeCh).map ProposeRequest.resultCh = List.range s.calls
  readCalls : s.acceptedReads ++ s.readIndexCh = List.range s.readCalls
  submitted : s.batches.flatten <+: s.accepted
  handled : s.handled.Subperm (s.accepted.map ProposeRequest.resultCh)
  readHandled : s.readHandled.Subperm s.acceptedReads
  unblocked : s.status ≠ .blocked

/-- What the batch rests on: a request that was accepted was passed on or waits in the batch, and
only one that was passed on is handled. The timer that the loop listens to is armed, and can be
stopped. -/
structure Batched (s : Loop ν ε) : Prop where
  accepted : s.accepted = s.batches.flatten ++ s.pending
  handled : s.handled.Subperm (s.batches.flatten.map ProposeRequest.resultCh)
  armed : ∀ t, s.batchTimerC = some t → s.timers.Armed t
  timer : s.batchTimer = none → s.batchTimerC = none

/-- Between two rounds the loop listens to a timer if requests wait. -/
structure Between (s : Loop ν ε) : Prop extends Batched s where
  waits : s.pending ≠ [] → s.batchTimerC ≠ none

/-- What holds before and after every step. -/
structure Inv (s : Loop ν ε) : Prop extends Final s where
  between : s.status = .running → s.Between

namespace Final

omit [RaftNode ν] [StorageEngine ε]

theorem nodup (h : s.Final) : (s.accepted.map ProposeRequest.resultCh).Nodup := by
  have hnodup : ((s.accepted ++ s.proposeCh).map ProposeRequest.resultCh).Nodup :=
    h.calls ▸ List.nodup_range
  rw [List.map_append] at hnodup
  exact hnodup.of_append_left

theorem readNodup (h : s.Final) : s.acceptedReads.Nodup := by
  have hnodup : (s.acceptedReads ++ s.readIndexCh).Nodup := h.readCalls ▸ List.nodup_range
  exact hnodup.of_append_left

theorem distinct (h : s.Final)
    (hnew : (s.handled ++ new).Subperm (s.accepted.map ProposeRequest.resultCh)) : s.Distinct new :=
  ⟨nodup_of_subperm h.nodup hnew, nodup_of_subperm h.readNodup h.readHandled⟩

/-- What a part of a round leads to. -/
theorem leads (h : s.Final)
    (hnew : (s.handled ++ new).Subperm (s.accepted.map ProposeRequest.resultCh))
    (hl : s.Leads new s' rest) (hs : s'.status ≠ .blocked) : s'.Final := by
  have hf := hl.frame
  simp only [frame, Frame.mk.injEq] at hf
  obtain ⟨hproposeCh, hreadIndexCh, -, -, -, -, hcalls, hreadCalls, haccepted, hacceptedReads,
      hbatches⟩ := hf
  constructor
  · rw [haccepted, hproposeCh, hcalls]; exact h.calls
  · rw [hacceptedReads, hreadIndexCh, hreadCalls]; exact h.readCalls
  · rw [hbatches, haccepted]; exact h.submitted
  · rw [haccepted]
    exact ((List.sublist_append_left _ _).subperm.trans hl.handled).trans hnew
  · rw [hacceptedReads]
    exact hl.readHandled.trans h.readHandled
  · exact hs

end Final

omit [RaftNode ν] [StorageEngine ε] in
theorem Between.leads (h : s.Between) (hl : s.Leads [] s' []) : s'.Between := by
  have hf := hl.frame
  simp only [frame, Frame.mk.injEq] at hf
  obtain ⟨-, -, hpending, htimer, htimerC, htimers, -, -, haccepted, -, hbatches⟩ := hf
  have hhandled : s'.handled.Subperm s.handled := by simpa using hl.handled
  constructor
  · constructor
    · rw [haccepted, hbatches, hpending]; exact h.accepted
    · rw [hbatches]; exact hhandled.trans h.handled
    · rw [htimerC, htimers]; exact h.armed
    · rw [htimer, htimerC]; exact h.timer
  · rw [hpending, htimerC]; exact h.waits

omit [RaftNode ν] [StorageEngine ε] in
/-- Nothing more is asked of a loop that has ended. -/
theorem Final.inv (h : s.Final) (hs : s.status ≠ .running) : s.Inv :=
  ⟨h, fun hrun => absurd hrun hs⟩

omit [RaftNode ν] [StorageEngine ε] in
/-- A part of a round of a loop that runs, with the channels that it handles. -/
theorem Final.pumps (h : s.Final) (hnew :
    (s.handled ++ new).Subperm (s.accepted.map ProposeRequest.resultCh))
    {x : Outcome ν ε (Loop ν ε)} (hx : s.Pumps new x rest) : Ensures x Inv fun s' =>
    (s.Leads new s' rest ∧ s'.status = s.status) ∧ s'.Final := by
  cases x with
  | error s' =>
    obtain ⟨⟨left, hleads⟩, hpanic⟩ := hx
    exact (h.leads hnew hleads (by rw [hpanic]; decide)).inv (by rw [hpanic]; decide)
  | ok s' =>
    obtain ⟨hleads, hs⟩ := hx
    exact ⟨⟨hleads, hs⟩, h.leads hnew hleads (by rw [hs]; exact h.unblocked)⟩

omit [RaftNode ν] [StorageEngine ε] in
/-- The state differs in what nothing here rests on. -/
theorem Inv.of_eq (h : s.Inv) (hh : s'.handled = s.handled) (hr : s'.readHandled = s.readHandled)
    (hf : s'.frame = s.frame) (hs : s'.status = s.status) : s'.Inv := by
  have hl : s.Leads [] s' [] := .of_eq hh hr hf
  have hnew : (s.handled ++ []).Subperm (s.accepted.map ProposeRequest.resultCh) := by
    simpa using h.handled
  exact ⟨h.toFinal.leads hnew hl (hs ▸ h.unblocked), fun hrun => (h.between (hs ▸ hrun)).leads hl⟩

omit [RaftNode ν] [StorageEngine ε] in
/-- A call of the node that may panic. -/
theorem Inv.orPanic (h : s.Inv) {α : Type} {f : α → Outcome ν ε (Loop ν ε)} (o : Option α)
    (hf : ∀ a, Ensures (f a) Inv Inv) : Ensures (s.orPanic o >>= f) Inv Inv := by
  cases o with
  | none =>
    exact Final.inv ⟨h.calls, h.readCalls, h.submitted, h.handled, h.readHandled, nofun⟩ nofun
  | some a => exact hf a

/-- A `pump` keeps what holds between two rounds. -/
theorem Inv.pump (h : s.Inv) (hs : s.status = .running) : Ensures s.pump Inv Inv := by
  have hnew : (s.handled ++ []).Subperm (s.accepted.map ProposeRequest.resultCh) := by
    simpa using h.handled
  refine (h.toFinal.pumps hnew (pump_pumps (h.toFinal.distinct hnew))).mono ?_
  rintro s' ⟨⟨hleads, -⟩, hfinal⟩
  exact ⟨hfinal, fun _ => (h.between hs).leads hleads⟩

omit [RaftNode ν] [StorageEngine ε] in
theorem Batched.handled_append (h : s.Batched) :
    (s.handled ++ s.pending.map ProposeRequest.resultCh).Subperm
    (s.accepted.map ProposeRequest.resultCh) := by
  rw [h.accepted, List.map_append]
  exact (List.subperm_append_right _).mpr h.handled

/-- **A batch is submitted once**, and the next one begins. -/
theorem flush_inv (h : s.Final) (hb : s.Batched) : Ensures s.flush Inv Inv := by
  rw [flush]
  by_cases hnil : s.pending = []
  · rw [submitBatch, if_pos hnil]
    refine ⟨⟨h.calls, h.readCalls, h.submitted, h.handled, h.readHandled, h.unblocked⟩, fun _ =>
      ⟨⟨?_, hb.handled, hb.armed, hb.timer⟩, fun hne => absurd rfl hne⟩⟩
    rw [← hnil]
    exact hb.accepted
  · have hflatten : (s.batches ++ [s.pending]).flatten = s.accepted := by simp [hb.accepted]
    have h₁ : Final { s with batches := s.batches ++ [s.pending] } :=
      ⟨h.calls, h.readCalls, hflatten ▸ List.prefix_rfl, h.handled, h.readHandled, h.unblocked⟩
    have hd := h.distinct hb.handled_append
    refine (h₁.pumps hb.handled_append (submitBatch_pumps hnil hd)).bind ?_
    rintro s' ⟨⟨hleads, hs⟩, hfinal⟩
    refine ⟨⟨hfinal.calls, hfinal.readCalls, hfinal.submitted, hfinal.handled, hfinal.readHandled,
      hfinal.unblocked⟩, fun _ => ⟨⟨?_, ?_, ?_, ?_⟩, fun hne => absurd rfl hne⟩⟩
    all_goals
      have hf := hleads.frame
      simp only [frame, Frame.mk.injEq] at hf
      obtain ⟨-, -, -, htimer, htimerC, htimers, -, -, haccepted, -, hbatches⟩ := hf
    · show s'.accepted = s'.batches.flatten ++ []
      rw [haccepted, hbatches, hflatten, List.append_nil]
    · show s'.handled.Subperm (s'.batches.flatten.map _)
      rw [hbatches, hflatten, ← haccepted]
      exact hfinal.handled
    · show ∀ t, s'.batchTimerC = some t → s'.timers.Armed t
      rw [htimerC, htimers]
      exact hb.armed
    · show s'.batchTimer = none → s'.batchTimerC = none
      rw [htimer, htimerC]
      exact hb.timer

/-! ## Rounds -/

section Accept

omit [RaftNode ν] [StorageEngine ε]

variable {req : ProposeRequest} {queue : List ProposeRequest}

theorem accept_eq (h : s.proposeCh = req :: queue) : s.accept =
    { s with proposeCh := queue, accepted := s.accepted ++ [req], pending := s.pending ++ [req] }
        := by
  rw [accept, h]
  rfl

theorem Final.accept (h : s.Final) (hqueue : s.proposeCh = req :: queue) : s.accept.Final := by
  rw [accept_eq hqueue]
  refine ⟨?_, h.readCalls, h.submitted.trans (List.prefix_append _ _), ?_, h.readHandled,
    h.unblocked⟩
  · rw [← h.calls, hqueue, List.append_assoc, List.singleton_append]
  · exact h.handled.trans ((List.sublist_append_left _ _).map _).subperm

theorem Batched.accept (h : s.Batched) (hqueue : s.proposeCh = req :: queue) :
    s.accept.Batched := by
  rw [accept_eq hqueue]
  exact ⟨by rw [h.accepted, List.append_assoc], h.handled, h.armed, h.timer⟩

theorem Final.disarm (h : s.Final) : s.disarm.Final := by
  rw [Loop.disarm]
  split
  · exact h
  · exact ⟨h.calls, h.readCalls, h.submitted, h.handled, h.readHandled, h.unblocked⟩

theorem Batched.disarm (h : s.Batched) : s.disarm.Batched ∧ s.disarm.batchTimerC = none := by
  rw [Loop.disarm]
  split
  next hnone => exact ⟨h, h.timer hnone⟩
  next => exact ⟨⟨h.accepted, h.handled, nofun, fun _ => rfl⟩, rfl⟩

end Accept

namespace Inv

/-- A request is received. -/
theorem propose (h : s.Inv) (hs : s.status = .running) (hne : s.proposeCh ≠ []) :
    Ensures (s.round .propose) Inv Inv := by
  obtain ⟨req, queue, hqueue⟩ := List.exists_cons_of_ne_nil hne
  have hb := h.between hs
  have hfinal := h.toFinal.accept hqueue
  have hbatched := hb.toBatched.accept hqueue
  show Ensures (if s.accept.full then _ else _) Inv Inv
  split_ifs with hfull hone
  · exact flush_inv hfinal.disarm hbatched.disarm.1
  · refine ⟨⟨hfinal.calls, hfinal.readCalls, hfinal.submitted, hfinal.handled, hfinal.readHandled,
      hfinal.unblocked⟩, fun _ =>
        ⟨⟨hbatched.accepted, hbatched.handled, ?_, nofun⟩, fun _ => nofun⟩⟩
    rintro t ht
    obtain rfl := Option.some.inj ht
    exact Timers.armed_new
  · refine ⟨hfinal, fun _ => ⟨hbatched, fun _ => ?_⟩⟩
    -- the batch had a request before
    rw [accept_eq hqueue] at hone ⊢
    refine hb.waits fun hnil => hone ?_
    rw [hnil]
    rfl

section Reads

omit [RaftNode ν] [StorageEngine ε]

variable {queue : List ℕ}

/-- A read that is received: its channel is new, and the table may take it. -/
theorem read_received (h : s.Inv) (hqueue : s.readIndexCh = ch :: queue) :
    ch ∉ s.acceptedReads ∧ s.acceptedReads ++ [ch] ++ queue = List.range s.readCalls ∧
      (s.readHandled ++ [ch]).Subperm (s.acceptedReads ++ [ch]) := by
  have hnodup : (s.acceptedReads ++ s.readIndexCh).Nodup := h.readCalls ▸ List.nodup_range
  rw [hqueue] at hnodup
  refine ⟨fun hmem => List.disjoint_of_nodup_append hnodup hmem List.mem_cons_self, ?_,
    (List.subperm_append_right _).mpr h.readHandled⟩
  rw [← h.readCalls, hqueue, List.append_assoc, List.singleton_append]

theorem read_registered (h : s.Inv) (hqueue : s.readIndexCh = ch :: queue) (node : ν)
    (ctx next : ℕ) : Inv { s with
      readIndexCh := queue
      acceptedReads := s.acceptedReads ++ [ch]
      nextReadCtx := next
      node := node
      pendingReadIndexes := s.pendingReadIndexes.insert ctx ch } := by
  obtain ⟨-, hreadCalls, hreads⟩ := h.read_received hqueue
  have hsub : (s.readResults.answered ++ channelsOf id (s.pendingReadIndexes.insert ctx ch)).Subperm
      (s.readHandled ++ [ch]) := by
    rw [channelsOf_insert, readHandled, List.append_assoc]
    refine (List.subperm_append_left _).mpr ?_
    refine List.Subperm.trans ?_ List.perm_append_comm.subperm
    exact (List.subperm_cons _).mpr channelsOf_erase.subperm
  refine ⟨⟨h.calls, hreadCalls, h.submitted, h.handled, hsub.trans hreads, h.unblocked⟩, fun hs =>
    ?_⟩
  have hb := h.between hs
  exact ⟨⟨hb.accepted, hb.handled, hb.armed, hb.timer⟩, hb.waits⟩

end Reads

/-- A read is received. -/
theorem readIndex (h : s.Inv) (hs : s.status = .running) :
    Ensures (s.round .readIndex) Inv Inv := by
  have hb := h.between hs
  rw [round]
  split
  next => exact h
  next ch queue hqueue =>
    obtain ⟨hnot, hreadCalls, hreads⟩ := h.read_received hqueue
    have h₁ : Inv { s with
        readIndexCh := queue
        acceptedReads := s.acceptedReads ++ [ch]
        nextReadCtx := (s.nextReadCtx + 1) % 2 ^ 64 } :=
      ⟨⟨h.calls, hreadCalls, h.submitted, h.handled,
        (List.sublist_append_left _ _).subperm.trans hreads, h.unblocked⟩, fun _ =>
          ⟨⟨hb.accepted, hb.handled, hb.armed, hb.timer⟩, hb.waits⟩⟩
    refine h₁.orPanic _ fun ⟨nd, res⟩ => ?_
    cases res with
    | error e =>
      have hsend : ch ∉ s.readResults.answered := fun hmem =>
        hnot (h.readHandled.subset (List.mem_append_left _ hmem))
      have hperm : (s.readResults.answered ++ [ch] ++ channelsOf id s.pendingReadIndexes).Perm
          (s.readHandled ++ [ch]) := by
        rw [List.append_assoc, readHandled, List.append_assoc]
        exact List.perm_append_comm.append_left _
      show Ensures (answerRead _ ch _) Inv Inv
      rw [answerRead_eq]
      · refine ⟨⟨h.calls, hreadCalls, h.submitted, h.handled, ?_, h.unblocked⟩,
          fun _ => ⟨⟨hb.accepted, hb.handled, hb.armed, hb.timer⟩, hb.waits⟩⟩
        rw [readHandled, Mailbox.answered_push]
        exact hperm.subperm.trans hreads
      · exact hsend
    | ok u => exact Inv.pump (h.read_registered hqueue nd _ _) hs

omit [RaftNode ν] [StorageEngine ε] in
/-- The requests of the batch are told that the loop ends. -/
theorem failPending (h : s.Inv) (hs : s.status = .running) :
    Ensures (s.failPending .stopped) Inv fun s' =>
    s'.Final ∧ s'.pendingReadIndexes = s.pendingReadIndexes := by
  have hnew := (h.between hs).handled_append
  have hfinal := h.toFinal.pumps hnew (answers_pumps (h.toFinal.distinct hnew) (.error .stopped))
  have hreads : Ensures (s.failPending .stopped) (fun _ => True) fun s' =>
      s'.pendingReadIndexes = s.pendingReadIndexes := by
    refine Ensures.foldlM (I :=
      fun _ (s' : Loop ν ε) => s'.pendingReadIndexes = s.pendingReadIndexes) ?_ rfl
    rintro r left s₁ hs₁
    rw [answer]
    split
    · trivial
    · exact hs₁
  exact (hfinal.and hreads).mono fun s' hs' => ⟨hs'.1.2, hs'.2⟩

omit [RaftNode ν] [StorageEngine ε] in
/-- A state of a loop that has returned. -/
theorem of_returned (h : s.Final) : Inv { s with status := .returned } :=
  Final.inv ⟨h.calls, h.readCalls, h.submitted, h.handled, h.readHandled, nofun⟩ nofun

theorem closed (h : s.Inv) (hs : s.status = .running) : Ensures (s.round .closed) Inv Inv :=
  (h.failPending hs).bind fun _ hs' => of_returned hs'.1

theorem stop (h : s.Inv) (hs : s.status = .running) {order : List (Σ _ : ℕ, ℕ)}
    (horder : order.Perm s.pendingReadIndexes.entries) :
    Ensures (s.round (.stop order)) Inv Inv := by
  refine (h.failPending hs).bind ?_
  rintro s₁ ⟨hfinal, hreads⟩
  have hnew : (s₁.handled ++ []).Subperm (s₁.accepted.map ProposeRequest.resultCh) := by
    simpa using hfinal.handled
  have hfail := failPendingReadIndexes_pumps (hfinal.distinct hnew) (hreads ▸ horder) .stopped
  exact (hfinal.pumps hnew hfail).bind fun _ hs' => of_returned hs'.2

/-- **Whatever happens, the loop keeps its books**, also if the round ends early. -/
theorem round (h : s.Inv) {ev : LoopEvent} (hsees : s.Sees ev) : Ensures (s.round ev) Inv Inv := by
  cases ev with
  | call data =>
    refine ⟨⟨?_, h.readCalls, h.submitted, h.handled, h.readHandled, h.unblocked⟩,
      fun hs =>
        ⟨⟨(h.between hs).accepted, (h.between hs).handled, (h.between hs).armed,
          (h.between hs).timer⟩, (h.between hs).waits⟩⟩
    rw [← List.append_assoc, List.map_append, h.calls, List.range_succ]
    rfl
  | callRead =>
    refine ⟨⟨h.calls, ?_, h.submitted, h.handled, h.readHandled, h.unblocked⟩,
      fun hs =>
        ⟨⟨(h.between hs).accepted, (h.between hs).handled, (h.between hs).armed,
          (h.between hs).timer⟩, (h.between hs).waits⟩⟩
    rw [← List.append_assoc, h.readCalls, List.range_succ]
  | receive ch => exact h.of_eq rfl rfl rfl rfl
  | receiveRead ch => exact h.of_eq rfl rfl rfl rfl
  | fire t =>
    exact ⟨⟨h.calls, h.readCalls, h.submitted, h.handled, h.readHandled, h.unblocked⟩,
      fun hs => ⟨⟨(h.between hs).accepted, (h.between hs).handled,
        fun u hu => ((h.between hs).armed u hu).fire t, (h.between hs).timer⟩,
          (h.between hs).waits⟩⟩
  | close => exact h.of_eq rfl rfl rfl rfl
  | tick => exact h.orPanic _ fun nd => Inv.pump (h.of_eq rfl rfl rfl rfl) hsees
  | recv m => exact h.orPanic _ fun nd => Inv.pump (h.of_eq rfl rfl rfl rfl) hsees
  | closed => exact h.closed hsees
  | propose => exact h.propose hsees.1 hsees.2
  | readIndex => exact h.readIndex hsees.1
  | batchTimer =>
    have hb := h.between hsees.1
    exact flush_inv ⟨h.calls, h.readCalls, h.submitted, h.handled, h.readHandled, h.unblocked⟩
      ⟨hb.accepted, hb.handled, nofun, fun _ => rfl⟩
  | stop order => exact h.stop hsees.1 hsees.2.2

end Inv

omit [RaftNode ν] [StorageEngine ε] in
/-- A new loop. -/
theorem inv_new (node : ν) (eng : ε) (batchWindow maxBatchSize snapshotThreshold index : ℕ) :
    (Loop.new node eng batchWindow maxBatchSize snapshotThreshold index).Inv :=
  ⟨⟨rfl, rfl, List.prefix_rfl, .refl _, .refl _, nofun⟩,
    fun _ => ⟨⟨rfl, .refl _, nofun, fun _ => rfl⟩, fun hne => absurd rfl hne⟩⟩

theorem Inv.step (h : s.Inv) {ev : LoopEvent} (hstep : s.step ev = some s') : s'.Inv := by
  rw [Loop.step] at hstep
  split_ifs at hstep with hsees
  have hround := h.round hsees
  cases hout : s.round ev with
  | ok s₁ =>
    rw [hout] at hstep hround
    obtain rfl := Option.some.inj hstep
    exact hround
  | error s₁ =>
    rw [hout] at hstep hround
    obtain rfl := Option.some.inj hstep
    exact hround

end Loop

/-- **Every request is answered at most once, and none waits without a timer.** Whatever events the
loop sees and whatever the calls of its node return:

* a channel is made for every call, the requests are received in the order of the calls, and what
  `ProposeBatch` was called with, one call after the other, is a part of them from the start, each
  once;
* on no channel is a second value sent, and no send blocks;
* between two rounds, what was received and not passed on is the batch, and if there is one, the
  loop listens to a timer that runs or has fired. -/
theorem requests_answered_once {ν ε : Type} [RaftNode ν] [StorageEngine ε] (node : ν) (eng : ε)
    (batchWindow maxBatchSize snapshotThreshold index : ℕ) {evs : List LoopEvent} {s : Loop ν ε}
    (hrun : exec Loop.step (Loop.new node eng batchWindow maxBatchSize snapshotThreshold index)
    evs = some s) : ((s.accepted ++ s.proposeCh).map ProposeRequest.resultCh = List.range s.calls ∧
      s.batches.flatten <+: s.accepted) ∧
    (s.results.answered.Nodup ∧ s.readResults.answered.Nodup ∧ s.status ≠ .blocked) ∧
    (s.status = .running → s.accepted = s.batches.flatten ++ s.pending ∧
      (s.pending ≠ [] → ∃ t, s.batchTimerC = some t ∧ s.timers.Armed t)) := by
  have h : s.Inv :=
    exec_induct (P := fun _ _ => True) (fun _ _ _ h _ hstep => Loop.Inv.step h hstep)
    (Loop.inv_new node eng batchWindow maxBatchSize snapshotThreshold index)
      (along_of_all (fun _ _ => trivial) _ _)
    hrun
  have hanswered : s.handled.Nodup := nodup_of_subperm h.toFinal.nodup h.handled
  have hreads : s.readHandled.Nodup := nodup_of_subperm h.toFinal.readNodup h.readHandled
  refine ⟨⟨h.calls, h.submitted⟩, ⟨hanswered.of_append_left, hreads.of_append_left, h.unblocked⟩,
    fun hs => ?_⟩
  have hb := h.between hs
  refine ⟨hb.accepted, fun hne => ?_⟩
  obtain ⟨t, ht⟩ := Option.ne_none_iff_exists'.mp (hb.waits hne)
  exact ⟨t, ht, hb.armed t ht⟩

/-- A cluster of one node elects itself. A proposal waits for the timer and is answered, a second
one waits, and a read is answered. -/
def proposeTwice : List LoopEvent :=
  [.tick, .tick, .call (encodeCommand ⟨cmdPut, [1], [2]⟩), .propose, .fire 0, .batchTimer,
    .receive 0, .call (encodeCommand ⟨cmdDelete, [1], []⟩), .propose, .callRead, .readIndex]

/-- The second proposal waits for the second timer. -/
theorem requests_answered_once_alone : ∃ s : Loop Node FlakyStore,
    exec Loop.step (Loop.new ⟨Raft.start ⟨1, [], 2, 1, fun _ => 0⟩, []⟩ {} 1 64 0 0) proposeTwice =
    some s ∧ s.status = .running ∧ s.results.answered = [0] ∧ s.readResults.answered = [0] ∧
    s.pending ≠ [] ∧ s.accepted = s.batches.flatten ++ s.pending ∧ ∃ t, s.batchTimerC = some t ∧
      s.timers.Armed t := by
  have hrun :
      ((exec Loop.step
        (Loop.new (⟨Raft.start ⟨1, [], 2, 1, fun _ => 0⟩, []⟩ : Node) ({} : FlakyStore) 1 64 0 0)
          proposeTwice).map fun s => decide (s.status = .running ∧ s.results.answered = [0] ∧
            s.readResults.answered = [0] ∧ s.pending ≠ [])) = some true := by
    decide +kernel
  obtain ⟨s, h, hrun⟩ := Option.map_eq_some_iff.mp hrun
  obtain ⟨hstatus, hresults, hreads, hpending⟩ := of_decide_eq_true hrun
  obtain ⟨-, -, hbetween⟩ := requests_answered_once _ _ _ _ _ _ h
  obtain ⟨haccepted, harmed⟩ := hbetween hstatus
  exact ⟨s, h, hstatus, hresults, hreads, hpending, haccepted, harmed hpending⟩

end KvStore
