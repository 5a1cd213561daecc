import KvStore.Raft.Refinement
import KvStore.Raft.Turns

/-!
# Accesses to the log

Which calls on a node index or slice its log out of range, in any state of any run. There are two:

* an `AppendEntries` with entries from index one on, at a node whose boundary is above zero: the
  check at `PrevLogIndex` is passed, since the sentinel of an empty log and an index below the
  window both have term zero, and the loop then cuts the log at or below its sentinel;
* a `CreateSnapshot` at a committed index that the log does not reach any more, since a snapshot has
  replaced it.

`Op.OutOfRange` says when; `log_access` that it is exact, and that otherwise the log is never empty
and `Entries` and `Ready` stay in range. `append_below_boundary` is a run that gets there.
-/

namespace KvStore

open Consensus Machine

variable {S : Prop} {mb : Members} {A : Abs} {n : ℕ} {r r' : Raft} {m : Message} {c : Cluster}
  {l : List LogEntry} {b : ℕ}

/-- The call accesses the log out of range. -/
def Op.OutOfRange (r : Raft) : Op → Prop
  | .step m =>
    m.toId = r.id ∧ m.type = .appendEntries ∧ r.currentTerm ≤ m.term ∧ m.prevLogIndex = 0 ∧
      m.entries ≠ [] ∧ ∃ s ∈ r.log.head?, 0 < s.index ∧
        ¬(s.index = 1 ∧ m.entries.head?.map LogEntry.term = some s.term)
  | .createSnapshot index _ =>
    index ≤ r.commitIndex ∧ (∃ first ∈ r.firstIndex, first < index) ∧
      ∃ last ∈ r.lastLogIndex, last < index
  | _ => False

/-- The log is not empty, and `Entries` and `Ready` do not access it out of range. -/
def Raft.InRange (r : Raft) : Prop :=
  r.log ≠ [] ∧ (∀ start stop, r.entries start stop ≠ none) ∧ r.ready ≠ none

/-! ## Calls that only read the log -/

namespace Spans

theorem of_log_eq (h : Spans r l b) (hlog : r'.log = r.log) : Spans r' l b :=
  ⟨hlog.trans h.log_eq, h.le, h.indexed⟩

theorem sendAppendEntries_some (h : Spans r l b) (p ctx : ℕ) :
    ∃ r', r.sendAppendEntries p ctx = some r' := by
  simp only [Raft.sendAppendEntries, h.firstIndex, h.lastLogIndex, Option.bind_eq_bind,
    Option.bind_some, h.entries]
  split_ifs
  · exact ⟨_, rfl⟩
  all_goals
    obtain ⟨t, ht⟩ := h.termAt _
    rw [ht]
    exact ⟨_, rfl⟩

theorem broadcast_some (h : Spans r l b) (ctx : ℕ) :
    ∃ r', r.broadcast ctx = some r' ∧ Spans r' l b := by
  refine foldlM_inv (I := fun r => Spans r l b) (fun r₁ h₁ p _ => ?_) h
  obtain ⟨r₂, h₂⟩ := h₁.sendAppendEntries_some p ctx
  obtain ⟨x, f, rfl, -⟩ := Raft.sendAppendEntries_eq h₂
  exact ⟨_, h₂, h₁.of_log_eq rfl⟩

theorem advanceCommitFrom_some (h : Spans r l b) (k : ℕ) :
    ∃ r', r.advanceCommitFrom k = some r' := by
  induction k with
  | zero => exact ⟨r, rfl⟩
  | succ k ih =>
    rw [Raft.advanceCommitFrom]
    split_ifs
    · exact ⟨r, rfl⟩
    · obtain ⟨t, ht⟩ := h.termAt (k + 1)
      rw [ht]
      simp only [Option.bind_eq_bind, Option.bind_some]
      split_ifs
      · exact ⟨_, rfl⟩
      · exact ih

theorem maybeAdvanceCommitIndex_some (h : Spans r l b) :
    ∃ r', r.maybeAdvanceCommitIndex = some r' := by
  simp only [Raft.maybeAdvanceCommitIndex, h.lastLogIndex, Option.bind_eq_bind, Option.bind_some]
  exact h.advanceCommitFrom_some _

theorem becomeLeader_some (h : Spans r l b) : ∃ r', r.becomeLeader = some r' := by
  simp only [Raft.becomeLeader, Raft.sendHeartbeats, h.lastLogIndex, Option.bind_eq_bind,
    Option.bind_some]
  obtain ⟨r₁, h₁, hsp⟩ := broadcast_some (r := r.leading l.length) (h.of_log_eq rfl) 0
  rw [Raft.leading] at h₁
  rw [h₁, Option.bind_some]
  split_ifs
  · exact hsp.maybeAdvanceCommitIndex_some
  · exact ⟨_, rfl⟩

theorem sendVoteRequests_some (h : Spans r l b) (type : MessageType) (ps : List ℕ) :
    ∃ r', ps.foldlM (fun r p => r.sendVoteRequest type p) r = some r' := by
  obtain ⟨r', h', -⟩ := foldlM_inv (f := fun r p => Raft.sendVoteRequest r type p)
    (I := fun r => Spans r l b) (fun r₁ h₁ p _ => by
      simp only [Raft.sendVoteRequest, h₁.lastLogIndex, h₁.lastLogTerm, Option.bind_eq_bind,
        Option.bind_some]
      exact ⟨_, rfl, h₁.of_log_eq rfl⟩) h
  exact ⟨r', h'⟩

theorem becomeCandidate_some (h : Spans r l b) : ∃ r', r.becomeCandidate = some r' := by
  unfold Raft.becomeCandidate
  dsimp only
  split_ifs
  · exact becomeLeader_some (h.of_log_eq rfl)
  · refine sendVoteRequests_some (l := l) (b := b) ?_ _ _
    exact h.of_log_eq rfl

theorem becomePreCandidate_some (h : Spans r l b) : ∃ r', r.becomePreCandidate = some r' := by
  unfold Raft.becomePreCandidate
  dsimp only
  split_ifs
  · exact becomeCandidate_some (h.of_log_eq rfl)
  · refine sendVoteRequests_some (l := l) (b := b) ?_ _ _
    exact h.of_log_eq rfl

theorem tick_some (h : Spans r l b) : ∃ r', r.tick = some r' := by
  unfold Raft.tick
  dsimp only
  split_ifs
  · obtain ⟨r', h', -⟩ := broadcast_some (r := { r with heartbeatElapsed := 0 }) (h.of_log_eq rfl) 0
    exact ⟨r', h'⟩
  · exact ⟨_, rfl⟩
  · exact becomePreCandidate_some (h.of_log_eq rfl)
  · exact ⟨_, rfl⟩

theorem logOK_some (h : Spans r l b) (m : Message) : ∃ ok, r.logOK m = some ok := by
  simp only [Raft.logOK, h.lastLogIndex, h.lastLogTerm, Option.bind_eq_bind, Option.bind_some]
  exact ⟨_, rfl⟩

theorem handlePreVote_some (h : Spans r l b) (m : Message) : ∃ r', r.handlePreVote m = some r' := by
  unfold Raft.handlePreVote
  obtain ⟨ok, hok⟩ := h.logOK_some m
  simp only [hok, Option.bind_eq_bind, Option.bind_some]
  split_ifs <;> exact ⟨_, rfl⟩

theorem handlePreVoteResponse_some (h : Spans r l b) (m : Message) :
    ∃ r', r.handlePreVoteResponse m = some r' := by
  unfold Raft.handlePreVoteResponse
  dsimp only
  split_ifs
  · exact ⟨_, rfl⟩
  · exact ⟨_, rfl⟩
  · exact becomeCandidate_some (h.of_log_eq rfl)
  · exact ⟨_, rfl⟩

theorem becomeFollower (h : Spans r l b) (t : ℕ) : Spans (r.becomeFollower t) l b :=
  h.of_log_eq (by unfold Raft.becomeFollower; dsimp only; split_ifs <;> rfl)

theorem handleRequestVote_some (h : Spans r l b) (m : Message) :
    ∃ r', r.handleRequestVote m = some r' := by
  unfold Raft.handleRequestVote
  dsimp only
  have h₁ : Spans (if r.currentTerm < m.term then r.becomeFollower m.term else r) l b := by
    split_ifs
    · exact h.becomeFollower _
    · exact h
  obtain ⟨ok, hok⟩ := h₁.logOK_some m
  simp only [hok, Option.bind_eq_bind, Option.bind_some]
  generalize (if r.currentTerm < m.term then r.becomeFollower m.term else r) = r₁
  split_ifs <;> exact ⟨_, rfl⟩

theorem handleRequestVoteResponse_some (h : Spans r l b) (m : Message) :
    ∃ r', r.handleRequestVoteResponse m = some r' := by
  unfold Raft.handleRequestVoteResponse
  dsimp only
  split_ifs
  · exact ⟨_, rfl⟩
  · exact ⟨_, rfl⟩
  · exact ⟨_, rfl⟩
  · exact becomeLeader_some (h.of_log_eq rfl)
  · exact ⟨_, rfl⟩

theorem ackReadIndex (h : Spans r l b) (ctx p : ℕ) : Spans (r.ackReadIndex ctx p) l b :=
  h.of_log_eq (by rw [r.ackReadIndex_eq])

theorem handleAppendEntriesResponse_some (h : Spans r l b) (m : Message) :
    ∃ r', r.handleAppendEntriesResponse m = some r' := by
  unfold Raft.handleAppendEntriesResponse
  dsimp only
  have h₁ : Spans (if m.readContext ≠ 0 then r.ackReadIndex m.readContext m.fromId else r) l b := by
    split_ifs
    · exact h.ackReadIndex _ _
    · exact h
  generalize (if m.readContext ≠ 0 then r.ackReadIndex m.readContext m.fromId else r) = r₁ at h₁ ⊢
  by_cases hnew : r.currentTerm < m.term
  · exact ⟨_, if_pos hnew⟩
  by_cases hold : m.term < r.currentTerm ∨ r.role ≠ .leader
  · exact ⟨_, (if_neg hnew).trans (if_pos hold)⟩
  rw [if_neg hnew, if_neg hold]
  by_cases hok : m.success
  · rw [if_pos hok]
    exact maybeAdvanceCommitIndex_some (h₁.of_log_eq rfl)
  · rw [if_neg hok]
    refine sendAppendEntries_some (l := l) (b := b) ?_ _ _
    exact h₁.of_log_eq rfl

theorem handleInstallSnapshot_some (h : Spans r l b) (m : Message) :
    ∃ r', r.handleInstallSnapshot m = some r' := by
  simp only [Raft.handleInstallSnapshot, h.firstIndex, Option.bind_eq_bind, Option.bind_some]
  by_cases hold : m.term < r.currentTerm
  · exact ⟨_, if_pos hold⟩
  by_cases hle : m.snapshot.lastIncludedIndex ≤ b
  · exact ⟨_, (if_neg hold).trans (if_pos hle)⟩
  · exact ⟨_, (if_neg hold).trans (if_neg hle)⟩

theorem handleInstallSnapshotResponse_some (h : Spans r l b) (m : Message) :
    ∃ r', r.handleInstallSnapshotResponse m = some r' := by
  unfold Raft.handleInstallSnapshotResponse
  by_cases hnew : r.currentTerm < m.term
  · exact ⟨_, if_pos hnew⟩
  by_cases hold : m.term < r.currentTerm ∨ r.role ≠ .leader
  · exact ⟨_, (if_neg hnew).trans (if_pos hold)⟩
  rw [if_neg hnew, if_neg hold]
  exact maybeAdvanceCommitIndex_some (h.of_log_eq rfl)

/-- Of the handlers only `handleAppendEntries` can leave the range. -/
theorem step_some (h : Spans r l b) (hm : m.toId = r.id → m.type ≠ .appendEntries) :
    ∃ r', r.step m = some r' := by
  unfold Raft.step
  split_ifs with hto
  · exact ⟨_, rfl⟩
  cases hty : m.type with
  | preVote => exact h.handlePreVote_some m
  | preVoteResponse => exact h.handlePreVoteResponse_some m
  | requestVote => exact h.handleRequestVote_some m
  | requestVoteResponse => exact h.handleRequestVoteResponse_some m
  | appendEntries => exact absurd hty (hm (not_not.mp hto))
  | appendEntriesResponse => exact h.handleAppendEntriesResponse_some m
  | installSnapshot => exact h.handleInstallSnapshot_some m
  | installSnapshotResponse => exact h.handleInstallSnapshotResponse_some m

theorem requestReadIndex_some (h : Spans r l b) (ctx : ℕ) :
    ∃ x, r.requestReadIndex ctx = some x := by
  unfold Raft.requestReadIndex
  dsimp only
  split_ifs
  · exact ⟨_, rfl⟩
  · exact ⟨_, rfl⟩
  · obtain ⟨r₁, h₁, -⟩ := broadcast_some
      (r :=
        { r with pendingReads :=
            Function.update r.pendingReads ctx (some ⟨r.commitIndex, {r.id}⟩) })
      (h.of_log_eq rfl) ctx
    rw [h₁]
    exact ⟨_, rfl⟩

theorem proposeBatch_some (h : Spans r l b) (datas : List Bytes) :
    ∃ x, r.proposeBatch datas = some x := by
  unfold Raft.proposeBatch
  split_ifs
  · exact ⟨_, rfl⟩
  obtain ⟨happ, hidx⟩ := h.appendDatas datas
  have h' : Spans { r with log := r.log ++ entriesFrom r.currentTerm l.length datas }
      (l ++ entriesFrom r.currentTerm l.length datas) b := h.append hidx rfl
  obtain ⟨r₁, h₁, hsp⟩ := h'.broadcast_some 0
  simp only [happ, h₁, Option.bind_eq_bind, Option.bind_some]
  split_ifs
  · obtain ⟨r₂, h₂⟩ := hsp.maybeAdvanceCommitIndex_some
    rw [h₂]
    exact ⟨_, rfl⟩
  · exact ⟨_, rfl⟩

/-- `CreateSnapshot` leaves the range at a committed index above the end of the log. -/
theorem createSnapshot_none_iff (h : Spans r l b) (index : ℕ) (data : Bytes) :
    r.createSnapshot index data = none ↔ index ≤ r.commitIndex ∧ b < index ∧ l.length < index := by
  obtain ⟨t, ht⟩ := h.termAt index
  simp only [Raft.createSnapshot, h.firstIndex, ht, h.logPos, Option.bind_eq_bind, Option.bind_some]
  by_cases hc : r.commitIndex < index
  · rw [if_pos hc]
    exact ⟨fun hn => (Option.some_ne_none _ hn).elim, fun hn => by omega⟩
  rw [if_neg hc]
  by_cases hb : index ≤ b
  · rw [if_pos hb]
    exact ⟨fun hn => (Option.some_ne_none _ hn).elim, fun hn => by omega⟩
  rw [if_neg hb]
  by_cases hl : l.length < index
  · refine ⟨fun _ => ⟨by omega, by omega, hl⟩, fun _ => ?_⟩
    have hnone : r.logFrom ((index : ℤ) - b + 1) = none := by
      rw [Raft.logFrom, Raft.logSlice, if_neg]
      rw [h.log_eq, window_length]
      have := h.le
      omega
    rw [hnone]
    rfl
  · have hfrom := h.logFrom (i := index + 1) (by omega) (by omega)
    rw [show ((index + 1 : ℕ) : ℤ) - b = (index : ℤ) - b + 1 by omega] at hfrom
    rw [hfrom]
    exact ⟨fun hn => (Option.some_ne_none _ hn).elim, fun hn => absurd hn.2.2 hl⟩

theorem head? (h : Spans r l b) : r.log.head? = some (boundary l b) := by rw [h.log_eq]; rfl

end Spans

/-! ## Entries below the boundary -/

/-- **`handleAppendEntries` leaves the range** exactly when entries from index one on do not fit the
boundary. -/
theorem Live.handleAppendEntries_none_iff (h : Live S mb A n r.view) (hm : MsgOk mb A m)
    (hty : m.type = .appendEntries) :
    r.handleAppendEntries m = none ↔
      r.currentTerm ≤ m.term ∧ m.entries ≠ [] ∧
        Live.Stuck (A.log n) r.snapshot.lastIncludedIndex m := by
  unfold Raft.handleAppendEntries
  by_cases hold : m.term < r.currentTerm
  · rw [if_pos hold]
    exact ⟨fun hn => (Option.some_ne_none _ hn).elim, fun hn => by omega⟩
  rw [if_neg hold]
  dsimp only
  obtain ⟨A₁, hlive, hmoves, hlog, hd⟩ := h.becomeFollower m.term
  obtain ⟨r₁, hr₁⟩ : ∃ r₁ : Raft, r₁ = { r.becomeFollower m.term with leaderID := m.fromId } :=
    ⟨_, rfl⟩
  have h₁ : Live S mb A₁ n r₁.view := by rw [hr₁]; exact hlive
  have hterm₁ : r₁.currentTerm = m.term := by
    rw [hr₁]; exact Raft.becomeFollower_term (not_lt.mp hold)
  have hsnap : r₁.snapshot = r.snapshot := by rw [hr₁]; exact congrArg (fun d => d.2.1) hd
  obtain ⟨hlead, hext⟩ := (hm.mono hmoves.toGrows).append hty
  obtain ⟨t, ht⟩ := h₁.spans.termAt m.prevLogIndex
  rw [← hr₁]
  simp only [h₁.spans.lastLogIndex, ht, Option.bind_eq_bind, Option.bind_some]
  rw [← hlog, ← hsnap]
  by_cases hnil : m.entries = []
  · -- a heartbeat does not enter the loop
    rw [hnil]
    simp only [Raft.mergeEntries, Option.bind_some, h₁.spans.lastLogIndex]
    split_ifs <;> exact ⟨(fun hn => by cases hn), fun hn => absurd rfl hn.2.1⟩
  have hx : Extract (A₁.hist r₁.currentTerm) m := by
    rw [hterm₁]
    exact hext.resolve_left fun hcon => hnil hcon.1
  by_cases hrej : (A₁.log n).length < m.prevLogIndex ∨ t ≠ m.prevLogTerm
  · rw [if_pos hrej]
    refine ⟨fun hn => (Option.some_ne_none _ hn).elim, ?_⟩
    rintro ⟨-, -, hprev, hb, -⟩
    -- index zero has term zero in both logs
    have ht0 : r₁.termAt 0 = some 0 := h₁.spans.termAt_of_lt (Or.inl hb)
    have hp0 := hx.prev_term
    rw [hprev] at ht hp0 hrej
    rw [ht0] at ht
    rcases hrej with hlt | hne
    · omega
    · exact absurd ((Option.some.inj ht).symm.trans hp0.symm) hne
  rw [if_neg hrej]
  rw [not_or, not_lt, not_not] at hrej
  obtain ⟨hle, rfl⟩ := hrej
  rcases h₁.merge_cases hx hnil hle ht with
    ⟨hstuck, hnone⟩ | ⟨hstuck, l', u', q, hsome, hmg, hbq, -, hql, hqtake⟩
  · rw [hnone]
    exact ⟨fun _ => ⟨by omega, hnil, hstuck⟩, fun _ => rfl⟩
  · rw [hsome, Option.bind_some]
    refine ⟨fun hn => ?_, fun hn => absurd hn.2.2 hstuck⟩
    have hlast : ∃ last, ({ r₁ with
        log := window l' r₁.snapshot.lastIncludedIndex
        unstableIndex := u' } : Raft).lastLogIndex = some last := by
      rw [Raft.lastLogIndex, window, List.getLast?_cons]
      exact ⟨_, rfl⟩
    obtain ⟨last, hlast⟩ := hlast
    rw [hlast] at hn
    cases hn

/-- **The calls that access the log out of range**, in any state that shows an abstract one. -/
theorem Sim.run_none_iff (h : Sim S mb c A) (hn : n ∈ mb.ids) {op : Op} (hdel : c.deliverable op) :
    op.run (c.nodes n).r = none ↔ op.OutOfRange (c.nodes n).r := by
  obtain ⟨r, hr⟩ : ∃ r, r = (c.nodes n).r := ⟨_, rfl⟩
  have hlive := (h.node n hn).live
  rw [← hr] at hlive ⊢
  have hsp := hlive.spans
  have hnever : ∀ {x : Option Raft}, (∃ r', x = some r') → (x = none ↔ False) := by
    rintro _ ⟨r', rfl⟩
    exact iff_of_false (Option.some_ne_none _) id
  have hmap : ∀ {β : Type} {x : Option (Raft × β)}, (∃ y, x = some y) →
      (x.map Prod.fst = none ↔ False) := by
    rintro β _ ⟨y, rfl⟩
    exact iff_of_false (Option.some_ne_none _) id
  cases op with
  | tick => exact hnever hsp.tick_some
  | propose datas => exact hmap (hsp.proposeBatch_some datas)
  | readIndex ctx => exact hmap (hsp.requestReadIndex_some ctx)
  | createSnapshot index data =>
    simp only [Op.run, Option.map_eq_none_iff, hsp.createSnapshot_none_iff, Op.OutOfRange,
      hsp.firstIndex, hsp.lastLogIndex, Option.mem_some_iff, exists_eq_left']
  | step m =>
    by_cases hto : m.toId = r.id ∧ m.type = .appendEntries
    · obtain ⟨hto, hty⟩ := hto
      have hstep : Op.run r (.step m) = r.handleAppendEntries m := by
        simp only [Op.run, Raft.step, hto, hty]
        simp
      rw [hstep, hlive.handleAppendEntries_none_iff (h.net m hdel) hty]
      simp only [Op.OutOfRange, hto, hty, hsp.head?, Live.Stuck, Option.mem_some_iff,
        exists_eq_left', boundary, true_and]
      constructor
      · rintro ⟨ht, hne, h0, hb, hfit⟩
        refine ⟨ht, h0, hne, hb, fun hin => hfit ⟨hin.1, ?_⟩⟩
        rw [hin.2, hin.1]
      · rintro ⟨ht, h0, hne, hb, hfit⟩
        refine ⟨ht, hne, h0, hb, fun hin => hfit ⟨hin.1, ?_⟩⟩
        rw [hin.2, hin.1]
    · rw [show Op.OutOfRange r (.step m) ↔ False from
        ⟨fun hout => hto ⟨hout.1, hout.2.1⟩, False.elim⟩]
      exact hnever (hsp.step_some fun h1 h2 => hto ⟨h1, h2⟩)

/-- After a call, and between calls, the log is in order. -/
theorem Called.inRange {nd : Node} {new : List LogEntry} (h : Called S mb A n new nd.r r')
    (hnd : NodeOk S mb A n nd) : r'.InRange := by
  obtain ⟨A', hlive, -, hun, -⟩ := h.unsaved hnd
  obtain ⟨rd, hrd, -⟩ := hun.ready
  have hsp := hlive.spans
  refine ⟨?_, fun start stop => ?_, by rw [hrd]; exact nofun⟩
  · rw [hsp.log_eq]
    exact List.cons_ne_nil _ _
  · rw [hsp.entries]
    exact nofun

/-- **Accesses to the log, in every state of every run.** Between calls the log is not empty, and
`Entries` and `Ready` stay in range. A call leaves the range exactly when `Op.OutOfRange` says so,
and one that does not leaves the log in order too. -/
theorem log_access {as : List FifoAction} {f : Fifo} (h : Fifo.Runs mb as f) (hn : n ∈ mb.ids) :
    (f.cluster.nodes n).r.InRange ∧
    ∀ op, f.cluster.deliverable op →
      (op.run (f.cluster.nodes n).r = none ↔ op.OutOfRange (f.cluster.nodes n).r) ∧
      ∀ r', op.run (f.cluster.nodes n).r = some r' → r'.InRange := by
  obtain ⟨bs, hbs, -⟩ := Fifo.project (P := fun _ _ => True)
    (along_of_all (fun _ _ _ _ => trivial) _ as) h
  obtain ⟨A, hsim⟩ := Cluster.Runs.sim hbs
  have hnd := hsim.node n hn
  have hquiet : Called _ mb A n [] (f.cluster.nodes n).r (f.cluster.nodes n).r :=
    .quiet (hnd.live.quiet rfl)
  exact ⟨hquiet.inRange hnd,
    fun op hdel => ⟨hsim.run_none_iff hn hdel, fun r' hrun =>
      (hsim.called hn hdel False.elim hrun).inRange hnd⟩⟩

/-! ## A run that leaves the range -/

/-- Node one commits two entries with node two, which learns of it and compacts them away. The
message with entry three is lost, so node two turns down entry four; node one walks back, below node
two's boundary, to its first entry. -/
def walkBackRun : List FifoAction :=
  Fifo.electOne ++
  [.deliver 1 2 none, .deliver 2 1 none, .act (.run 1 (.propose [[1]]) none), .deliver 1 2 none,
    .deliver 2 1 none, .act (.run 1 (.propose [[2]]) none), .deliver 1 2 none, .deliver 2 1 none,
    .act (.run 1 .tick none), .deliver 1 2 none, .deliver 2 1 none,
    .act (.run 2 (.createSnapshot 2 [9]) none), .act (.run 1 (.propose [[3]]) none), .drop 1 2,
    .act (.run 1 (.propose [[4]]) none), .deliver 1 2 none, .deliver 2 1 none, .deliver 1 2 none,
    .deliver 2 1 none]

/-- **Entries from index one on, at a node that has compacted.** The next message for node two makes
it slice its log at a negative position. -/
theorem append_below_boundary : ∃ f m, Fifo.Runs .three walkBackRun f ∧
    (f.link 1 2).head? = some m ∧ (f.cluster.nodes 2).r.logPos (m.prevLogIndex + 1) = some (-1) ∧
    (f.cluster.nodes 2).r.step m = none := by
  have hrun : ((exec (Fifo.step .three) (Fifo.init .three) walkBackRun).bind fun f =>
      (f.link 1 2).head?.map fun m =>
        decide ((f.cluster.nodes 2).r.logPos (m.prevLogIndex + 1) = some (-1) ∧
          ((f.cluster.nodes 2).r.step m).isNone)) = some true := by
    decide +kernel
  obtain ⟨f, h, hrun⟩ := Option.bind_eq_some_iff.mp hrun
  obtain ⟨m, hm, hrun⟩ := Option.map_eq_some_iff.mp hrun
  obtain ⟨hpos, hnone⟩ := of_decide_eq_true hrun
  exact ⟨f, m, h, hm, hpos, Option.isNone_iff_eq_none.mp hnone⟩

/-- Before the walk back reaches index zero, node two turns the entries down in order. -/
theorem log_access_three : ∃ f m, Fifo.Runs .three (walkBackRun.dropLast.dropLast) f ∧
    (f.link 1 2).head? = some m ∧ 2 ∈ Members.three.ids ∧ f.cluster.deliverable (.step m) ∧
    ¬Op.OutOfRange (f.cluster.nodes 2).r (.step m) ∧
    ∃ r', (f.cluster.nodes 2).r.step m = some r' ∧ r'.InRange := by
  have hrun :
    ((exec (Fifo.step .three) (Fifo.init .three) walkBackRun.dropLast.dropLast).bind fun f =>
      (f.link 1 2).head?.map fun m =>
        decide (m ∈ f.cluster.net ∧ m.prevLogIndex = 1)) = some true := by
    decide +kernel
  obtain ⟨f, h, hrun⟩ := Option.bind_eq_some_iff.mp hrun
  obtain ⟨m, hm, hrun⟩ := Option.map_eq_some_iff.mp hrun
  obtain ⟨hnet, hprev⟩ := of_decide_eq_true hrun
  have hn : 2 ∈ Members.three.ids := by decide
  have hin : ¬Op.OutOfRange (f.cluster.nodes 2).r (.step m) := fun hout => by
    have := hout.2.2.2.1
    omega
  obtain ⟨hiff, hafter⟩ := (log_access h hn).2 (.step m) hnet
  obtain ⟨r', hr'⟩ := Option.ne_none_iff_exists'.mp fun hnone => hin (hiff.mp hnone)
  exact ⟨f, m, h, hm, hn, hnet, hin, r', hr', hafter r' hr'⟩

end KvStore
