import KvStore.Raft.Emits
import KvStore.Raft.StateMachineSafety

/-!
# Every `AppendEntries` verifies what it commits

`handleAppendEntries` takes over the leader's commit index up to the end of the follower's log, also
where the message says nothing about that log. This is safe because a leader sends its log to the
end, and commits nothing that is not in it.

* `Raft.Reaches`: the message goes at least to the end of the leader's log. `SendsToEnd`: so does
  every `AppendEntries` that a call has sent, whatever the leader's bookkeeping says.
* `Op.run_sendsToEnd`: this is so for every call.
* `Sim.leader_bounds`: the bookkeeping of a leader does not go beyond the end of its log.
* `append_verifies_commit`: every `AppendEntries` goes exactly to the end of its sender's log, at or
  above the commit index in it, and no commit index rises above what the message has verified.
-/

namespace KvStore

open Consensus Machine

variable {r r' : Raft} {m : Message}

/-! ## What a call sends -/

/-- A message that only a leader sends. -/
def MessageType.FromLeader (type : MessageType) : Prop :=
  type = .appendEntries ∨ type = .installSnapshot

instance : DecidablePred MessageType.FromLeader := fun _ => inferInstanceAs (Decidable (_ ∨ _))

/-- The message is of the leader `r`, in its term. -/
def Raft.Authors (r : Raft) (m : Message) : Prop :=
  m.fromId = r.id ∧ m.term = r.currentTerm ∧ r.role = .leader

/-- The message goes at least to the end of the log. -/
def Raft.Reaches (r : Raft) (m : Message) : Prop :=
  ∃ last, r.lastLogIndex = some last ∧ last ≤ m.prevLogIndex + m.entries.length

/-- What a leader has sent since `r` is its own, and every `AppendEntries` goes to the end of its
log. -/
def SendsToEnd (r r' : Raft) : Prop := ∀ m ∈ r'.msgs, m.type.FromLeader →
  m ∈ r.msgs ∨ r'.Authors m ∧ (m.type = .appendEntries → r'.Reaches m)

/-- The entries from the log's own start or later, up to its end. -/
theorem Raft.entries_length {start last first : ℕ} {es : List LogEntry}
    (h : r.entries start last = some es) (hlast : r.lastLogIndex = some last)
    (hfirst : r.firstIndex = some first) (hle : first ≤ start) : last ≤ start + es.length := by
  simp only [entries, hlast, hfirst, logPos, Option.bind_eq_bind, Option.bind_some,
    lt_irrefl, if_false, if_neg (not_lt.mpr hle), pure] at h
  split_ifs at h with hempty
  · exact hempty.trans (Nat.le_add_right ..)
  · unfold logSlice at h
    split_ifs at h with hrange
    rw [← Option.some.inj h, List.length_drop, List.length_take]
    omega

/-- What `sendAppendEntries` sends. -/
theorem Raft.sendAppendEntries_reaches {p ctx : ℕ} (hrole : r.role = .leader)
    (h : r.sendAppendEntries p ctx = some r') :
    ∃ m f, r' = { r with msgs := r.msgs ++ [m], sentIndex := f } ∧
      r.Authors m ∧ (m.type = .appendEntries → r.Reaches m) := by
  simp only [sendAppendEntries, Option.bind_eq_bind, Option.bind_eq_some_iff, pure] at h
  obtain ⟨first, hfirst, h⟩ := h
  by_cases hsnap : pred64 (r.nextIndex p) < first
  · rw [if_pos hsnap] at h
    obtain rfl := Option.some.inj h
    exact ⟨_, r.sentIndex, rfl, ⟨rfl, rfl, hrole⟩, fun hty => by cases hty⟩
  rw [if_neg hsnap] at h
  simp only [Option.bind_eq_some_iff] at h
  obtain ⟨prevTerm, -, last, hlast, es, hes, h⟩ := h
  obtain rfl := Option.some.inj h
  refine ⟨_, _, rfl, ⟨rfl, rfl, hrole⟩, fun _ => ⟨last, hlast, entries_length hes hlast hfirst ?_⟩⟩
  dsimp only
  split_ifs <;> omega

namespace SendsToEnd

theorem of_eq (hmsgs : r'.msgs = r.msgs) : SendsToEnd r r' := fun _ hm _ => Or.inl (hmsgs ▸ hm)

/-- Answers and requests for votes. -/
theorem of_append {ms : List Message} (hmsgs : r'.msgs = r.msgs ++ ms)
    (h : ∀ x ∈ ms, ¬x.type.FromLeader) : SendsToEnd r r' := by
  intro x hx hty
  rw [hmsgs] at hx
  exact (List.mem_append.mp hx).imp_right fun hx => absurd hty (h x hx)

theorem of_send {x : Message} (type : MessageType) (hmsgs : r'.msgs = r.msgs ++ [x])
    (hty : x.type = type) (hne : ¬type.FromLeader) : SendsToEnd r r' :=
  of_append hmsgs fun y hy => by rwa [List.mem_singleton.mp hy, hty]

/-- A part of the call that sends nothing comes first. -/
theorem after {r₁ : Raft} (h : SendsToEnd r₁ r') (hmsgs : r₁.msgs = r.msgs) : SendsToEnd r r' :=
  fun x hx hty => (h x hx hty).imp_left fun hmem => hmsgs ▸ hmem

theorem sendAppendEntries {r₁ : Raft} {p ctx : ℕ} (h₁ : r₁.sendAppendEntries p ctx = some r')
    (h : SendsToEnd r r₁) (hrole : r₁.role = .leader) : SendsToEnd r r' ∧ r'.role = .leader := by
  obtain ⟨y, f, rfl, hy⟩ := Raft.sendAppendEntries_reaches hrole h₁
  refine ⟨fun x hx hty => ?_, hrole⟩
  rcases List.mem_append.mp hx with hx | hx
  · exact h x hx hty
  · rw [List.mem_singleton.mp hx]
    exact Or.inr hy

/-- A round of `sendAppendEntries`. -/
theorem of_round {ctx : ℕ} (h : r.Rounds ctx r') (hrole : r.role = .leader) : SendsToEnd r r' := by
  obtain ⟨r₁, h₁, h⟩ := h
  have hround : SendsToEnd r r₁ ∧ r₁.role = .leader :=
    foldlM_induct (I := fun r₁ : Raft => SendsToEnd r r₁ ∧ r₁.role = .leader)
      (fun _ h₁ _ _ h₂ => sendAppendEntries h₂ h₁.1 h₁.2) ⟨of_eq rfl, hrole⟩ h₁
  rcases h with rfl | h
  · exact hround.1
  · -- the commit index has no part in what was sent
    obtain ⟨i, rfl, -⟩ := Raft.maybeAdvanceCommitIndex_eq h
    exact hround.1

end SendsToEnd

/-- **A call sends entries to the end of the log only.** -/
theorem Op.run_sendsToEnd {op : Op} (h : op.run r = some r') : SendsToEnd r r' := by
  cases Op.run_outcome h with
  | idle | waited | ticked | counted | tallied | outrun | answered => exact .of_eq rfl
  | beat role round | asked role round => exact (SendsToEnd.of_round round role).after rfl
  | alone _ _ _ round | crowned _ _ _ _ _ _ round | elected _ _ _ _ _ _ round =>
    exact (SendsToEnd.of_round round rfl).after rfl
  | polled _ _ asks | campaigned _ _ _ _ _ asks =>
    obtain ⟨ms, rfl, hms⟩ := asks
    exact .of_append rfl fun x hx => by rw [(hms x hx).1]; decide
  | preVoted => exact .of_send .preVoteResponse rfl rfl (by decide)
  | refused _ _ hmeets | voted _ _ hmeets =>
    rcases hmeets with rfl | ⟨-, rfl⟩
    · exact .of_send .requestVoteResponse rfl rfl (by decide)
    · exact .of_send .requestVoteResponse rfl rfl (by decide)
  | rejected | mismatched => exact .of_send .appendEntriesResponse rfl rfl (by decide)
  | merged _ _ _ _ _ _ run =>
    obtain ⟨log, u, rfl⟩ := Raft.mergeEntries_eq run
    exact .of_send .appendEntriesResponse rfl rfl (by decide)
  | acked _ _ _ _ hears run =>
    obtain ⟨states, reads, rfl⟩ := hears.eq
    obtain ⟨i, rfl, -⟩ := Raft.maybeAdvanceCommitIndex_eq run
    exact .of_eq rfl
  | nacked _ _ role _ hears run =>
    obtain ⟨states, reads, rfl⟩ := hears.eq
    exact (SendsToEnd.sendAppendEntries run (.of_eq rfl) role).1
  | declined | known | installed => exact .of_send .installSnapshotResponse rfl rfl (by decide)
  | received run =>
    obtain ⟨i, rfl, -⟩ := Raft.maybeAdvanceCommitIndex_eq run
    exact .of_eq rfl
  | proposed role append round =>
    obtain ⟨log, rfl⟩ := Raft.appendDatas_eq append
    exact (SendsToEnd.of_round round role).after rfl
  | compacted run =>
    rcases Raft.createSnapshot_eq run with ⟨rfl, -⟩ | ⟨-, log, u, snap, rfl⟩
    · exact .of_eq rfl
    · exact .of_eq rfl

/-! ## What a follower takes over -/

/-- The commit index rises to the leader's at most. -/
theorem Raft.handleAppendEntries_commit (h : r.handleAppendEntries m = some r') :
    r'.commitIndex = r.commitIndex ∨ r'.commitIndex ≤ m.leaderCommit := by
  unfold handleAppendEntries at h
  by_cases hlt : m.term < r.currentTerm
  · rw [if_pos hlt] at h
    obtain rfl := Option.some.inj h
    exact Or.inl rfl
  simp only [if_neg hlt, becomeFollower_eq (not_lt.mp hlt), Option.bind_eq_bind,
    Option.bind_eq_some_iff, pure] at h
  obtain ⟨last, -, prevTerm, -, h⟩ := h
  split_ifs at h
  · obtain rfl := Option.some.inj h
    exact Or.inl rfl
  all_goals
    simp only [Option.bind_eq_some_iff] at h
    obtain ⟨r₂, h₂, last', -, h⟩ := h
    obtain ⟨log, u, rfl⟩ := mergeEntries_eq h₂
    obtain rfl := Option.some.inj h
    dsimp only [send]
    split_ifs
    · exact Or.inr (min_le_left ..)
    · exact Or.inl rfl

/-! ## Runs -/

variable {mb : Members} {A A' : Abs} {n : ℕ} {c c' : Cluster}

namespace Sim

/-- The bookkeeping of a leader does not go beyond the end of its log. -/
theorem leader_bounds (h : Sim True mb c A) (hn : n ∈ mb.ids)
    (hr : (c.nodes n).r.role = .leader) {p : ℕ} (hp : p ∈ (c.nodes n).r.peers) :
    ∃ last, (c.nodes n).r.lastLogIndex = some last ∧
      1 ≤ (c.nodes n).r.nextIndex p ∧ (c.nodes n).r.nextIndex p ≤ last + 1 ∧
      (c.nodes n).r.matchIndex p ≤ last ∧ (c.nodes n).r.sentIndex p ≤ last := by
  have hlive := (h.node n hn).live
  have hleads := (hlive.secure trivial).leads hr
  exact ⟨_, hlive.spans.lastLogIndex, hleads.next_pos p hp, hleads.next_le p hp,
    hlive.acked_le trivial hr (hleads.acked p hp), hleads.sent_le p hp⟩

/-- What a step sends goes to the end of the sender's log. -/
theorem sent_to_end {a : Action} (h : Sim True mb c A) (h' : Sim True mb c' A')
    (hstep : c.step mb a = some c') (hm : m ∈ c'.net.drop c.net.length)
    (hty : m.type = .appendEntries) : m.fromId = a.node ∧
      (c'.nodes a.node).r.lastLogIndex = some (m.prevLogIndex + m.entries.length) ∧
      m.leaderCommit ≤ m.prevLogIndex + m.entries.length := by
  have hn := Cluster.step_mem hstep
  obtain ⟨hext, hcommit, -⟩ := (h'.netSafe trivial m (List.mem_of_mem_drop hm)).append hty
  cases Cluster.step_cases hstep with
  | @ran n op r nd run sent advance =>
    rw [List.drop_left] at hm
    have hnone : (c.nodes n).r.msgs = [] := (h.node n hn).msgs_eq
    obtain ⟨⟨hsrc, hterm, hrole⟩, hreach⟩ :=
      (Op.run_sendsToEnd run m hm (Or.inl hty)).resolve_left (by rw [hnone]; nofun)
    obtain ⟨last, hlast, hle⟩ := hreach hty
    have hlive := (h'.node n hn).live
    simp only [Action.node, Function.update_self] at hlive ⊢
    -- `Advance` keeps what the message is compared with
    obtain ⟨last', -, hadvance⟩ := Option.bind_eq_some_iff.mp advance
    obtain ⟨hid', hterm', hrole', hlog'⟩ : nd.r.id = r.id ∧ nd.r.currentTerm = r.currentTerm ∧
        nd.r.role = r.role ∧ nd.r.log = r.log := by
      rw [← Option.some.inj hadvance]
      exact ⟨rfl, rfl, rfl, rfl⟩
    have hlast' : nd.r.lastLogIndex = some last := by rw [Raft.lastLogIndex, hlog']; exact hlast
    have hlen : last = (A'.log n).length :=
      Option.some.inj (hlast'.symm.trans hlive.spans.lastLogIndex)
    have hhist : A'.hist m.term = A'.log n := by
      rw [hterm, ← hterm']
      exact hlive.hist_eq (hrole'.trans hrole)
    have hend : m.prevLogIndex + m.entries.length = last :=
      le_antisymm (by rw [hlen, ← hhist]; exact hext.length_le) hle
    exact ⟨hsrc.trans (hid'.symm.trans hlive.mirrors.id_eq), by rw [hend]; exact hlast', hcommit⟩
  | compacted run => simp [Cluster.setNode] at hm
  | restarted => simp [Cluster.setNode] at hm

end Sim

/-- The abstract run of a run in which no snapshot is delivered. -/
theorem sim_of_no_install {as : List Action} (hrun : Cluster.Runs mb as c)
    (hno : ∀ a ∈ as, ¬a.Installs) : ∃ A, Sim True mb c A := by
  have hsafe : Along (Cluster.step mb) (fun c a => True → a.Safe c) (Cluster.init mb) as :=
    along_of_imp (fun c a ha _ => Action.safe_of_not_installs ha c)
      (along_of_forall hno (Cluster.init mb))
  obtain ⟨A, hA, -⟩ := (sim_init True mb).run hsafe hrun
  exact ⟨A, hA⟩

/-- **Every `AppendEntries` verifies what it commits**, in every run in which no snapshot is
delivered. Whatever a step of the run sends goes exactly to the end of the sender's log, and its
commit index is at or below that. The bookkeeping of a leader stays within its log. And a message
that was sent raises no commit index above what it has verified. -/
theorem append_verifies_commit {as : List Action} (hrun : Cluster.Runs mb as c)
    (hno : ∀ a ∈ as, ¬a.Installs) :
    (∀ bs a bs' c₁ c₂, as = bs ++ a :: bs' → Cluster.Runs mb bs c₁ → c₁.step mb a = some c₂ →
      ∀ m ∈ c₂.net.drop c₁.net.length, m.type = .appendEntries → m.fromId = a.node ∧
        (c₂.nodes a.node).r.lastLogIndex = some (m.prevLogIndex + m.entries.length) ∧
        m.leaderCommit ≤ m.prevLogIndex + m.entries.length) ∧
    (∀ n ∈ mb.ids, (c.nodes n).r.role = .leader → ∀ p ∈ (c.nodes n).r.peers,
      ∃ last, (c.nodes n).r.lastLogIndex = some last ∧ 1 ≤ (c.nodes n).r.nextIndex p ∧
        (c.nodes n).r.nextIndex p ≤ last + 1 ∧ (c.nodes n).r.matchIndex p ≤ last ∧
        (c.nodes n).r.sentIndex p ≤ last) ∧
    ∀ m ∈ c.net, m.type = .appendEntries →
      ∀ n ∈ mb.ids, ∀ r', (c.nodes n).r.handleAppendEntries m = some r' → r'.commitIndex =
    (c.nodes n).r.commitIndex ∨ r'.commitIndex ≤ m.prevLogIndex + m.entries.length := by
  obtain ⟨A, hA⟩ := sim_of_no_install hrun hno
  refine ⟨?_, fun n hn hr p hp => hA.leader_bounds hn hr hp, fun m hm hty n _ r' hrun' => ?_⟩
  · rintro bs a bs' c₁ c₂ rfl h₁ h₂ m hm hty
    obtain ⟨A₁, hA₁⟩ := sim_of_no_install h₁ fun b hb => hno b (List.mem_append_left _ hb)
    obtain ⟨A₂, hA₂, -⟩ := hA₁.step (fun _ => Action.safe_of_not_installs (hno a (by simp)) c₁) h₂
    exact hA₁.sent_to_end hA₂ h₂ hm hty
  · exact (Raft.handleAppendEntries_commit hrun').imp_right fun hle =>
      hle.trans ((hA.netSafe trivial m hm).append hty).2.1

/-- Node one of three has committed an entry: what it knows of node two stays within its log, and so
does what its last `AppendEntries` to node two verified. -/
theorem append_verifies_commit_three : ∃ c, Cluster.Runs .three commitOne c ∧
    (∃ last, (c.nodes 1).r.lastLogIndex = some last ∧ (c.nodes 1).r.matchIndex 2 = 1 ∧
      (c.nodes 1).r.matchIndex 2 ≤ last) ∧
    ∃ m ∈ c.net, m.type = .appendEntries ∧ m.entries ≠ [] ∧
      ∃ r', (c.nodes 2).r.handleAppendEntries m = some r' ∧
    (r'.commitIndex = (c.nodes 2).r.commitIndex ∨
      r'.commitIndex ≤ m.prevLogIndex + m.entries.length) := by
  let sent : Message :=
    { type := .appendEntries, fromId := 1, toId := 2, term := 1, entries := [⟨1, 1, [7]⟩] }
  have hrun : ((exec (Cluster.step .three) (Cluster.init .three) commitOne).bind fun c =>
      ((c.nodes 2).r.handleAppendEntries sent).map fun _ =>
        decide ((c.nodes 1).r.role = .leader ∧ 2 ∈ (c.nodes 1).r.peers ∧
          (c.nodes 1).r.matchIndex 2 = 1 ∧ sent ∈ c.net)) = some true := by
    decide +kernel
  obtain ⟨c, h, hrun⟩ := Option.bind_eq_some_iff.mp hrun
  obtain ⟨r', hr', hrun⟩ := Option.map_eq_some_iff.mp hrun
  obtain ⟨hrole, hpeer, hmatch, hsent⟩ := of_decide_eq_true hrun
  have hno : ∀ a ∈ commitOne, ¬a.Installs := by decide
  obtain ⟨-, hbounds, hcommit⟩ := append_verifies_commit h hno
  obtain ⟨last, hlast, -, -, hle, -⟩ := hbounds 1 (by decide) hrole 2 hpeer
  exact ⟨c, h, ⟨last, hlast, hmatch, hle⟩, sent, hsent, rfl, List.cons_ne_nil _ _, r', hr',
    hcommit sent hsent rfl 2 (by decide) r' hr'⟩

end KvStore
