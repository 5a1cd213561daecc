import KvStore.Machine.Run
import KvStore.Raft.Cluster

/-!
# The outcomes of a call

`Outcome r op r'` lists what a call can leave of a node: one constructor for each way through a
handler, with the conditions under which it is taken. The state that is left is a record, or what a
loop makes of one; the lemmas `_eq` say which fields the loops change.

`Op.run_outcome` is the walk through the handlers. What a call does to roles and reads, to the log,
to the election timer and to the outbox is read off it in the modules that follow.
-/

namespace KvStore

open Machine

variable {r r' : Raft} {m : Message}

namespace Raft

/-! ## Records -/

/-- The node follows in a term that is not behind its own. -/
def following (r : Raft) (term : ℕ) : Raft :=
  { r with
    role := .follower
    currentTerm := term
    votedFor := if r.currentTerm < term then 0 else r.votedFor }.resetElectionTimeout

/-- The node has timed out. -/
def polling (r : Raft) : Raft :=
  { r with role := .preCandidate, leaderID := 0, preVotesReceived := {r.id} }.resetElectionTimeout

/-- The node asks for votes in the next term. -/
def campaigning (r : Raft) : Raft :=
  { r with
    currentTerm := r.currentTerm + 1
    role := .candidate
    votedFor := r.id
    leaderID := 0
    votesReceived := {r.id} }.resetElectionTimeout

/-- The node leads, and its log ends at `last`. -/
def leading (r : Raft) (last : ℕ) : Raft :=
  { r with
    role := .leader
    leaderID := r.id
    nextIndex := fun p => if p ∈ r.peers then last + 1 else 0
    matchIndex := fun _ => 0
    sentIndex := fun _ => 0
    pendingReads := fun _ => none
    heartbeatElapsed := 0 }

/-- The node grants its vote. -/
def voting (r : Raft) (candidate : ℕ) : Raft :=
  { r with votedFor := candidate }.resetElectionTimeout

theorem becomeFollower_eq {t : ℕ} (h : r.currentTerm ≤ t) : r.becomeFollower t = r.following t := by
  unfold becomeFollower following
  split_ifs with hlt
  · rfl
  · obtain rfl := le_antisymm h (not_lt.mp hlt)
    rfl

theorem becomeFollower_term {t : ℕ} (h : r.currentTerm ≤ t) :
    (r.becomeFollower t).currentTerm = t := by
  rw [becomeFollower_eq h]
  rfl

theorem ackReadIndex_eq (r : Raft) (ctx p : ℕ) : r.ackReadIndex ctx p =
    { r with
      readStates := (r.ackReadIndex ctx p).readStates
      pendingReads := (r.ackReadIndex ctx p).pendingReads } := by
  unfold ackReadIndex
  split
  · rfl
  · dsimp only
    split_ifs <;> rfl

/-- What a response does to a node that does not wait for it: one of a higher term ends its role. -/
theorem response_cases {m : Message} {x : Option Raft}
    (h : (if r.currentTerm < m.term then some (r.becomeFollower m.term)
      else if m.term < r.currentTerm ∨ r.role ≠ .leader then some r else x) = some r') :
    r.currentTerm < m.term ∧ r' = r.becomeFollower m.term ∨ r' = r ∨
      m.term = r.currentTerm ∧ r.role = .leader ∧ x = some r' := by
  split_ifs at h with hlt hold
  · exact Or.inl ⟨hlt, (Option.some.inj h).symm⟩
  · exact Or.inr (Or.inl (Option.some.inj h).symm)
  · rw [not_or, not_not] at hold
    exact Or.inr (Or.inr ⟨le_antisymm (not_lt.mp hlt) (not_lt.mp hold.1), hold.2, h⟩)

/-! ## Loops -/

/-- A message a leader sends to replicate its log, in a round with read context `ctx`. -/
def Replicates (r : Raft) (ctx : ℕ) (m : Message) : Prop :=
  m.fromId = r.id ∧ m.term = r.currentTerm ∧
    (m.type = .appendEntries ∧ m.readContext = ctx ∨ m.type = .installSnapshot ∧ m.readContext = 0)

/-- What `sendAppendEntries` sends; a snapshot is the node's own. -/
theorem sendAppendEntries_eq {p ctx : ℕ} (h : r.sendAppendEntries p ctx = some r') :
    ∃ m f, r' = { r with msgs := r.msgs ++ [m], sentIndex := f } ∧ r.Replicates ctx m ∧
      (m.type = .installSnapshot → m.snapshot = r.snapshot) := by
  simp only [sendAppendEntries, Option.bind_eq_bind, Option.bind_eq_some_iff, pure] at h
  obtain ⟨first, -, h⟩ := h
  split_ifs at h
  · obtain rfl := Option.some.inj h
    exact ⟨_, r.sentIndex, rfl, ⟨rfl, rfl, Or.inr ⟨rfl, rfl⟩⟩, fun _ => rfl⟩
  all_goals
    simp only [Option.bind_eq_some_iff] at h
    obtain ⟨prevTerm, -, last, -, es, -, h⟩ := h
    obtain rfl := Option.some.inj h
    exact ⟨_, _, rfl, ⟨rfl, rfl, Or.inl ⟨rfl, rfl⟩⟩, fun hty => by cases hty⟩

theorem broadcast_eq {ctx : ℕ} (h : r.broadcast ctx = some r') : ∃ ms f,
    r' = { r with msgs := r.msgs ++ ms, sentIndex := f } ∧
      ∀ m ∈ ms, r.Replicates ctx m ∧ (m.type = .installSnapshot → m.snapshot = r.snapshot) := by
  unfold broadcast at h
  refine foldlM_induct (I := fun r₁ : Raft => ∃ ms f,
    r₁ = { r with msgs := r.msgs ++ ms, sentIndex := f } ∧
      ∀ m ∈ ms, r.Replicates ctx m ∧ (m.type = .installSnapshot → m.snapshot = r.snapshot))
    ?_ ⟨[], r.sentIndex, by simp, by simp⟩ h
  rintro r₁ ⟨ms, f, rfl, hms⟩ p r₂ h₂
  obtain ⟨m, f', rfl, hm⟩ := sendAppendEntries_eq h₂
  refine ⟨ms ++ [m], f', by simp, fun x hx => ?_⟩
  rcases List.mem_append.mp hx with hx | hx
  · exact hms x hx
  · obtain rfl := List.mem_singleton.mp hx
    exact hm

theorem advanceCommitFrom_eq {k : ℕ} (h : r.advanceCommitFrom k = some r') :
    ∃ i, r' = { r with commitIndex := i } ∧ r.commitIndex ≤ i ∧ (i = r.commitIndex ∨ i ≤ k) := by
  induction k with
  | zero => exact ⟨r.commitIndex, (Option.some.inj h).symm, le_rfl, Or.inl rfl⟩
  | succ k ih =>
    rw [advanceCommitFrom] at h
    split_ifs at h with hle
    · exact ⟨r.commitIndex, (Option.some.inj h).symm, le_rfl, Or.inl rfl⟩
    · obtain ⟨t, -, h⟩ := Option.bind_eq_some_iff.mp h
      split_ifs at h
      · exact ⟨k + 1, (Option.some.inj h).symm, (not_le.mp hle).le, Or.inr le_rfl⟩
      · obtain ⟨i, heq, hge, hcases⟩ := ih h
        exact ⟨i, heq, hge, hcases.imp_right fun hk => hk.trans (Nat.le_succ k)⟩

/-- The commit index moves up within the log. -/
theorem maybeAdvanceCommitIndex_eq (h : r.maybeAdvanceCommitIndex = some r') :
    ∃ i, r' = { r with commitIndex := i } ∧ r.commitIndex ≤ i ∧
      (i = r.commitIndex ∨ ∃ last, r.lastLogIndex = some last ∧ i ≤ last) := by
  obtain ⟨last, hlast, h⟩ := Option.bind_eq_some_iff.mp h
  obtain ⟨i, heq, hge, hcases⟩ := advanceCommitFrom_eq h
  exact ⟨i, heq, hge, hcases.imp_right fun hk => ⟨last, hlast, hk⟩⟩

/-- A round of `sendAppendEntries`, and a look at the commit index where there is nobody to send
to. -/
def Rounds (r : Raft) (ctx : ℕ) (r' : Raft) : Prop :=
  ∃ r₁, r.broadcast ctx = some r₁ ∧ (r' = r₁ ∨ r₁.maybeAdvanceCommitIndex = some r')

theorem Rounds.eq {ctx : ℕ} (h : r.Rounds ctx r') : ∃ ms f i,
    r' = { r with msgs := r.msgs ++ ms, sentIndex := f, commitIndex := i } ∧ r.commitIndex ≤ i ∧
      (i = r.commitIndex ∨ ∃ last, r.lastLogIndex = some last ∧ i ≤ last) ∧
      ∀ m ∈ ms, r.Replicates ctx m ∧ (m.type = .installSnapshot → m.snapshot = r.snapshot) := by
  obtain ⟨r₁, h₁, h⟩ := h
  obtain ⟨ms, f, rfl, hms⟩ := broadcast_eq h₁
  rcases h with rfl | h
  · exact ⟨ms, f, r.commitIndex, rfl, le_rfl, Or.inl rfl, hms⟩
  · obtain ⟨i, rfl, hge, hcases⟩ := maybeAdvanceCommitIndex_eq h
    exact ⟨ms, f, i, rfl, hge, hcases, hms⟩

theorem becomeLeader_eq (h : r.becomeLeader = some r') :
    ∃ last, r.lastLogIndex = some last ∧ (r.leading last).Rounds 0 r' := by
  unfold becomeLeader at h
  obtain ⟨last, hlast, h⟩ := Option.bind_eq_some_iff.mp h
  obtain ⟨r₁, h₁, h⟩ := Option.bind_eq_some_iff.mp h
  refine ⟨last, hlast, r₁, h₁, ?_⟩
  split_ifs at h
  · exact Or.inr h
  · exact Or.inl (Option.some.inj h).symm

theorem becomeLeader_role (h : r.becomeLeader = some r') : r'.role = .leader := by
  obtain ⟨last, -, hround⟩ := becomeLeader_eq h
  obtain ⟨ms, f, i, rfl, -⟩ := hround.eq
  rfl

/-- A `PreVote` or `RequestVote` to everybody. -/
def Asks (r : Raft) (type : MessageType) (r' : Raft) : Prop :=
  ∃ ms, r' = { r with msgs := r.msgs ++ ms } ∧
    ∀ m ∈ ms, m.type = type ∧ m.fromId = r.id ∧ m.term = r.currentTerm ∧ m.readContext = 0

theorem sendVoteRequests_eq {type : MessageType} {ps : List ℕ}
    (h : ps.foldlM (fun r p => r.sendVoteRequest type p) r = some r') : r.Asks type r' := by
  refine foldlM_induct (I := fun r₁ : Raft => r.Asks type r₁) ?_ ⟨[], by simp, by simp⟩ h
  rintro r₁ ⟨ms, rfl, hms⟩ p r₂ h₂
  simp only [sendVoteRequest, Option.bind_eq_bind, Option.bind_eq_some_iff, pure] at h₂
  obtain ⟨i, -, t, -, h₂⟩ := h₂
  obtain rfl := Option.some.inj h₂
  refine ⟨ms ++ [_], by rw [send, List.append_assoc], fun x hx => ?_⟩
  rcases List.mem_append.mp hx with hx | hx
  · exact hms x hx
  · rw [List.mem_singleton.mp hx]
    exact ⟨rfl, rfl, rfl, rfl⟩

/-- A candidate asks everybody, or leads if it is alone. -/
theorem becomeCandidate_eq (h : r.becomeCandidate = some r') :
    r.peers ≠ [] ∧ r.campaigning.Asks .requestVote r' ∨
      r.peers = [] ∧ ∃ last, (r.campaigning.leading last).Rounds 0 r' := by
  unfold becomeCandidate at h
  dsimp only at h
  split_ifs at h with hp
  · obtain ⟨last, -, h⟩ := becomeLeader_eq h
    exact Or.inr ⟨hp, last, h⟩
  · exact Or.inl ⟨hp, sendVoteRequests_eq h⟩

theorem mergeEntries_eq {idx : ℕ} {es : List LogEntry} (h : r.mergeEntries idx es = some r') :
    ∃ log u, r' = { r with log := log, unstableIndex := u } := by
  induction es generalizing r idx with
  | nil => exact ⟨r.log, r.unstableIndex, (Option.some.inj h).symm⟩
  | cons e es ih =>
    rw [mergeEntries] at h
    obtain ⟨last, -, h⟩ := Option.bind_eq_some_iff.mp h
    obtain ⟨term, -, h⟩ := Option.bind_eq_some_iff.mp h
    -- the log after the conflict, if there is one, is cut; then the entry may be added
    have hrest : ∀ r₁ : Raft, (∃ log u, r₁ = { r with log := log, unstableIndex := u }) →
        (r₁.lastLogIndex.bind fun last =>
          (if last < idx then { r₁ with log := r₁.log ++ [e] } else r₁).mergeEntries (idx + 1) es) =
            some r' → ∃ log u, r' = { r with log := log, unstableIndex := u } := by
      rintro r₁ ⟨log, u, rfl⟩ h₁
      obtain ⟨last', -, h₁⟩ := Option.bind_eq_some_iff.mp h₁
      split_ifs at h₁
      all_goals
        obtain ⟨log', u', rfl⟩ := ih h₁
        exact ⟨log', u', rfl⟩
    by_cases hc : idx ≤ last ∧ term ≠ e.term
    · rw [if_pos hc] at h
      obtain ⟨pos, -, h⟩ := Option.bind_eq_some_iff.mp h
      obtain ⟨log, -, h⟩ := Option.bind_eq_some_iff.mp h
      exact hrest _ ⟨_, _, rfl⟩ h
    · rw [if_neg hc] at h
      exact hrest r ⟨r.log, r.unstableIndex, rfl⟩ h

theorem appendDatas_eq {datas : List Bytes} {indices : List ℕ}
    (h : r.appendDatas datas = some (r', indices)) : ∃ log, r' = { r with log := log } := by
  induction datas generalizing r indices with
  | nil =>
    obtain ⟨rfl, -⟩ := Prod.mk.inj (Option.some.inj h)
    exact ⟨r.log, rfl⟩
  | cons d ds ih =>
    rw [Raft.appendDatas] at h
    obtain ⟨last, -, h⟩ := Option.bind_eq_some_iff.mp h
    obtain ⟨⟨r₁, is⟩, h₁, h⟩ := Option.bind_eq_some_iff.mp h
    obtain ⟨rfl, -⟩ := Prod.mk.inj (Option.some.inj h)
    obtain ⟨log, rfl⟩ := ih h₁
    exact ⟨log, rfl⟩

/-- `CreateSnapshot` fails, or changes the log and what belongs to it. -/
theorem createSnapshot_eq {index : ℕ} {data : Bytes} {res : Except Error Unit}
    (h : r.createSnapshot index data = some (r', res)) :
    r' = r ∧ (∃ e, res = .error e) ∨
      res = .ok () ∧
        ∃ log u snap, r' = { r with log := log, unstableIndex := u, snapshot := snap } := by
  simp only [createSnapshot, Option.bind_eq_bind, pure] at h
  by_cases h1 : r.commitIndex < index
  · rw [if_pos h1] at h
    obtain ⟨rfl, rfl⟩ := Prod.mk.inj (Option.some.inj h)
    exact Or.inl ⟨rfl, _, rfl⟩
  rw [if_neg h1] at h
  obtain ⟨first, -, h⟩ := Option.bind_eq_some_iff.mp h
  by_cases h2 : index ≤ first
  · rw [if_pos h2] at h
    obtain ⟨rfl, rfl⟩ := Prod.mk.inj (Option.some.inj h)
    exact Or.inl ⟨rfl, _, rfl⟩
  rw [if_neg h2] at h
  obtain ⟨term, -, h⟩ := Option.bind_eq_some_iff.mp h
  obtain ⟨pos, -, h⟩ := Option.bind_eq_some_iff.mp h
  obtain ⟨rest, -, h⟩ := Option.bind_eq_some_iff.mp h
  obtain ⟨rfl, rfl⟩ := Prod.mk.inj (Option.some.inj h)
  exact Or.inr ⟨rfl, _, _, _, rfl⟩

end Raft

/-! ## Outcomes -/

/-- A message whose term a node takes over without taking its sender for a leader. -/
def MessageType.RaisesTerm (type : MessageType) : Prop :=
  type ∈ [.requestVote, .requestVoteResponse, .appendEntriesResponse, .installSnapshotResponse]

instance : DecidablePred MessageType.RaisesTerm := fun type =>
  inferInstanceAs (Decidable (type ∈ [.requestVote, .requestVoteResponse, .appendEntriesResponse,
    .installSnapshotResponse]))

/-- How a node comes to look at a vote request: in its own term, or in the request's. -/
def Raft.Meets (r : Raft) (m : Message) (r₁ : Raft) : Prop :=
  r₁ = r ∨ r.currentTerm < m.term ∧ r₁ = r.following m.term

/-- How a leader comes to look at an answer: a read may have been acknowledged. -/
def Raft.Hears (r : Raft) (m : Message) (r₁ : Raft) : Prop :=
  m.readContext = 0 ∧ r₁ = r ∨ m.readContext ≠ 0 ∧ r₁ = r.ackReadIndex m.readContext m.fromId

theorem Raft.Hears.eq {r₁ : Raft} (h : r.Hears m r₁) :
    ∃ states reads, r₁ = { r with readStates := states, pendingReads := reads } := by
  rcases h with ⟨-, rfl⟩ | ⟨-, rfl⟩
  · exact ⟨_, _, rfl⟩
  · exact ⟨_, _, r.ackReadIndex_eq _ _⟩

/-- What a call can do. -/
inductive Outcome (r : Raft) : Op → Raft → Prop
  | idle {op : Op} : Outcome r op r
  -- `Tick`
  | waited : Outcome r .tick { r with heartbeatElapsed := r.heartbeatElapsed + 1 }
  | beat {r' : Raft} (role : r.role = .leader)
      (round : Raft.Rounds { r with heartbeatElapsed := 0 } 0 r') : Outcome r .tick r'
  | ticked (early : r.electionElapsed + 1 < r.randomizedElectionTimeout) :
      Outcome r .tick { r with electionElapsed := r.electionElapsed + 1 }
  | polled {r' : Raft} (role : r.role ≠ .leader)
      (late : r.randomizedElectionTimeout ≤ r.electionElapsed + 1)
    (asks : r.polling.Asks .preVote r') : Outcome r .tick r'
  | alone {r' : Raft} {last : ℕ} (role : r.role ≠ .leader)
      (late : r.randomizedElectionTimeout ≤ r.electionElapsed + 1) (peers : r.peers = [])
      (round : (r.polling.campaigning.leading last).Rounds 0 r') : Outcome r .tick r'
  -- `PreVote` and its answer
  | preVoted {m : Message} {granted : Bool} (type : m.type = .preVote)
      (grants : granted = true → r.currentTerm ≤ m.term + 1 ∧
        (r.votedFor = 0 ∨ r.votedFor = m.fromId ∨ r.currentTerm < m.term + 1) ∧
          r.logOK m = some true) :
      Outcome r (.step m)
    (r.send { type := .preVoteResponse, toId := m.fromId, voteGranted := granted })
  | counted {m : Message} (type : m.type = .preVoteResponse) (dst : m.toId = r.id)
      (granted : m.voteGranted = true) (role : r.role = .preCandidate) :
      Outcome r (.step m) { r with preVotesReceived := insert m.fromId r.preVotesReceived }
  | campaigned {m : Message} {r' : Raft} (type : m.type = .preVoteResponse) (dst : m.toId = r.id)
      (granted : m.voteGranted = true) (role : r.role = .preCandidate)
      (enough : r.hasMajorityCount (insert m.fromId r.preVotesReceived).card = true)
      (asks : (Raft.campaigning
        { r with preVotesReceived := insert m.fromId r.preVotesReceived }).Asks .requestVote r') :
      Outcome r (.step m) r'
  | crowned {m : Message} {r' : Raft} {last : ℕ} (type : m.type = .preVoteResponse)
      (dst : m.toId = r.id) (granted : m.voteGranted = true) (role : r.role = .preCandidate)
      (enough : r.hasMajorityCount (insert m.fromId r.preVotesReceived).card = true)
    (peers : r.peers = [])
      (round : ((Raft.campaigning
        { r with preVotesReceived := insert m.fromId r.preVotesReceived }).leading last).Rounds 0
            r') :
      Outcome r (.step m) r'
  -- `RequestVote` and its answer
  | refused {m : Message} {r₁ : Raft} (type : m.type = .requestVote) (dst : m.toId = r.id)
      (meets : r.Meets m r₁) : Outcome r (.step m)
    (r₁.send { type := .requestVoteResponse, toId := m.fromId, voteGranted := false })
  | voted {m : Message} {r₁ : Raft} (type : m.type = .requestVote) (dst : m.toId = r.id)
      (meets : r.Meets m r₁) : Outcome r (.step m)
        ((r₁.voting m.fromId).send
          { type := .requestVoteResponse, toId := m.fromId, voteGranted := true })
  | tallied {m : Message} : Outcome r (.step m)
      { r with votesReceived := insert m.fromId r.votesReceived }
  | elected {m : Message} {r' : Raft} {last : ℕ} (type : m.type = .requestVoteResponse)
      (dst : m.toId = r.id) (granted : m.voteGranted = true) (role : r.role = .candidate)
    (term : m.term = r.currentTerm)
      (enough : r.hasMajorityCount (insert m.fromId r.votesReceived).card = true)
      (round : (Raft.leading { r with votesReceived := insert m.fromId r.votesReceived }
      last).Rounds 0 r') : Outcome r (.step m) r'
  -- answers of a later term
  | outrun {m : Message} (type : m.type.RaisesTerm) (dst : m.toId = r.id)
      (lt : r.currentTerm < m.term) : Outcome r (.step m) (r.following m.term)
  -- `AppendEntries` and its answer
  | rejected {m : Message} (type : m.type = .appendEntries) :
      Outcome r (.step m)
    (r.send { type := .appendEntriesResponse, toId := m.fromId, success := false })
  | mismatched {m : Message} (type : m.type = .appendEntries) (dst : m.toId = r.id)
      (le : r.currentTerm ≤ m.term) : Outcome r (.step m)
    (Raft.send { r.following m.term with leaderID := m.fromId }
        { type := .appendEntriesResponse, toId := m.fromId, readContext := m.readContext })
  | merged {m : Message} {r₂ : Raft} {last last' : ℕ} (type : m.type = .appendEntries)
      (dst : m.toId = r.id) (le : r.currentTerm ≤ m.term)
    (lastLogIndex : r.lastLogIndex = some last) (prev : m.prevLogIndex ≤ last)
      (prevTerm : r.termAt m.prevLogIndex = some m.prevLogTerm)
      (run : Raft.mergeEntries { r.following m.term with leaderID := m.fromId } (m.prevLogIndex + 1)
        m.entries = some r₂) (lastLogIndex' : r₂.lastLogIndex = some last') :
      Outcome r (.step m) (Raft.send
        { r₂ with
          commitIndex :=
            if r₂.commitIndex < m.leaderCommit then min m.leaderCommit last' else r₂.commitIndex }
        { type := .appendEntriesResponse, toId := m.fromId, readContext := m.readContext,
          success := true, matchIndex := m.prevLogIndex + m.entries.length })
  | acked {m : Message} {r₁ r' : Raft} {f g : ℕ → ℕ} (type : m.type = .appendEntriesResponse)
      (dst : m.toId = r.id) (role : r.role = .leader) (term : m.term = r.currentTerm)
        (hears : r.Hears m r₁)
      (run : Raft.maybeAdvanceCommitIndex { r₁ with matchIndex := f, nextIndex := g } = some r') :
      Outcome r (.step m) r'
  | nacked {m : Message} {r₁ r' : Raft} {f g : ℕ → ℕ} (type : m.type = .appendEntriesResponse)
      (dst : m.toId = r.id) (role : r.role = .leader) (term : m.term = r.currentTerm)
        (hears : r.Hears m r₁)
      (run : Raft.sendAppendEntries { r₁ with nextIndex := f, sentIndex := g } m.fromId 0 =
        some r') :
      Outcome r (.step m) r'
  -- `InstallSnapshot` and its answer
  | declined {m : Message} {first : ℕ} (type : m.type = .installSnapshot) :
      Outcome r (.step m)
        (r.send { type := .installSnapshotResponse, toId := m.fromId, matchIndex := first })
  | known {m : Message} {first : ℕ} (type : m.type = .installSnapshot) (dst : m.toId = r.id)
      (le : r.currentTerm ≤ m.term) :
      Outcome r (.step m) (Raft.send { r.following m.term with leaderID := m.fromId }
        { type := .installSnapshotResponse, toId := m.fromId, matchIndex := first })
  | installed {m : Message} {first : ℕ} (type : m.type = .installSnapshot) (dst : m.toId = r.id)
      (le : r.currentTerm ≤ m.term) (firstIndex : r.firstIndex = some first)
      (lt : first < m.snapshot.lastIncludedIndex) :
      Outcome r (.step m) (Raft.send
        { r.following m.term with
          leaderID := m.fromId
          log := [⟨m.snapshot.lastIncludedTerm, m.snapshot.lastIncludedIndex, []⟩]
          commitIndex :=
            if r.commitIndex < m.snapshot.lastIncludedIndex then m.snapshot.lastIncludedIndex else
              r.commitIndex
          unstableIndex := m.snapshot.lastIncludedIndex + 1
          snapshot := m.snapshot
          pendingSnapshotToApply := some m.snapshot }
        { type := .installSnapshotResponse, toId := m.fromId,
          matchIndex := m.snapshot.lastIncludedIndex })
  | received {m : Message} {r' : Raft} {f g : ℕ → ℕ}
      (run : Raft.maybeAdvanceCommitIndex { r with matchIndex := f, nextIndex := g } = some r') :
      Outcome r (.step m) r'
  -- what the server calls
  | proposed {datas : List Bytes} {r₁ r' : Raft} {indices : List ℕ} (role : r.role = .leader)
      (append : r.appendDatas datas = some (r₁, indices)) (round : r₁.Rounds 0 r') :
        Outcome r (.propose datas) r'
  | answered {ctx : ℕ} (role : r.role = .leader) (alone : r.hasMajorityCount 1 = true) :
      Outcome r (.readIndex ctx)
        { r with
          readStates := r.readStates ++ [⟨r.commitIndex, ctx⟩]
          pendingReads := Function.update r.pendingReads ctx none }
  | asked {ctx : ℕ} {r' : Raft} (role : r.role = .leader)
      (round : Raft.Rounds
        { r with pendingReads := Function.update r.pendingReads ctx (some ⟨r.commitIndex, {r.id}⟩) }
            ctx r') :
      Outcome r (.readIndex ctx) r'
  | compacted {index : ℕ} {data : Bytes} {r' : Raft}
      (run : r.createSnapshot index data = some (r', .ok ())) :
        Outcome r (.createSnapshot index data) r'

/-! ## The walk through the handlers -/

namespace Outcome

theorem tick (h : r.tick = some r') : Outcome r .tick r' := by
  unfold Raft.tick at h
  dsimp only at h
  split_ifs at h with hl hb ht
  · exact .beat hl ⟨r', h, Or.inl rfl⟩
  · obtain rfl := Option.some.inj h
    exact .waited
  · unfold Raft.becomePreCandidate at h
    dsimp only at h
    split_ifs at h with hp
    · rcases Raft.becomeCandidate_eq h with ⟨hne, -⟩ | ⟨-, last, hround⟩
      · exact absurd hp hne
      · exact .alone hl ht hp hround
    · exact .polled hl ht (Raft.sendVoteRequests_eq h)
  · obtain rfl := Option.some.inj h
    exact .ticked (not_le.mp ht)

theorem handlePreVote (hty : m.type = .preVote) (h : r.handlePreVote m = some r') :
    Outcome r (.step m) r' := by
  unfold Raft.handlePreVote at h
  dsimp only at h
  split_ifs at h with hlt
  · obtain rfl := Option.some.inj h
    exact .preVoted hty fun hg => by cases hg
  · obtain ⟨ok, hok, h⟩ := Option.bind_eq_some_iff.mp h
    obtain rfl := Option.some.inj h
    refine .preVoted hty fun hg => ?_
    obtain ⟨hvote, rfl⟩ := of_decide_eq_true hg
    exact ⟨not_lt.mp hlt, hvote, hok⟩

theorem handlePreVoteResponse (hty : m.type = .preVoteResponse) (hto : m.toId = r.id)
    (h : r.handlePreVoteResponse m = some r') : Outcome r (.step m) r' := by
  unfold Raft.handlePreVoteResponse at h
  dsimp only at h
  split_ifs at h with hr hg hc
  · obtain rfl := Option.some.inj h
    exact .idle
  · obtain rfl := Option.some.inj h
    exact .idle
  · rw [not_not] at hr
    rw [Bool.not_eq_true', Bool.not_eq_false] at hg
    rcases Raft.becomeCandidate_eq h with ⟨-, hasks⟩ | ⟨hp, last, hround⟩
    · exact .campaigned hty hto hg hr hc hasks
    · exact .crowned hty hto hg hr hc hp hround
  · rw [not_not] at hr
    rw [Bool.not_eq_true', Bool.not_eq_false] at hg
    obtain rfl := Option.some.inj h
    exact .counted hty hto hg hr

theorem handleRequestVote (hty : m.type = .requestVote) (hto : m.toId = r.id)
    (h : r.handleRequestVote m = some r') : Outcome r (.step m) r' := by
  unfold Raft.handleRequestVote at h
  dsimp only at h
  -- the term is raised first
  have hmeets : r.Meets m (if r.currentTerm < m.term then r.becomeFollower m.term else r) := by
    split_ifs with hlt
    · exact Or.inr ⟨hlt, Raft.becomeFollower_eq hlt.le⟩
    · exact Or.inl rfl
  generalize (if r.currentTerm < m.term then r.becomeFollower m.term else r) = r₁ at h hmeets
  by_cases hlt : m.term < r₁.currentTerm
  · rw [if_pos hlt] at h
    obtain rfl := Option.some.inj h
    exact .refused hty hto hmeets
  · rw [if_neg hlt] at h
    obtain ⟨ok, -, h⟩ := Option.bind_eq_some_iff.mp h
    obtain rfl := Option.some.inj h
    generalize decide ((r₁.votedFor = 0 ∨ r₁.votedFor = m.fromId) ∧ ok = true) = granted
    cases granted with
    | false => exact .refused hty hto hmeets
    | true => exact .voted hty hto hmeets

theorem handleRequestVoteResponse (hty : m.type = .requestVoteResponse) (hto : m.toId = r.id)
    (h : r.handleRequestVoteResponse m = some r') : Outcome r (.step m) r' := by
  unfold Raft.handleRequestVoteResponse at h
  dsimp only at h
  split_ifs at h with hlt hr hg hc
  · obtain rfl := Option.some.inj h
    rw [Raft.becomeFollower_eq hlt.le]
    exact .outrun (by rw [hty]; decide) hto hlt
  · obtain rfl := Option.some.inj h
    exact .idle
  · obtain rfl := Option.some.inj h
    exact .idle
  · obtain ⟨last, -, hround⟩ := Raft.becomeLeader_eq h
    rw [not_or, not_not] at hr
    rw [Bool.not_eq_true', Bool.not_eq_false] at hg
    exact .elected hty hto hg hr.2 (le_antisymm (not_lt.mp hlt) (not_lt.mp hr.1)) hc hround
  · obtain rfl := Option.some.inj h
    exact .tallied

theorem handleAppendEntries (hty : m.type = .appendEntries) (hto : m.toId = r.id)
    (h : r.handleAppendEntries m = some r') : Outcome r (.step m) r' := by
  unfold Raft.handleAppendEntries at h
  by_cases hlt : m.term < r.currentTerm
  · rw [if_pos hlt] at h
    obtain rfl := Option.some.inj h
    exact .rejected hty
  rw [not_lt] at hlt
  simp only [if_neg (not_lt.mpr hlt), Raft.becomeFollower_eq hlt, Option.bind_eq_bind,
    Option.bind_eq_some_iff, pure] at h
  obtain ⟨last, hlast, prevTerm, hprev, h⟩ := h
  by_cases hno : last < m.prevLogIndex ∨ prevTerm ≠ m.prevLogTerm
  · rw [if_pos hno] at h
    obtain rfl := Option.some.inj h
    exact .mismatched hty hto hlt
  · rw [if_neg hno] at h
    simp only [Option.bind_eq_some_iff] at h
    obtain ⟨r₂, h₂, last', hlast', h⟩ := h
    obtain rfl := Option.some.inj h
    rw [not_or, not_lt, not_not] at hno
    exact .merged hty hto hlt hlast hno.1 (hno.2 ▸ hprev) h₂ hlast'

theorem handleAppendEntriesResponse (hty : m.type = .appendEntriesResponse) (hto : m.toId = r.id)
    (h : r.handleAppendEntriesResponse m = some r') : Outcome r (.step m) r' := by
  unfold Raft.handleAppendEntriesResponse at h
  dsimp only at h
  rcases Raft.response_cases h with ⟨hlt, rfl⟩ | rfl | ⟨hterm, hrole, h⟩
  · rw [Raft.becomeFollower_eq hlt.le]
    exact .outrun (by rw [hty]; decide) hto hlt
  · exact .idle
  have hhears :
      r.Hears m (if m.readContext ≠ 0 then r.ackReadIndex m.readContext m.fromId else r) := by
    split_ifs with hctx
    · exact Or.inr ⟨hctx, rfl⟩
    · exact Or.inl ⟨not_not.mp hctx, rfl⟩
  generalize (if m.readContext ≠ 0 then r.ackReadIndex m.readContext m.fromId else r) =
    r₁ at h hhears
  by_cases hs : m.success = true
  · rw [if_pos hs] at h
    exact .acked hty hto hrole hterm hhears h
  · rw [if_neg hs] at h
    exact .nacked hty hto hrole hterm hhears h

theorem handleInstallSnapshot (hty : m.type = .installSnapshot) (hto : m.toId = r.id)
    (h : r.handleInstallSnapshot m = some r') : Outcome r (.step m) r' := by
  simp only [Raft.handleInstallSnapshot, Option.bind_eq_bind, Option.bind_eq_some_iff, pure] at h
  obtain ⟨first, hfirst, h⟩ := h
  by_cases hlt : m.term < r.currentTerm
  · rw [if_pos hlt] at h
    obtain rfl := Option.some.inj h
    exact .declined hty
  rw [not_lt] at hlt
  rw [if_neg (not_lt.mpr hlt), Raft.becomeFollower_eq hlt] at h
  by_cases hold : m.snapshot.lastIncludedIndex ≤ first
  · rw [if_pos hold] at h
    obtain rfl := Option.some.inj h
    exact .known hty hto hlt
  · rw [if_neg hold] at h
    obtain rfl := Option.some.inj h
    exact .installed hty hto hlt hfirst (not_le.mp hold)

theorem handleInstallSnapshotResponse (hty : m.type = .installSnapshotResponse)
    (hto : m.toId = r.id) (h : r.handleInstallSnapshotResponse m = some r') :
    Outcome r (.step m) r' := by
  unfold Raft.handleInstallSnapshotResponse at h
  rcases Raft.response_cases h with ⟨hlt, rfl⟩ | rfl | ⟨-, -, h⟩
  · rw [Raft.becomeFollower_eq hlt.le]
    exact .outrun (by rw [hty]; decide) hto hlt
  · exact .idle
  · exact .received h

theorem step (h : r.step m = some r') : Outcome r (.step m) r' := by
  unfold Raft.step at h
  split_ifs at h with hto
  · obtain rfl := Option.some.inj h
    exact .idle
  rw [not_not] at hto
  cases hty : m.type with
  | preVote => rw [hty] at h; exact handlePreVote hty h
  | preVoteResponse => rw [hty] at h; exact handlePreVoteResponse hty hto h
  | requestVote => rw [hty] at h; exact handleRequestVote hty hto h
  | requestVoteResponse => rw [hty] at h; exact handleRequestVoteResponse hty hto h
  | appendEntries => rw [hty] at h; exact handleAppendEntries hty hto h
  | appendEntriesResponse => rw [hty] at h; exact handleAppendEntriesResponse hty hto h
  | installSnapshot => rw [hty] at h; exact handleInstallSnapshot hty hto h
  | installSnapshotResponse => rw [hty] at h; exact handleInstallSnapshotResponse hty hto h

theorem proposeBatch {datas : List Bytes} {res : Except Error (List ℕ)}
    (h : r.proposeBatch datas = some (r', res)) : Outcome r (.propose datas) r' := by
  unfold Raft.proposeBatch at h
  by_cases hl : r.role ≠ .leader
  · rw [if_pos hl] at h
    obtain ⟨rfl, -⟩ := Prod.mk.inj (Option.some.inj h)
    exact .idle
  rw [if_neg hl] at h
  obtain ⟨⟨r₁, is⟩, h₁, h⟩ := Option.bind_eq_some_iff.mp h
  obtain ⟨r₂, h₂, h⟩ := Option.bind_eq_some_iff.mp h
  refine .proposed (not_not.mp hl) h₁ ⟨r₂, h₂, ?_⟩
  split_ifs at h
  · obtain ⟨r₃, h₃, h⟩ := Option.bind_eq_some_iff.mp h
    obtain ⟨rfl, -⟩ := Prod.mk.inj (Option.some.inj h)
    exact Or.inr h₃
  · obtain ⟨rfl, -⟩ := Prod.mk.inj (Option.some.inj h)
    exact Or.inl rfl

theorem requestReadIndex {ctx : ℕ} {res : Except Error Unit}
    (h : r.requestReadIndex ctx = some (r', res)) : Outcome r (.readIndex ctx) r' := by
  unfold Raft.requestReadIndex at h
  dsimp only at h
  split_ifs at h with hl hm
  · obtain ⟨rfl, -⟩ := Prod.mk.inj (Option.some.inj h)
    exact .idle
  · obtain ⟨rfl, -⟩ := Prod.mk.inj (Option.some.inj h)
    exact .answered (not_not.mp hl) hm
  · obtain ⟨r₁, h₁, h⟩ := Option.bind_eq_some_iff.mp h
    obtain ⟨rfl, -⟩ := Prod.mk.inj (Option.some.inj h)
    exact .asked (not_not.mp hl) ⟨_, h₁, Or.inl rfl⟩

theorem createSnapshot {index : ℕ} {data : Bytes} {res : Except Error Unit}
    (h : r.createSnapshot index data = some (r', res)) :
    Outcome r (.createSnapshot index data) r' := by
  rcases Raft.createSnapshot_eq h with ⟨rfl, -⟩ | ⟨rfl, -⟩
  · exact .idle
  · exact .compacted h

end Outcome

/-- **What a call does.** -/
theorem Op.run_outcome {op : Op} (h : op.run r = some r') : Outcome r op r' := by
  cases op with
  | tick => exact .tick h
  | step m => exact .step h
  | propose datas =>
    obtain ⟨⟨r₁, res⟩, h', rfl⟩ := Option.map_eq_some_iff.mp h
    exact .proposeBatch h'
  | readIndex ctx =>
    obtain ⟨⟨r₁, res⟩, h', rfl⟩ := Option.map_eq_some_iff.mp h
    exact .requestReadIndex h'
  | createSnapshot index data =>
    obtain ⟨⟨r₁, res⟩, h', rfl⟩ := Option.map_eq_some_iff.mp h
    exact .createSnapshot h'

end KvStore
