import KvStore.Raft.Types

/-!
# The Raft state machine of `raft/raft.go`

Every function of the package that reads or writes a `Raft`, as a function on `Raft` values.

* An access to `r.log` outside its bounds panics in Go. Here it gives `none`, and so does every
  function that makes one: `logAt`, `logFrom`, `logTo` and `logSlice` are the only ways to the log's
  entries, together with `firstIndex`, `lastLogIndex` and `lastLogTerm`, which panic on an empty
  log.
* `logPos` is `int(index - r.log[0].Index)`: an unsigned difference read as a signed one, so a
  negative number below the boundary.
* A function that can refuse returns its error beside the state.
* The loops are `List.foldlM` over the peers, or a recursion of their own (`mergeEntries`,
  `advanceCommitFrom`, `appendDatas`).
-/

namespace KvStore

namespace Raft

/-! ## The log -/

/-- `r.log[pos]`. -/
def logAt (r : Raft) (pos : ℤ) : Option LogEntry :=
  if 0 ≤ pos then r.log[pos.toNat]? else none

/-- `r.log[lo:hi]`. -/
def logSlice (r : Raft) (lo hi : ℤ) : Option (List LogEntry) :=
  if 0 ≤ lo ∧ lo ≤ hi ∧ hi ≤ r.log.length then some ((r.log.take hi.toNat).drop lo.toNat) else none

/-- `r.log[pos:]`. -/
def logFrom (r : Raft) (pos : ℤ) : Option (List LogEntry) := r.logSlice pos r.log.length

/-- `r.log[:pos]`. -/
def logTo (r : Raft) (pos : ℤ) : Option (List LogEntry) := r.logSlice 0 pos

/-- `r.log[0].Index`, the snapshot boundary. -/
def firstIndex (r : Raft) : Option ℕ := r.log.head?.map LogEntry.index

/-- `lastLogIndex`. -/
def lastLogIndex (r : Raft) : Option ℕ := r.log.getLast?.map LogEntry.index

/-- `lastLogTerm`. -/
def lastLogTerm (r : Raft) : Option ℕ := r.log.getLast?.map LogEntry.term

/-- `logPos`. -/
def logPos (r : Raft) (index : ℕ) : Option ℤ := do
  let first ← r.firstIndex
  return (index : ℤ) - first

/-- `termAt`: `0` for an index outside the log. -/
def termAt (r : Raft) (index : ℕ) : Option ℕ := do
  let first ← r.firstIndex
  let last ← r.lastLogIndex
  if index < first ∨ last < index then return 0
  let pos ← r.logPos index
  let e ← r.logAt pos
  return e.term

/-- `Entries`: the entries in `(start, end]`, both ends clamped to what the log has. -/
def entries (r : Raft) (start stop : ℕ) : Option (List LogEntry) := do
  let last ← r.lastLogIndex
  let first ← r.firstIndex
  let stop := if last < stop then last else stop
  let start := if start < first then first else start
  if stop ≤ start then return []
  let lo ← r.logPos start
  let hi ← r.logPos stop
  r.logSlice (lo + 1) (hi + 1)

/-! ## Small steps -/

/-- `clusterSize`. -/
def clusterSize (r : Raft) : ℕ := r.peers.length + 1

/-- `hasMajorityCount`. -/
def hasMajorityCount (r : Raft) (n : ℕ) : Bool := r.clusterSize / 2 + 1 ≤ n

/-- `send`: the outbox gets the message, stamped with the sender and its term. -/
def send (r : Raft) (m : Message) : Raft :=
  { r with msgs := r.msgs ++ [{ m with fromId := r.id, term := r.currentTerm }] }

/-- `resetElectionTimeout`. -/
def resetElectionTimeout (r : Raft) : Raft :=
  { r with
    electionElapsed := 0
    randomizedElectionTimeout := r.electionTick + r.rnd 0 % r.electionTick
    rnd := fun k => r.rnd (k + 1) }

/-- The state `New` makes of a configuration it has validated. -/
def start (cfg : Config) : Raft :=
  resetElectionTimeout
    { id := cfg.id, peers := cfg.peers, role := .follower, currentTerm := 0, votedFor := 0,
      leaderID := 0, log := [⟨0, 0, []⟩], snapshot := {}, pendingSnapshotToApply := none,
      commitIndex := 0, stableTerm := 0, stableVote := 0, unstableIndex := 1,
      stableSnapshotIndex := 0, nextIndex := fun _ => 0, matchIndex := fun _ => 0,
      sentIndex := fun _ => 0, votesReceived := ∅, preVotesReceived := ∅,
      pendingReads := fun _ => none, readStates := [], electionTick := cfg.electionTick,
      heartbeatTick := cfg.heartbeatTick, electionElapsed := 0, heartbeatElapsed := 0,
      randomizedElectionTimeout := 0, rnd := cfg.rnd, msgs := [] }

/-- `New`. -/
def new (cfg : Config) : Except Error Raft := do
  cfg.validate
  return start cfg

/-- `restoreState`. -/
def restoreState (r : Raft) (hs : HardState) (entries : List LogEntry) : Option Raft := do
  let r := { r with
    currentTerm := hs.term
    votedFor := hs.vote
    stableTerm := hs.term
    stableVote := hs.vote
    log := if entries = [] then r.log else entries }
  let first ← r.firstIndex
  let r := { r with commitIndex := if r.commitIndex < first then first else r.commitIndex }
  let last ← r.lastLogIndex
  return { r with unstableIndex := last + 1 }

/-- `Ready`. -/
def ready (r : Raft) : Option Ready := do
  let last ← r.lastLogIndex
  let (unstable, first) ←
    if r.unstableIndex ≤ last then do
      let pos ← r.logPos r.unstableIndex
      let es ← r.logFrom pos
      pure (es, r.unstableIndex)
    else pure ([], 0)
  return {
    hardState :=
      if r.currentTerm ≠ r.stableTerm ∨ r.votedFor ≠ r.stableVote then
        some ⟨r.currentTerm, r.votedFor⟩
      else none
    unstableEntries := unstable
    firstUnstableIndex := first
    messages := r.msgs
    readStates := r.readStates
    snapshot :=
      if r.stableSnapshotIndex < r.snapshot.lastIncludedIndex then some r.snapshot else none
    snapshotToApply := r.pendingSnapshotToApply }

/-- `Advance`. -/
def advance (r : Raft) : Option Raft := do
  let last ← r.lastLogIndex
  return { r with
    stableTerm := r.currentTerm
    stableVote := r.votedFor
    unstableIndex := if r.unstableIndex ≤ last then last + 1 else r.unstableIndex
    stableSnapshotIndex := r.snapshot.lastIncludedIndex
    pendingSnapshotToApply := none
    msgs := []
    readStates := [] }

/-- `CreateSnapshot`. -/
def createSnapshot (r : Raft) (index : ℕ) (data : Bytes) : Option (Raft × Except Error Unit) := do
  if r.commitIndex < index then return (r, .error (.notCommitted index r.commitIndex))
  let first ← r.firstIndex
  if index ≤ first then return (r, .error (.notNewer index first))
  let term ← r.termAt index
  let pos ← r.logPos index
  let rest ← r.logFrom (pos + 1)
  return ({ r with
    log := ⟨term, index, []⟩ :: rest
    unstableIndex := if r.unstableIndex ≤ index then index + 1 else r.unstableIndex
    snapshot := ⟨index, term, data⟩ }, .ok ())

/-! ## Sending entries -/

/-- `sendInstallSnapshot`. -/
def sendInstallSnapshot (r : Raft) (peer : ℕ) : Raft :=
  r.send { type := .installSnapshot, toId := peer, snapshot := r.snapshot }

/-- `x - 1` on `uint64`: a peer the map has no entry for has `nextIndex` zero. -/
def pred64 (x : ℕ) : ℕ := if x = 0 then 2 ^ 64 - 1 else x - 1

/-- `sendAppendEntries`. -/
def sendAppendEntries (r : Raft) (peer readContext : ℕ) : Option Raft := do
  let first ← r.firstIndex
  if pred64 (r.nextIndex peer) < first then return r.sendInstallSnapshot peer
  let prevIndex := pred64 (r.nextIndex peer)
  let prevIndex := if prevIndex < r.sentIndex peer then r.sentIndex peer else prevIndex
  let prevTerm ← r.termAt prevIndex
  let last ← r.lastLogIndex
  let es ← r.entries prevIndex last
  let r := r.send {
    type := .appendEntries
    toId := peer
    prevLogIndex := prevIndex
    prevLogTerm := prevTerm
    entries := es
    leaderCommit := r.commitIndex
    readContext := readContext }
  return { r with
    sentIndex :=
      if r.sentIndex peer < last then Function.update r.sentIndex peer last else r.sentIndex }

/-- One `sendAppendEntries` to every peer, in order. -/
def broadcast (r : Raft) (readContext : ℕ) : Option Raft :=
  r.peers.foldlM (fun r p => r.sendAppendEntries p readContext) r

/-- `sendHeartbeats`. -/
def sendHeartbeats (r : Raft) : Option Raft := r.broadcast 0

/-- How many nodes have index `n`, as far as the leader knows; it counts itself. -/
def matchCount (r : Raft) (n : ℕ) : ℕ := 1 + (r.peers.filter (fun p => n ≤ r.matchIndex p)).length

/-- The loop of `maybeAdvanceCommitIndex`, from index `n` down to the commit index. -/
def advanceCommitFrom (r : Raft) : ℕ → Option Raft
  | 0 => some r
  | n + 1 =>
    if n + 1 ≤ r.commitIndex then some r
    else do
      let t ← r.termAt (n + 1)
      if t = r.currentTerm ∧ r.hasMajorityCount (r.matchCount (n + 1)) then
        return { r with commitIndex := n + 1 }
      else r.advanceCommitFrom n

/-- `maybeAdvanceCommitIndex`. -/
def maybeAdvanceCommitIndex (r : Raft) : Option Raft := do
  let last ← r.lastLogIndex
  r.advanceCommitFrom last

/-! ## Roles -/

/-- `becomeFollower`. -/
def becomeFollower (r : Raft) (term : ℕ) : Raft :=
  let r := if r.currentTerm < term then { r with currentTerm := term, votedFor := 0 } else r
  { r with role := .follower }.resetElectionTimeout

/-- `becomeLeader`. -/
def becomeLeader (r : Raft) : Option Raft := do
  let last ← r.lastLogIndex
  let r := { r with
    role := .leader
    leaderID := r.id
    nextIndex := fun p => if p ∈ r.peers then last + 1 else 0
    matchIndex := fun _ => 0
    sentIndex := fun _ => 0
    pendingReads := fun _ => none
    heartbeatElapsed := 0 }
  let r ← r.sendHeartbeats
  if r.peers = [] then r.maybeAdvanceCommitIndex else return r

/-- A `PreVote` or `RequestVote` to one peer, with the end of this node's log. -/
def sendVoteRequest (r : Raft) (type : MessageType) (peer : ℕ) : Option Raft := do
  let lastIndex ← r.lastLogIndex
  let lastTerm ← r.lastLogTerm
  return r.send { type := type, toId := peer, lastLogIndex := lastIndex, lastLogTerm := lastTerm }

/-- `becomeCandidate`. -/
def becomeCandidate (r : Raft) : Option Raft :=
  let r := { r with
    currentTerm := r.currentTerm + 1
    role := .candidate
    votedFor := r.id
    leaderID := 0
    votesReceived := {r.id} }.resetElectionTimeout
  if r.peers = [] then r.becomeLeader
  else r.peers.foldlM (fun r p => r.sendVoteRequest .requestVote p) r

/-- `becomePreCandidate`. -/
def becomePreCandidate (r : Raft) : Option Raft :=
  let r := { r with
    role := .preCandidate
    leaderID := 0
    preVotesReceived := {r.id} }.resetElectionTimeout
  if r.peers = [] then r.becomeCandidate
  else r.peers.foldlM (fun r p => r.sendVoteRequest .preVote p) r

/-- `Tick`. -/
def tick (r : Raft) : Option Raft :=
  if r.role = .leader then
    let r := { r with heartbeatElapsed := r.heartbeatElapsed + 1 }
    if r.heartbeatTick ≤ r.heartbeatElapsed then { r with heartbeatElapsed := 0 }.sendHeartbeats
    else some r
  else
    let r := { r with electionElapsed := r.electionElapsed + 1 }
    if r.randomizedElectionTimeout ≤ r.electionElapsed then r.becomePreCandidate else some r

/-! ## Votes -/

/-- The log of the sender of a vote request is at least as up to date as this node's. -/
def logOK (r : Raft) (m : Message) : Option Bool := do
  let lastTerm ← r.lastLogTerm
  let lastIndex ← r.lastLogIndex
  return decide (lastTerm < m.lastLogTerm ∨ m.lastLogTerm = lastTerm ∧ lastIndex ≤ m.lastLogIndex)

/-- `handlePreVote`. -/
def handlePreVote (r : Raft) (m : Message) : Option Raft :=
  let prospectiveTerm := m.term + 1
  if prospectiveTerm < r.currentTerm then
    some (r.send { type := .preVoteResponse, toId := m.fromId, voteGranted := false })
  else do
    let logOK ← r.logOK m
    let canVote := r.votedFor = 0 ∨ r.votedFor = m.fromId ∨ r.currentTerm < prospectiveTerm
    return r.send { type := .preVoteResponse, toId := m.fromId, voteGranted := canVote ∧ logOK }

/-- `handlePreVoteResponse`. -/
def handlePreVoteResponse (r : Raft) (m : Message) : Option Raft :=
  if r.role ≠ .preCandidate then some r
  else if !m.voteGranted then some r
  else
    let r := { r with preVotesReceived := insert m.fromId r.preVotesReceived }
    if r.hasMajorityCount r.preVotesReceived.card then r.becomeCandidate else some r

/-- `handleRequestVote`. -/
def handleRequestVote (r : Raft) (m : Message) : Option Raft :=
  let r := if r.currentTerm < m.term then r.becomeFollower m.term else r
  if m.term < r.currentTerm then
    some (r.send { type := .requestVoteResponse, toId := m.fromId, voteGranted := false })
  else do
    let canVote := r.votedFor = 0 ∨ r.votedFor = m.fromId
    let logOK ← r.logOK m
    let granted : Bool := canVote ∧ logOK
    let r := if granted then { r with votedFor := m.fromId }.resetElectionTimeout else r
    return r.send { type := .requestVoteResponse, toId := m.fromId, voteGranted := granted }

/-- `handleRequestVoteResponse`. -/
def handleRequestVoteResponse (r : Raft) (m : Message) : Option Raft :=
  if r.currentTerm < m.term then some (r.becomeFollower m.term)
  else if m.term < r.currentTerm ∨ r.role ≠ .candidate then some r
  else if !m.voteGranted then some r
  else
    let r := { r with votesReceived := insert m.fromId r.votesReceived }
    if r.hasMajorityCount r.votesReceived.card then r.becomeLeader else some r

/-! ## Replication -/

/-- The loop of `handleAppendEntries`: put the entries in from index `idx` on, cutting the log where
one of them conflicts with it. -/
def mergeEntries (r : Raft) (idx : ℕ) : List LogEntry → Option Raft
  | [] => some r
  | e :: es => do
    let last ← r.lastLogIndex
    let term ← r.termAt idx
    let r ←
      if idx ≤ last ∧ term ≠ e.term then do
        let pos ← r.logPos idx
        let log ← r.logTo pos
        pure { r with
          log := log
          unstableIndex := if idx < r.unstableIndex then idx else r.unstableIndex }
      else pure r
    let last ← r.lastLogIndex
    let r := if last < idx then { r with log := r.log ++ [e] } else r
    r.mergeEntries (idx + 1) es

/-- `handleAppendEntries`. -/
def handleAppendEntries (r : Raft) (m : Message) : Option Raft :=
  if m.term < r.currentTerm then
    some (r.send { type := .appendEntriesResponse, toId := m.fromId, success := false })
  else do
    let r := { r.becomeFollower m.term with leaderID := m.fromId }
    let reply : Message :=
      { type := .appendEntriesResponse, toId := m.fromId, readContext := m.readContext }
    let last ← r.lastLogIndex
    let prevTerm ← r.termAt m.prevLogIndex
    if last < m.prevLogIndex ∨ prevTerm ≠ m.prevLogTerm then return r.send reply
    let r ← r.mergeEntries (m.prevLogIndex + 1) m.entries
    let last ← r.lastLogIndex
    let r := { r with
      commitIndex :=
        if r.commitIndex < m.leaderCommit then min m.leaderCommit last else r.commitIndex }
    return r.send { reply with success := true, matchIndex := m.prevLogIndex + m.entries.length }

/-- `ackReadIndex`. -/
def ackReadIndex (r : Raft) (ctx peer : ℕ) : Raft :=
  match r.pendingReads ctx with
  | none => r
  | some pr =>
    let pr := { pr with acked := insert peer pr.acked }
    if r.hasMajorityCount pr.acked.card then
      { r with
        readStates := r.readStates ++ [⟨pr.index, ctx⟩]
        pendingReads := Function.update r.pendingReads ctx none }
    else { r with pendingReads := Function.update r.pendingReads ctx (some pr) }

/-- `handleAppendEntriesResponse`. -/
def handleAppendEntriesResponse (r : Raft) (m : Message) : Option Raft :=
  if r.currentTerm < m.term then some (r.becomeFollower m.term)
  else if m.term < r.currentTerm ∨ r.role ≠ .leader then some r
  else
    let r := if m.readContext ≠ 0 then r.ackReadIndex m.readContext m.fromId else r
    if m.success then
      { r with
        matchIndex :=
          if r.matchIndex m.fromId < m.matchIndex then
            Function.update r.matchIndex m.fromId m.matchIndex
          else r.matchIndex
        nextIndex :=
          Function.update r.nextIndex m.fromId (m.matchIndex + 1) }.maybeAdvanceCommitIndex
    else
      { r with
        nextIndex :=
          if 1 < r.nextIndex m.fromId then
            Function.update r.nextIndex m.fromId (r.nextIndex m.fromId - 1)
          else r.nextIndex
        sentIndex := Function.update r.sentIndex m.fromId 0 }.sendAppendEntries m.fromId 0

/-- `handleInstallSnapshot`. -/
def handleInstallSnapshot (r : Raft) (m : Message) : Option Raft := do
  let first ← r.firstIndex
  if m.term < r.currentTerm then
    return r.send { type := .installSnapshotResponse, toId := m.fromId, matchIndex := first }
  let r := { r.becomeFollower m.term with leaderID := m.fromId }
  if m.snapshot.lastIncludedIndex ≤ first then
    return r.send { type := .installSnapshotResponse, toId := m.fromId, matchIndex := first }
  let r := { r with
    log := [⟨m.snapshot.lastIncludedTerm, m.snapshot.lastIncludedIndex, []⟩]
    commitIndex :=
      if r.commitIndex < m.snapshot.lastIncludedIndex then m.snapshot.lastIncludedIndex
      else r.commitIndex
    unstableIndex := m.snapshot.lastIncludedIndex + 1
    snapshot := m.snapshot
    pendingSnapshotToApply := some m.snapshot }
  return r.send { type := .installSnapshotResponse, toId := m.fromId,
                  matchIndex := m.snapshot.lastIncludedIndex }

/-- `handleInstallSnapshotResponse`. -/
def handleInstallSnapshotResponse (r : Raft) (m : Message) : Option Raft :=
  if r.currentTerm < m.term then some (r.becomeFollower m.term)
  else if m.term < r.currentTerm ∨ r.role ≠ .leader then some r
  else
    { r with
      matchIndex :=
        if r.matchIndex m.fromId < m.matchIndex then
          Function.update r.matchIndex m.fromId m.matchIndex
        else r.matchIndex
      nextIndex :=
        if r.nextIndex m.fromId < m.matchIndex + 1 then
          Function.update r.nextIndex m.fromId (m.matchIndex + 1)
        else r.nextIndex }.maybeAdvanceCommitIndex

/-- `Step`. -/
def step (r : Raft) (m : Message) : Option Raft :=
  if m.toId ≠ r.id then some r
  else match m.type with
    | .preVote => r.handlePreVote m
    | .preVoteResponse => r.handlePreVoteResponse m
    | .requestVote => r.handleRequestVote m
    | .requestVoteResponse => r.handleRequestVoteResponse m
    | .appendEntries => r.handleAppendEntries m
    | .appendEntriesResponse => r.handleAppendEntriesResponse m
    | .installSnapshot => r.handleInstallSnapshot m
    | .installSnapshotResponse => r.handleInstallSnapshotResponse m

/-! ## What the server calls -/

/-- The loop of `ProposeBatch`: the entries are appended one by one, and their indices collected. -/
def appendDatas (r : Raft) : List Bytes → Option (Raft × List ℕ)
  | [] => some (r, [])
  | data :: datas => do
    let last ← r.lastLogIndex
    let entry : LogEntry := ⟨r.currentTerm, last + 1, data⟩
    let (r, indices) ← { r with log := r.log ++ [entry] }.appendDatas datas
    return (r, entry.index :: indices)

/-- `ProposeBatch`. -/
def proposeBatch (r : Raft) (datas : List Bytes) : Option (Raft × Except Error (List ℕ)) :=
  if r.role ≠ .leader then some (r, .error .notLeader)
  else do
    let (r, indices) ← r.appendDatas datas
    let r ← r.broadcast 0
    let r ← if r.peers = [] then r.maybeAdvanceCommitIndex else pure r
    return (r, .ok indices)

/-- `RequestReadIndex`. -/
def requestReadIndex (r : Raft) (ctx : ℕ) : Option (Raft × Except Error Unit) :=
  if r.role ≠ .leader then some (r, .error .notLeader)
  else
    let pr : PendingRead := ⟨r.commitIndex, {r.id}⟩
    if r.hasMajorityCount pr.acked.card then
      some ({ r with
        readStates := r.readStates ++ [⟨r.commitIndex, ctx⟩]
        pendingReads := Function.update r.pendingReads ctx none }, .ok ())
    else do
      let r ← { r with pendingReads := Function.update r.pendingReads ctx (some pr) }.broadcast ctx
      return (r, .ok ())

end Raft

end KvStore
