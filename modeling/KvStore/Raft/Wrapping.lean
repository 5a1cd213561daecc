import KvStore.Raft.Moves
import KvStore.Raft.Outcome

/-!
# The node with `uint64` numbers

`Core.lean` counts with natural numbers. Here are the functions of `raft/raft.go` and of
`raft/node.go` that add or subtract, and those that call them, with sums modulo `2 ^ 64`. The
numbers of a state and of a message are below `2 ^ 64`; a function that does no arithmetic is the
one of `Core.lean`.

* `run`: the effect of a call.
* `Change r op r'`: what a call does to what `Persist` looks at. `run_change`: every call does one
  of these, and terms and votes stay 64-bit numbers.
* `Spans.wrapping_entries` and the lemmas before it: while the indices of the log stay below
  `2 ^ 64 - 1`, the accesses to the log are those of `Core.lean`.
-/

namespace KvStore

open Consensus Machine

namespace Wrapping

/-- `x + y`. -/
def add (x y : ℕ) : ℕ := (x + y) % 2 ^ 64

/-! ## The log -/

/-- `logPos`, as the residue of the signed number that it is. No slice has `2 ^ 63` elements, so a
residue that stands for a negative number is outside every slice, like the number itself. -/
def logPos (r : Raft) (index : ℕ) : Option ℤ := do
  let first ← r.firstIndex
  return ((index : ℤ) - first) % 2 ^ 64

/-- `termAt`. -/
def termAt (r : Raft) (index : ℕ) : Option ℕ := do
  let first ← r.firstIndex
  let last ← r.lastLogIndex
  if index < first ∨ last < index then return 0
  let pos ← logPos r index
  let e ← r.logAt pos
  return e.term

/-- `Entries`. -/
def entries (r : Raft) (start stop : ℕ) : Option (List LogEntry) := do
  let last ← r.lastLogIndex
  let first ← r.firstIndex
  let stop := if last < stop then last else stop
  let start := if start < first then first else start
  if stop ≤ start then return []
  let lo ← logPos r start
  let hi ← logPos r stop
  r.logSlice ((lo + 1) % 2 ^ 64) ((hi + 1) % 2 ^ 64)

/-- `restoreState`. -/
def restoreState (r : Raft) (hs : HardState) (entries : List LogEntry) : Option Raft := do
  let r := { r with
    currentTerm := hs.term
    votedFor := hs.vote
    stableTerm := hs.term
    stableVote := hs.vote
    log := if entries = [] then r.log else entries }
  let first ← r.firstIndex
  let r := { r with commitIndex := if r.commitIndex < first then first else r.commitIndex }
  let last ← r.lastLogIndex
  return { r with unstableIndex := add last 1 }

/-- `Ready`. -/
def ready (r : Raft) : Option Ready := do
  let last ← r.lastLogIndex
  let (unstable, first) ←
    if r.unstableIndex ≤ last then do
      let pos ← logPos r r.unstableIndex
      let es ← r.logFrom pos
      pure (es, r.unstableIndex)
    else pure ([], 0)
  return {
    hardState :=
      if r.currentTerm ≠ r.stableTerm ∨ r.votedFor ≠ r.stableVote then
        some ⟨r.currentTerm, r.votedFor⟩
      else none
    unstableEntries := unstable
    firstUnstableIndex := first
    messages := r.msgs
    readStates := r.readStates
    snapshot :=
      if r.stableSnapshotIndex < r.snapshot.lastIncludedIndex then some r.snapshot else none
    snapshotToApply := r.pendingSnapshotToApply }

/-- `Advance`. -/
def advance (r : Raft) : Option Raft := do
  let last ← r.lastLogIndex
  return { r with
    stableTerm := r.currentTerm
    stableVote := r.votedFor
    unstableIndex := if r.unstableIndex ≤ last then add last 1 else r.unstableIndex
    stableSnapshotIndex := r.snapshot.lastIncludedIndex
    pendingSnapshotToApply := none
    msgs := []
    readStates := [] }

/-- `CreateSnapshot`. -/
def createSnapshot (r : Raft) (index : ℕ) (data : Bytes) : Option (Raft × Except Error Unit) := do
  if r.commitIndex < index then return (r, .error (.notCommitted index r.commitIndex))
  let first ← r.firstIndex
  if index ≤ first then return (r, .error (.notNewer index first))
  let term ← termAt r index
  let pos ← logPos r index
  let rest ← r.logFrom ((pos + 1) % 2 ^ 64)
  return ({ r with
    log := ⟨term, index, []⟩ :: rest
    unstableIndex := if r.unstableIndex ≤ index then add index 1 else r.unstableIndex
    snapshot := ⟨index, term, data⟩ }, .ok ())

/-! ## Sending entries -/

/-- `sendAppendEntries`. -/
def sendAppendEntries (r : Raft) (peer readContext : ℕ) : Option Raft := do
  let first ← r.firstIndex
  if Raft.pred64 (r.nextIndex peer) < first then return r.sendInstallSnapshot peer
  let prevIndex := Raft.pred64 (r.nextIndex peer)
  let prevIndex := if prevIndex < r.sentIndex peer then r.sentIndex peer else prevIndex
  let prevTerm ← termAt r prevIndex
  let last ← r.lastLogIndex
  let es ← entries r prevIndex last
  let r := r.send {
    type := .appendEntries
    toId := peer
    prevLogIndex := prevIndex
    prevLogTerm := prevTerm
    entries := es
    leaderCommit := r.commitIndex
    readContext := readContext }
  return { r with
    sentIndex :=
      if r.sentIndex peer < last then Function.update r.sentIndex peer last else r.sentIndex }

/-- One `sendAppendEntries` to every peer, in order. -/
def broadcast (r : Raft) (readContext : ℕ) : Option Raft :=
  r.peers.foldlM (fun r p => sendAppendEntries r p readContext) r

/-- The loop of `maybeAdvanceCommitIndex`, from index `n` down to the commit index. -/
def advanceCommitFrom (r : Raft) : ℕ → Option Raft
  | 0 => some r
  | n + 1 =>
    if n + 1 ≤ r.commitIndex then some r
    else do
      let t ← termAt r (n + 1)
      if t = r.currentTerm ∧ r.hasMajorityCount (r.matchCount (n + 1)) then
        return { r with commitIndex := n + 1 }
      else advanceCommitFrom r n

/-- `maybeAdvanceCommitIndex`. -/
def maybeAdvanceCommitIndex (r : Raft) : Option Raft := do
  let last ← r.lastLogIndex
  advanceCommitFrom r last

/-! ## Roles -/

/-- `becomeLeader`. -/
def becomeLeader (r : Raft) : Option Raft := do
  let last ← r.lastLogIndex
  let r := { r with
    role := .leader
    leaderID := r.id
    nextIndex := fun p => if p ∈ r.peers then add last 1 else 0
    matchIndex := fun _ => 0
    sentIndex := fun _ => 0
    pendingReads := fun _ => none
    heartbeatElapsed := 0 }
  let r ← broadcast r 0
  if r.peers = [] then maybeAdvanceCommitIndex r else return r

/-- `becomeCandidate`. -/
def becomeCandidate (r : Raft) : Option Raft :=
  let r := { r with
    currentTerm := add r.currentTerm 1
    role := .candidate
    votedFor := r.id
    leaderID := 0
    votesReceived := {r.id} }.resetElectionTimeout
  if r.peers = [] then becomeLeader r
  else r.peers.foldlM (fun r p => r.sendVoteRequest .requestVote p) r

/-- `becomePreCandidate`. -/
def becomePreCandidate (r : Raft) : Option Raft :=
  let r := { r with
    role := .preCandidate
    leaderID := 0
    preVotesReceived := {r.id} }.resetElectionTimeout
  if r.peers = [] then becomeCandidate r
  else r.peers.foldlM (fun r p => r.sendVoteRequest .preVote p) r

/-- `Tick`. -/
def tick (r : Raft) : Option Raft :=
  if r.role = .leader then
    let r := { r with heartbeatElapsed := r.heartbeatElapsed + 1 }
    if r.heartbeatTick ≤ r.heartbeatElapsed then broadcast { r with heartbeatElapsed := 0 } 0
    else some r
  else
    let r := { r with electionElapsed := r.electionElapsed + 1 }
    if r.randomizedElectionTimeout ≤ r.electionElapsed then becomePreCandidate r else some r

/-! ## Messages -/

/-- `handlePreVote`. -/
def handlePreVote (r : Raft) (m : Message) : Option Raft :=
  let prospectiveTerm := add m.term 1
  if prospectiveTerm < r.currentTerm then
    some (r.send { type := .preVoteResponse, toId := m.fromId, voteGranted := false })
  else do
    let logOK ← r.logOK m
    let canVote := r.votedFor = 0 ∨ r.votedFor = m.fromId ∨ r.currentTerm < prospectiveTerm
    return r.send { type := .preVoteResponse, toId := m.fromId, voteGranted := canVote ∧ logOK }

/-- `handlePreVoteResponse`. -/
def handlePreVoteResponse (r : Raft) (m : Message) : Option Raft :=
  if r.role ≠ .preCandidate then some r
  else if !m.voteGranted then some r
  else
    let r := { r with preVotesReceived := insert m.fromId r.preVotesReceived }
    if r.hasMajorityCount r.preVotesReceived.card then becomeCandidate r else some r

/-- `handleRequestVoteResponse`. -/
def handleRequestVoteResponse (r : Raft) (m : Message) : Option Raft :=
  if r.currentTerm < m.term then some (r.becomeFollower m.term)
  else if m.term < r.currentTerm ∨ r.role ≠ .candidate then some r
  else if !m.voteGranted then some r
  else
    let r := { r with votesReceived := insert m.fromId r.votesReceived }
    if r.hasMajorityCount r.votesReceived.card then becomeLeader r else some r

/-- The loop of `handleAppendEntries`. -/
def mergeEntries (r : Raft) (idx : ℕ) : List LogEntry → Option Raft
  | [] => some r
  | e :: es => do
    let last ← r.lastLogIndex
    let term ← termAt r idx
    let r ←
      if idx ≤ last ∧ term ≠ e.term then do
        let pos ← logPos r idx
        let log ← r.logTo pos
        pure { r with
          log := log
          unstableIndex := if idx < r.unstableIndex then idx else r.unstableIndex }
      else pure r
    let last ← r.lastLogIndex
    let r := if last < idx then { r with log := r.log ++ [e] } else r
    mergeEntries r (add idx 1) es

/-- `handleAppendEntries`. -/
def handleAppendEntries (r : Raft) (m : Message) : Option Raft :=
  if m.term < r.currentTerm then
    some (r.send { type := .appendEntriesResponse, toId := m.fromId, success := false })
  else do
    let r := { r.becomeFollower m.term with leaderID := m.fromId }
    let reply : Message :=
      { type := .appendEntriesResponse, toId := m.fromId, readContext := m.readContext }
    let last ← r.lastLogIndex
    let prevTerm ← termAt r m.prevLogIndex
    if last < m.prevLogIndex ∨ prevTerm ≠ m.prevLogTerm then return r.send reply
    let r ← mergeEntries r (add m.prevLogIndex 1) m.entries
    let last ← r.lastLogIndex
    let r := { r with
      commitIndex :=
        if r.commitIndex < m.leaderCommit then min m.leaderCommit last else r.commitIndex }
    return r.send { reply with success := true, matchIndex := add m.prevLogIndex m.entries.length }

/-- `handleAppendEntriesResponse`. -/
def handleAppendEntriesResponse (r : Raft) (m : Message) : Option Raft :=
  if r.currentTerm < m.term then some (r.becomeFollower m.term)
  else if m.term < r.currentTerm ∨ r.role ≠ .leader then some r
  else
    let r := if m.readContext ≠ 0 then r.ackReadIndex m.readContext m.fromId else r
    if m.success then
      maybeAdvanceCommitIndex { r with
        matchIndex :=
          if r.matchIndex m.fromId < m.matchIndex then
            Function.update r.matchIndex m.fromId m.matchIndex
          else r.matchIndex
        nextIndex := Function.update r.nextIndex m.fromId (add m.matchIndex 1) }
    else
      sendAppendEntries { r with
        nextIndex :=
          if 1 < r.nextIndex m.fromId then
            Function.update r.nextIndex m.fromId (r.nextIndex m.fromId - 1)
          else r.nextIndex
        sentIndex := Function.update r.sentIndex m.fromId 0 } m.fromId 0

/-- `handleInstallSnapshot`. -/
def handleInstallSnapshot (r : Raft) (m : Message) : Option Raft := do
  let first ← r.firstIndex
  if m.term < r.currentTerm then
    return r.send { type := .installSnapshotResponse, toId := m.fromId, matchIndex := first }
  let r := { r.becomeFollower m.term with leaderID := m.fromId }
  if m.snapshot.lastIncludedIndex ≤ first then
    return r.send { type := .installSnapshotResponse, toId := m.fromId, matchIndex := first }
  let r := { r with
    log := [⟨m.snapshot.lastIncludedTerm, m.snapshot.lastIncludedIndex, []⟩]
    commitIndex :=
      if r.commitIndex < m.snapshot.lastIncludedIndex then m.snapshot.lastIncludedIndex
      else r.commitIndex
    unstableIndex := add m.snapshot.lastIncludedIndex 1
    snapshot := m.snapshot
    pendingSnapshotToApply := some m.snapshot }
  return r.send { type := .installSnapshotResponse, toId := m.fromId,
                  matchIndex := m.snapshot.lastIncludedIndex }

/-- `handleInstallSnapshotResponse`. -/
def handleInstallSnapshotResponse (r : Raft) (m : Message) : Option Raft :=
  if r.currentTerm < m.term then some (r.becomeFollower m.term)
  else if m.term < r.currentTerm ∨ r.role ≠ .leader then some r
  else
    maybeAdvanceCommitIndex { r with
      matchIndex :=
        if r.matchIndex m.fromId < m.matchIndex then
          Function.update r.matchIndex m.fromId m.matchIndex
        else r.matchIndex
      nextIndex :=
        if r.nextIndex m.fromId < add m.matchIndex 1 then
          Function.update r.nextIndex m.fromId (add m.matchIndex 1)
        else r.nextIndex }

/-- `Step`. -/
def step (r : Raft) (m : Message) : Option Raft :=
  if m.toId ≠ r.id then some r
  else match m.type with
    | .preVote => handlePreVote r m
    | .preVoteResponse => handlePreVoteResponse r m
    | .requestVote => r.handleRequestVote m
    | .requestVoteResponse => handleRequestVoteResponse r m
    | .appendEntries => handleAppendEntries r m
    | .appendEntriesResponse => handleAppendEntriesResponse r m
    | .installSnapshot => handleInstallSnapshot r m
    | .installSnapshotResponse => handleInstallSnapshotResponse r m

/-! ## What the server calls -/

/-- The loop of `ProposeBatch`. -/
def appendDatas (r : Raft) : List Bytes → Option (Raft × List ℕ)
  | [] => some (r, [])
  | data :: datas => do
    let last ← r.lastLogIndex
    let entry : LogEntry := ⟨r.currentTerm, add last 1, data⟩
    let (r, indices) ← appendDatas { r with log := r.log ++ [entry] } datas
    return (r, entry.index :: indices)

/-- `ProposeBatch`. -/
def proposeBatch (r : Raft) (datas : List Bytes) : Option (Raft × Except Error (List ℕ)) :=
  if r.role ≠ .leader then some (r, .error .notLeader)
  else do
    let (r, indices) ← appendDatas r datas
    let r ← broadcast r 0
    let r ← if r.peers = [] then maybeAdvanceCommitIndex r else pure r
    return (r, .ok indices)

/-- `RequestReadIndex`. -/
def requestReadIndex (r : Raft) (ctx : ℕ) : Option (Raft × Except Error Unit) :=
  if r.role ≠ .leader then some (r, .error .notLeader)
  else
    let pr : PendingRead := ⟨r.commitIndex, {r.id}⟩
    if r.hasMajorityCount pr.acked.card then
      some ({ r with
        readStates := r.readStates ++ [⟨r.commitIndex, ctx⟩]
        pendingReads := Function.update r.pendingReads ctx none }, .ok ())
    else do
      let r ← broadcast { r with pendingReads := Function.update r.pendingReads ctx (some pr) } ctx
      return (r, .ok ())

/-- The call's effect on the state machine; `none` is a panic. -/
def run (op : Op) (r : Raft) : Option Raft :=
  match op with
  | .tick => tick r
  | .step m => step r m
  | .propose datas => (proposeBatch r datas).map Prod.fst
  | .readIndex ctx => (requestReadIndex r ctx).map Prod.fst
  | .createSnapshot index data => (createSnapshot r index data).map Prod.fst

/-- `OpenNode`. -/
def openNode (cfg : Config) (storage : List Record) :
    Except Error (Option (Node × Option Snapshot)) := do
  let (hs, log, snap) := openStorage storage
  let r ← Raft.new cfg
  return do
    let r ← restoreState r hs log
    if 0 < snap.lastIncludedIndex then
      return (⟨{ r with snapshot := snap, stableSnapshotIndex := snap.lastIncludedIndex }, storage⟩,
        some snap)
    else return (⟨r, storage⟩, none)

/-- The save of a `Persist`. -/
def save (r : Raft) (rd : Ready) : Option Save :=
  match rd.snapshot with
  | some snap => do
    let last ← r.lastLogIndex
    let surviving ← entries r snap.lastIncludedIndex last
    return .replace (saveSnapshot ⟨r.currentTerm, r.votedFor⟩ snap surviving)
  | none =>
    let hs := match rd.hardState with
      | some hs => saveHardState hs
      | none => []
    some (.append (hs ++ saveEntries rd.firstUnstableIndex rd.unstableEntries))

end Wrapping

/-! ## What a call does -/

/-- What a node takes over from a message has 64 bits. -/
def Op.Uint64 : Op → Prop
  | .step m => m.term < 2 ^ 64 ∧ m.fromId < 2 ^ 64 ∧ (∀ e ∈ m.entries, e.term < 2 ^ 64) ∧
      m.snapshot.lastIncludedTerm < 2 ^ 64
  | _ => True

instance : DecidablePred Op.Uint64
  | .step _ => inferInstanceAs (Decidable (_ ∧ _))
  | .tick | .propose _ | .readIndex _ | .createSnapshot _ _ => .isTrue trivial

/-- The node's id, its term and its vote have 64 bits. -/
def Raft.Uint64 (r : Raft) : Prop := r.id < 2 ^ 64 ∧ r.currentTerm < 2 ^ 64 ∧ r.votedFor < 2 ^ 64

namespace Wrapping

variable {r r' r'' : Raft} {m : Message} {op : Op}

/-- The log and what is known to be saved are left alone. -/
structure Kept (r r' : Raft) : Prop where
  durable : r'.durable = r.durable
  uint64 : r.Uint64 → r'.Uint64

/-- What a call can do to what `Persist` looks at. -/
inductive Change (r : Raft) : Op → Raft → Prop
  | kept {op : Op} {r' : Raft} (h : Kept r r') : Change r op r'
  | merged {m : Message} {r₁ r₂ r' : Raft} {last : ℕ} (type : m.type = .appendEntries)
      (start : Kept r r₁) (lastLogIndex : r₁.lastLogIndex = some last)
      (prev : m.prevLogIndex ≤ last)
      (run : mergeEntries r₁ (add m.prevLogIndex 1) m.entries = some r₂) (finish : Kept r₂ r') :
      Change r (.step m) r'
  | installed {m : Message} {r' : Raft} {first : ℕ} (type : m.type = .installSnapshot)
      (firstIndex : r.firstIndex = some first) (lt : first < m.snapshot.lastIncludedIndex)
      (durable : r'.durable =
        ([⟨m.snapshot.lastIncludedTerm, m.snapshot.lastIncludedIndex, []⟩], m.snapshot,
          add m.snapshot.lastIncludedIndex 1, r.stableTerm, r.stableVote, r.stableSnapshotIndex))
      (uint64 : r.Uint64 → r'.Uint64) : Change r (.step m) r'
  | proposed {datas : List Bytes} {r₁ r' : Raft} {indices : List ℕ} (role : r.role = .leader)
      (run : appendDatas r datas = some (r₁, indices)) (finish : Kept r₁ r') :
      Change r (.propose datas) r'
  | compacted {index : ℕ} {data : Bytes} {r' : Raft}
      (run : createSnapshot r index data = some (r', .ok ())) :
      Change r (.createSnapshot index data) r'

namespace Kept

theorem refl (r : Raft) : Kept r r := ⟨rfl, id⟩

theorem trans (h : Kept r r') (h' : Kept r' r'') : Kept r r'' :=
  ⟨h'.durable.trans h.durable, h'.uint64 ∘ h.uint64⟩

theorem of_some (hr : some r' = some r'') (h : Kept r r') : Kept r r'' := Option.some.inj hr ▸ h

/-- A part of the call that changes nothing of this comes first. -/
theorem after {r₁ : Raft} (h : Kept r₁ r') (hd : r₁.durable = r.durable)
    (hr : r.Uint64 → r₁.Uint64) : Kept r r' := trans ⟨hd, hr⟩ h

theorem send (h : Kept r r') (x : Message) : Kept r (r'.send x) := h.trans ⟨rfl, id⟩

theorem becomeFollower {t : ℕ} (ht : t < 2 ^ 64) : Kept r (r.becomeFollower t) := by
  unfold Raft.becomeFollower
  split_ifs
  · exact ⟨rfl, fun h => ⟨h.1, ht, Nat.two_pow_pos 64⟩⟩
  · exact ⟨rfl, id⟩

theorem sendAppendEntries {p ctx : ℕ} (h : Wrapping.sendAppendEntries r p ctx = some r') :
    Kept r r' := by
  simp only [Wrapping.sendAppendEntries, Option.bind_eq_bind, Option.bind_eq_some_iff, pure] at h
  obtain ⟨first, -, h⟩ := h
  split_ifs at h
  · exact of_some h ⟨rfl, id⟩
  all_goals
    simp only [Option.bind_eq_some_iff] at h
    obtain ⟨prevTerm, -, last, -, es, -, h⟩ := h
    exact of_some h ⟨rfl, id⟩

theorem broadcast {ctx : ℕ} (h : Wrapping.broadcast r ctx = some r') : Kept r r' :=
  foldlM_induct (I := fun r₁ : Raft => Kept r r₁)
    (fun _ h₁ _ _ h₂ => h₁.trans (sendAppendEntries h₂)) (refl r) h

theorem advanceCommitFrom {k : ℕ} (h : Wrapping.advanceCommitFrom r k = some r') : Kept r r' := by
  induction k with
  | zero => exact of_some h (refl r)
  | succ k ih =>
    rw [Wrapping.advanceCommitFrom] at h
    split_ifs at h
    · exact of_some h (refl r)
    · obtain ⟨t, -, h⟩ := Option.bind_eq_some_iff.mp h
      split_ifs at h
      · exact of_some h ⟨rfl, id⟩
      · exact ih h

theorem maybeAdvanceCommitIndex (h : Wrapping.maybeAdvanceCommitIndex r = some r') : Kept r r' := by
  obtain ⟨last, -, h⟩ := Option.bind_eq_some_iff.mp h
  exact advanceCommitFrom h

theorem asks {type : MessageType} {ps : List ℕ}
    (h : ps.foldlM (fun r p => r.sendVoteRequest type p) r = some r') : Kept r r' := by
  obtain ⟨ms, rfl, -⟩ := Raft.sendVoteRequests_eq h
  exact ⟨rfl, id⟩

theorem becomeLeader (h : Wrapping.becomeLeader r = some r') : Kept r r' := by
  obtain ⟨last, -, h⟩ := Option.bind_eq_some_iff.mp h
  obtain ⟨r₁, h₁, h⟩ := Option.bind_eq_some_iff.mp h
  have hround : Kept r r₁ := (broadcast h₁).after rfl id
  split_ifs at h
  · exact hround.trans (maybeAdvanceCommitIndex h)
  · exact of_some h hround

/-- The new term is a sum that may wrap around; the vote is the node's own. -/
theorem becomeCandidate (h : Wrapping.becomeCandidate r = some r') : Kept r r' := by
  have hnew : r.Uint64 → r.id < 2 ^ 64 ∧ add r.currentTerm 1 < 2 ^ 64 ∧ r.id < 2 ^ 64 :=
    fun h => ⟨h.1, Nat.mod_lt _ (by decide), h.1⟩
  unfold Wrapping.becomeCandidate at h
  dsimp only at h
  split_ifs at h
  · exact (becomeLeader h).after rfl hnew
  · exact (asks h).after rfl hnew

theorem tick (h : Wrapping.tick r = some r') : Kept r r' := by
  unfold Wrapping.tick Wrapping.becomePreCandidate at h
  dsimp only at h
  split_ifs at h
  · exact (broadcast h).after rfl id
  · exact of_some h ⟨rfl, id⟩
  · exact (becomeCandidate h).after rfl id
  · exact (asks h).after rfl id
  · exact of_some h ⟨rfl, id⟩

theorem handlePreVote (h : Wrapping.handlePreVote r m = some r') : Kept r r' := by
  unfold Wrapping.handlePreVote at h
  dsimp only at h
  split_ifs at h
  · exact of_some h ((refl r).send _)
  · obtain ⟨ok, -, h⟩ := Option.bind_eq_some_iff.mp h
    exact of_some h ((refl r).send _)

theorem handlePreVoteResponse (h : Wrapping.handlePreVoteResponse r m = some r') : Kept r r' := by
  unfold Wrapping.handlePreVoteResponse at h
  dsimp only at h
  split_ifs at h
  · exact of_some h (refl r)
  · exact of_some h (refl r)
  · exact (becomeCandidate h).after rfl id
  · exact of_some h ⟨rfl, id⟩

theorem handleRequestVote (hterm : m.term < 2 ^ 64) (hsrc : m.fromId < 2 ^ 64)
    (h : r.handleRequestVote m = some r') : Kept r r' := by
  unfold Raft.handleRequestVote at h
  dsimp only at h
  have hstart : Kept r (if r.currentTerm < m.term then r.becomeFollower m.term else r) := by
    split_ifs
    · exact becomeFollower hterm
    · exact refl r
  generalize (if r.currentTerm < m.term then r.becomeFollower m.term else r) = r₁ at h hstart
  by_cases hlt : m.term < r₁.currentTerm
  · rw [if_pos hlt] at h
    exact of_some h (hstart.send _)
  · rw [if_neg hlt] at h
    obtain ⟨ok, -, h⟩ := Option.bind_eq_some_iff.mp h
    refine of_some h (send (hstart.trans ?_) _)
    split_ifs
    · exact ⟨rfl, fun h => ⟨h.1, h.2.1, hsrc⟩⟩
    · exact refl r₁

theorem handleRequestVoteResponse (hterm : m.term < 2 ^ 64)
    (h : Wrapping.handleRequestVoteResponse r m = some r') : Kept r r' := by
  unfold Wrapping.handleRequestVoteResponse at h
  dsimp only at h
  split_ifs at h
  · exact of_some h (becomeFollower hterm)
  · exact of_some h (refl r)
  · exact of_some h (refl r)
  · exact (becomeLeader h).after rfl id
  · exact of_some h ⟨rfl, id⟩

theorem handleAppendEntriesResponse (hterm : m.term < 2 ^ 64)
    (h : Wrapping.handleAppendEntriesResponse r m = some r') : Kept r r' := by
  unfold Wrapping.handleAppendEntriesResponse at h
  dsimp only at h
  rcases Raft.response_cases h with ⟨-, rfl⟩ | rfl | ⟨-, -, h⟩
  · exact becomeFollower hterm
  · exact refl _
  have hack : Kept r (if m.readContext ≠ 0 then r.ackReadIndex m.readContext m.fromId else r) := by
    split_ifs
    · rw [r.ackReadIndex_eq]
      exact ⟨rfl, id⟩
    · exact refl r
  generalize (if m.readContext ≠ 0 then r.ackReadIndex m.readContext m.fromId else r) = r₁
    at h hack
  by_cases hs : m.success = true
  · rw [if_pos hs] at h
    exact hack.trans ((maybeAdvanceCommitIndex h).after rfl id)
  · rw [if_neg hs] at h
    exact hack.trans ((sendAppendEntries h).after rfl id)

theorem handleInstallSnapshotResponse (hterm : m.term < 2 ^ 64)
    (h : Wrapping.handleInstallSnapshotResponse r m = some r') : Kept r r' := by
  unfold Wrapping.handleInstallSnapshotResponse at h
  rcases Raft.response_cases h with ⟨-, rfl⟩ | rfl | ⟨-, -, h⟩
  · exact becomeFollower hterm
  · exact refl _
  · exact (maybeAdvanceCommitIndex h).after rfl id

theorem requestReadIndex {ctx : ℕ} {res : Except Error Unit}
    (h : Wrapping.requestReadIndex r ctx = some (r', res)) : Kept r r' := by
  unfold Wrapping.requestReadIndex at h
  dsimp only at h
  split_ifs at h
  · obtain ⟨rfl, -⟩ := Prod.mk.inj (Option.some.inj h)
    exact refl _
  · obtain ⟨rfl, -⟩ := Prod.mk.inj (Option.some.inj h)
    exact ⟨rfl, id⟩
  · obtain ⟨r₁, h₁, h⟩ := Option.bind_eq_some_iff.mp h
    obtain ⟨rfl, -⟩ := Prod.mk.inj (Option.some.inj h)
    exact (broadcast h₁).after rfl id

end Kept

namespace Change

theorem handleAppendEntries (hty : m.type = .appendEntries) (hterm : m.term < 2 ^ 64)
    (h : Wrapping.handleAppendEntries r m = some r') : Change r (.step m) r' := by
  unfold Wrapping.handleAppendEntries at h
  by_cases hlt : m.term < r.currentTerm
  · rw [if_pos hlt] at h
    exact .kept (.of_some h ((Kept.refl r).send _))
  have hstart : Kept r { r.becomeFollower m.term with leaderID := m.fromId } :=
    (Kept.becomeFollower hterm).trans ⟨rfl, id⟩
  simp only [if_neg hlt, Option.bind_eq_bind, Option.bind_eq_some_iff, pure] at h
  obtain ⟨last, hlast, prevTerm, -, h⟩ := h
  by_cases hno : last < m.prevLogIndex ∨ prevTerm ≠ m.prevLogTerm
  · rw [if_pos hno] at h
    exact .kept (.of_some h (hstart.send _))
  · rw [if_neg hno] at h
    simp only [Option.bind_eq_some_iff] at h
    obtain ⟨r₂, h₂, last', -, h⟩ := h
    rw [not_or, not_lt] at hno
    exact .merged hty hstart hlast hno.1 h₂ (.of_some h ⟨rfl, id⟩)

theorem handleInstallSnapshot (hty : m.type = .installSnapshot) (hterm : m.term < 2 ^ 64)
    (h : Wrapping.handleInstallSnapshot r m = some r') : Change r (.step m) r' := by
  simp only [Wrapping.handleInstallSnapshot, Option.bind_eq_bind, Option.bind_eq_some_iff, pure]
    at h
  obtain ⟨first, hfirst, h⟩ := h
  have hstart : Kept r (r.becomeFollower m.term) := Kept.becomeFollower hterm
  by_cases hlt : m.term < r.currentTerm
  · rw [if_pos hlt] at h
    exact .kept (.of_some h ((Kept.refl r).send _))
  rw [if_neg hlt] at h
  by_cases hold : m.snapshot.lastIncludedIndex ≤ first
  · rw [if_pos hold] at h
    exact .kept (.of_some h (hstart.trans ⟨rfl, id⟩))
  · rw [if_neg hold] at h
    obtain rfl := Option.some.inj h
    refine .installed hty hfirst (not_le.mp hold) ?_ hstart.uint64
    have hd := congrArg (fun p => p.2.2.2) hstart.durable
    exact congrArg (fun p => (_, _, _, p)) hd

theorem step (hop : Op.Uint64 (.step m)) (h : Wrapping.step r m = some r') :
    Change r (.step m) r' := by
  unfold Wrapping.step at h
  obtain ⟨hterm, hsrc, -⟩ := hop
  split_ifs at h
  · exact .kept (.of_some h (Kept.refl r))
  cases hty : m.type with
  | preVote => rw [hty] at h; exact .kept (.handlePreVote h)
  | preVoteResponse => rw [hty] at h; exact .kept (.handlePreVoteResponse h)
  | requestVote => rw [hty] at h; exact .kept (.handleRequestVote hterm hsrc h)
  | requestVoteResponse => rw [hty] at h; exact .kept (.handleRequestVoteResponse hterm h)
  | appendEntries => rw [hty] at h; exact handleAppendEntries hty hterm h
  | appendEntriesResponse => rw [hty] at h; exact .kept (.handleAppendEntriesResponse hterm h)
  | installSnapshot => rw [hty] at h; exact handleInstallSnapshot hty hterm h
  | installSnapshotResponse => rw [hty] at h; exact .kept (.handleInstallSnapshotResponse hterm h)

theorem proposeBatch {datas : List Bytes} {res : Except Error (List ℕ)}
    (h : Wrapping.proposeBatch r datas = some (r', res)) : Change r (.propose datas) r' := by
  unfold Wrapping.proposeBatch at h
  by_cases hl : r.role ≠ .leader
  · rw [if_pos hl] at h
    obtain ⟨rfl, -⟩ := Prod.mk.inj (Option.some.inj h)
    exact .kept (Kept.refl _)
  rw [if_neg hl] at h
  obtain ⟨⟨r₁, is⟩, h₁, h⟩ := Option.bind_eq_some_iff.mp h
  obtain ⟨r₂, h₂, h⟩ := Option.bind_eq_some_iff.mp h
  refine .proposed (not_not.mp hl) h₁ ((Kept.broadcast h₂).trans ?_)
  split_ifs at h
  · obtain ⟨r₃, h₃, h⟩ := Option.bind_eq_some_iff.mp h
    obtain ⟨rfl, -⟩ := Prod.mk.inj (Option.some.inj h)
    exact .maybeAdvanceCommitIndex h₃
  · obtain ⟨rfl, -⟩ := Prod.mk.inj (Option.some.inj h)
    exact Kept.refl _

theorem createSnapshot {index : ℕ} {data : Bytes} {res : Except Error Unit}
    (h : Wrapping.createSnapshot r index data = some (r', res)) :
    Change r (.createSnapshot index data) r' := by
  have h' := h
  simp only [Wrapping.createSnapshot, Option.bind_eq_bind, pure] at h
  by_cases h1 : r.commitIndex < index
  · rw [if_pos h1] at h
    obtain ⟨rfl, -⟩ := Prod.mk.inj (Option.some.inj h)
    exact .kept (Kept.refl _)
  rw [if_neg h1] at h
  obtain ⟨first, -, h⟩ := Option.bind_eq_some_iff.mp h
  by_cases h2 : index ≤ first
  · rw [if_pos h2] at h
    obtain ⟨rfl, -⟩ := Prod.mk.inj (Option.some.inj h)
    exact .kept (Kept.refl _)
  rw [if_neg h2] at h
  simp only [Option.bind_eq_some_iff] at h
  obtain ⟨term, -, pos, -, rest, -, h⟩ := h
  obtain ⟨-, rfl⟩ := Prod.mk.inj (Option.some.inj h)
  exact .compacted h'

end Change

/-- **What a call does to what `Persist` looks at.** -/
theorem run_change (hop : op.Uint64) (h : run op r = some r') : Change r op r' := by
  cases op with
  | tick => exact .kept (.tick h)
  | step m => exact .step hop h
  | propose datas =>
    obtain ⟨⟨r₁, res⟩, h', rfl⟩ := Option.map_eq_some_iff.mp h
    exact .proposeBatch h'
  | readIndex ctx =>
    obtain ⟨⟨r₁, res⟩, h', rfl⟩ := Option.map_eq_some_iff.mp h
    exact .kept (.requestReadIndex h')
  | createSnapshot index data =>
    obtain ⟨⟨r₁, res⟩, h', rfl⟩ := Option.map_eq_some_iff.mp h
    exact .createSnapshot h'

/-! ## Without wrapping -/

theorem add_of_lt {x y : ℕ} (h : x + y < 2 ^ 64) : add x y = x + y := Nat.mod_eq_of_lt h

end Wrapping

namespace Spans

variable {r : Raft} {l : List LogEntry} {b : ℕ}

/-- An index at or above the boundary. -/
theorem wrapping_logPos (h : Spans r l b) {i : ℕ} (hb : b ≤ i) (hi : i < 2 ^ 64) :
    Wrapping.logPos r i = some ((i : ℤ) - b) := by
  simp only [Wrapping.logPos, h.firstIndex, Option.bind_eq_bind, Option.bind_some, pure]
  rw [Int.emod_eq_of_lt (by omega) (by omega)]

theorem wrapping_termAt (h : Spans r l b) (hl : l.length < 2 ^ 64) (i : ℕ) :
    Wrapping.termAt r i = r.termAt i := by
  simp only [Wrapping.termAt, Raft.termAt, h.firstIndex, h.lastLogIndex, Option.bind_eq_bind,
    Option.bind_some]
  split_ifs with hin
  · rfl
  · rw [h.logPos, h.wrapping_logPos (by omega) (by omega)]

theorem wrapping_entries (h : Spans r l b) (hl : l.length + 1 < 2 ^ 64) (start stop : ℕ) :
    Wrapping.entries r start stop = r.entries start stop := by
  have hstart : b ≤ if start < b then b else start := by split_ifs <;> omega
  have hstop : (if l.length < stop then l.length else stop) ≤ l.length := by split_ifs <;> omega
  simp only [Wrapping.entries, Raft.entries, h.firstIndex, h.lastLogIndex, Option.bind_eq_bind,
    Option.bind_some]
  generalize (if l.length < stop then l.length else stop) = hi at hstop ⊢
  generalize (if start < b then b else start) = lo at hstart ⊢
  split_ifs with hle
  · rfl
  · rw [h.logPos, h.logPos, h.wrapping_logPos hstart (by omega),
      h.wrapping_logPos (by omega) (by omega)]
    simp only [Option.bind_some]
    rw [Int.emod_eq_of_lt (by omega) (by omega), Int.emod_eq_of_lt (by omega) (by omega)]

/-- The log is not cut below its sentinel: the wrapped position is beyond its end. -/
theorem wrapping_logTo_nil (h : Spans r l b) (hl : l.length + 1 < 2 ^ 64) {i : ℕ} (hi : 0 < i)
    (hb : i ≤ b) {pos : ℤ} {log : List LogEntry} (hpos : Wrapping.logPos r i = some pos)
    (hlog : r.logTo pos = some log) : log = [] := by
  have hlen : r.log.length = l.length - b + 1 := by rw [h.log_eq, window_length]
  have hle := h.le
  simp only [Wrapping.logPos, h.firstIndex, Option.bind_eq_bind, Option.bind_some, pure,
    Option.some.injEq] at hpos
  unfold Raft.logTo Raft.logSlice at hlog
  split_ifs at hlog with hin
  have hzero : pos.toNat = 0 := by omega
  rw [← Option.some.inj hlog, hzero, List.take_zero, List.drop_nil]

theorem wrapping_createSnapshot (h : Spans r l b) (hl : l.length < 2 ^ 64) {index : ℕ}
    (hi : index + 1 < 2 ^ 64) (data : Bytes) :
    Wrapping.createSnapshot r index data = r.createSnapshot index data := by
  simp only [Wrapping.createSnapshot, Raft.createSnapshot, h.firstIndex, h.wrapping_termAt hl,
    Option.bind_eq_bind, Option.bind_some, Wrapping.add_of_lt hi]
  split_ifs with hc hb
  · rfl
  · rfl
  all_goals
    rw [h.logPos, h.wrapping_logPos (by omega) (by omega)]
    simp only [Option.bind_some]
    rw [Int.emod_eq_of_lt (by omega) (by omega)]

theorem wrapping_appendDatas {datas : List Bytes} :
    ∀ {r : Raft} {l : List LogEntry}, Spans r l b → l.length + datas.length + 1 < 2 ^ 64 →
      Wrapping.appendDatas r datas = r.appendDatas datas := by
  induction datas with
  | nil => exact fun _ _ => rfl
  | cons d ds ih =>
    intro r l h hl
    rw [List.length_cons] at hl
    have hi : Indexed (l ++ [⟨r.currentTerm, l.length + 1, d⟩]) :=
      h.indexed.concat (by rw [Nat.zero_add])
    have hnext : Spans { r with log := r.log ++ [⟨r.currentTerm, l.length + 1, d⟩] } _ b :=
      h.append hi rfl
    simp only [Wrapping.appendDatas, Raft.appendDatas, h.lastLogIndex, Option.bind_eq_bind,
      Option.bind_some, Wrapping.add_of_lt (show l.length + 1 < 2 ^ 64 by omega)]
    rw [ih hnext (by simp; omega)]

end Spans

end KvStore
