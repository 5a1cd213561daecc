import Mathlib

/-!
# The data of `raft/message.go` and `raft/raft.go`

The types a Raft node reads and writes, field by field. Terms, indices and node ids are `uint64`
in the source and natural numbers here. The functions of `Core.lean` add without wrapping around;
the one subtraction that can go below zero, `logPos`, is an integer there. `Wrapping.lean` has the
same functions with arithmetic modulo `2 ^ 64`, for what a node saves.

* A Go map read with a missing key gives the zero value, so the per-peer maps are functions into
  `ℕ` that start at `0`; a `map[uint64]bool` that only ever gets `true` and is only counted is a
  `Finset`; `pendingReads`, whose missing keys matter, is a function into `Option`.
* `rnd` is the stream of `rnd.Intn` results still to come.
* `Raft.lastApplied` is left out: no function of the package reads or writes it.
-/

namespace KvStore

/-- `[]byte`; a nil slice is the empty one. -/
abbrev Bytes := List UInt8

/-- `Role`. -/
inductive Role
  | follower
  | preCandidate
  | candidate
  | leader
  deriving DecidableEq, Repr

/-- `LogEntry`. -/
structure LogEntry where
  term : ℕ
  index : ℕ
  data : Bytes
  deriving DecidableEq, Repr

/-- `Snapshot`. -/
structure Snapshot where
  lastIncludedIndex : ℕ := 0
  lastIncludedTerm : ℕ := 0
  data : Bytes := []
  deriving DecidableEq, Repr

/-- `MessageType`. -/
inductive MessageType
  | preVote
  | preVoteResponse
  | requestVote
  | requestVoteResponse
  | appendEntries
  | appendEntriesResponse
  | installSnapshot
  | installSnapshotResponse
  deriving DecidableEq, Repr

/-- `Message`. Fields a type does not use keep their zero value. -/
structure Message where
  type : MessageType
  fromId : ℕ := 0
  toId : ℕ
  term : ℕ := 0
  lastLogIndex : ℕ := 0
  lastLogTerm : ℕ := 0
  voteGranted : Bool := false
  prevLogIndex : ℕ := 0
  prevLogTerm : ℕ := 0
  entries : List LogEntry := []
  leaderCommit : ℕ := 0
  success : Bool := false
  matchIndex : ℕ := 0
  readContext : ℕ := 0
  snapshot : Snapshot := {}
  deriving DecidableEq, Repr

/-- `ReadState`. -/
structure ReadState where
  index : ℕ
  context : ℕ
  deriving DecidableEq, Repr

/-- `HardState`. -/
structure HardState where
  term : ℕ := 0
  vote : ℕ := 0
  deriving DecidableEq, Repr

/-- `pendingRead`. -/
structure PendingRead where
  index : ℕ
  acked : Finset ℕ
  deriving DecidableEq

/-- `Config`. -/
structure Config where
  id : ℕ
  peers : List ℕ
  electionTick : ℕ
  heartbeatTick : ℕ
  /-- The results of `rnd.Intn(ElectionTick)` the generator seeded with `ID` will give. -/
  rnd : ℕ → ℕ

/-- The errors of the package, with the numbers their texts print. -/
inductive Error
  | notLeader
  | zeroID
  | zeroPeer
  | ownPeer
  | ticksNotPositive
  | ticksTooClose
  | notCommitted (index commitIndex : ℕ)
  | notNewer (index boundary : ℕ)
  deriving DecidableEq, Repr

/-- The first complaint about a peer list, in its order. -/
def Config.validatePeers (id : ℕ) : List ℕ → Except Error Unit
  | [] => .ok ()
  | p :: ps =>
    if p = 0 then .error .zeroPeer
    else if p = id then .error .ownPeer
    else validatePeers id ps

/-- `Config.validate`. -/
def Config.validate (c : Config) : Except Error Unit :=
  if c.id = 0 then .error .zeroID
  else match validatePeers c.id c.peers with
    | .error e => .error e
    | .ok () =>
      if c.electionTick = 0 ∨ c.heartbeatTick = 0 then .error .ticksNotPositive
      else if c.electionTick < c.heartbeatTick * 2 then .error .ticksTooClose
      else .ok ()

/-- `Raft`. -/
structure Raft where
  id : ℕ
  peers : List ℕ
  role : Role
  currentTerm : ℕ
  votedFor : ℕ
  leaderID : ℕ
  log : List LogEntry
  snapshot : Snapshot
  pendingSnapshotToApply : Option Snapshot
  commitIndex : ℕ
  stableTerm : ℕ
  stableVote : ℕ
  unstableIndex : ℕ
  stableSnapshotIndex : ℕ
  nextIndex : ℕ → ℕ
  matchIndex : ℕ → ℕ
  sentIndex : ℕ → ℕ
  votesReceived : Finset ℕ
  preVotesReceived : Finset ℕ
  pendingReads : ℕ → Option PendingRead
  readStates : List ReadState
  electionTick : ℕ
  heartbeatTick : ℕ
  electionElapsed : ℕ
  heartbeatElapsed : ℕ
  randomizedElectionTimeout : ℕ
  rnd : ℕ → ℕ
  msgs : List Message

/-- `Ready`. -/
structure Ready where
  hardState : Option HardState
  unstableEntries : List LogEntry
  firstUnstableIndex : ℕ
  messages : List Message
  readStates : List ReadState
  snapshot : Option Snapshot
  snapshotToApply : Option Snapshot

end KvStore
