import KvStore.Machine.Process
import KvStore.Machine.Run
import KvStore.Server.Server

/-!
# The event loop of `server/server.go`, over any node

`Run` owns its node and answers three kinds of callers: those of `propose`, those of
`LinearizableGet`, and `Stop`. It knows the node through the interface `raftNode`, whose calls may
fail or panic at any time. Here the loop is modelled with that interface, with the channels it reads
and writes, and with its batch timer.

* `RaftNode`: the interface. A call that panics has no value; a failed `Persist` hands out nothing.
* `Loop`: the server's fields and the variables of `Run`. A caller makes its channel, which has room
  for one value, and queues its request. `accepted` are the requests that the loop has received, in
  order, and `batches` the calls of `ProposeBatch`.
* `Loop.round`: one round of the `select`. It ends early if a call panics, or blocks if it sends on
  a full channel.
* `Loop.step`: a round, or what the callers, the clock and `Stop` do between two rounds.
-/

namespace KvStore

open Machine

/-! ## The node -/

/-- What `Persist` hands out. -/
structure Persisted where
  messages : List Message
  readStates : List ReadState
  snapshotToApply : Option Snapshot

/-- `raftNode`, on the states of a node. Of `Status` the loop looks at the commit index. -/
class RaftNode (ν : Type) where
  /-- `Tick`. -/
  tick : ν → Option ν
  /-- `Step`. -/
  step : ν → Message → Option ν
  /-- `ProposeBatch`. -/
  proposeBatch : ν → List Bytes → Option (ν × Except Error (List ℕ))
  /-- `RequestReadIndex`. -/
  requestReadIndex : ν → ℕ → Option (ν × Except Error Unit)
  /-- `CreateSnapshot`. -/
  createSnapshot : ν → ℕ → Bytes → Option (ν × Except Error Unit)
  /-- `Status().CommitIndex`. -/
  commitIndex : ν → ℕ
  /-- `Entries`. -/
  entries : ν → ℕ → ℕ → Option (List LogEntry)
  /-- `Persist`; what it hands out is `none` if it fails. -/
  persist : ν → Option (ν × Option Persisted)

/-- `*raft.Node` as its callers see it, on a disk that does not fail. -/
instance : RaftNode Node where
  tick := fun n => n.r.tick.map fun r => ⟨r, n.storage⟩
  step := fun n m => (n.r.step m).map fun r => ⟨r, n.storage⟩
  proposeBatch := fun n datas => (n.r.proposeBatch datas).map fun x => (⟨x.1, n.storage⟩, x.2)
  requestReadIndex := fun n ctx => (n.r.requestReadIndex ctx).map fun x => (⟨x.1, n.storage⟩, x.2)
  createSnapshot :=
    fun n index data => (n.r.createSnapshot index data).map fun x => (⟨x.1, n.storage⟩, x.2)
  commitIndex := fun n => n.r.commitIndex
  entries := fun n start stop => n.r.entries start stop
  persist :=
    fun n => n.persist.map fun x => (x.1, some ⟨x.2.messages, x.2.readStates, x.2.snapshotToApply⟩)

/-! ## The loop -/

/-- `proposeChBufferSize`. -/
def proposeChBufferSize : ℕ := 256

/-- `Run` goes on, or has returned; the process has panicked, or waits for ever to send. -/
inductive LoopStatus
  | running
  | returned
  | panicked
  | blocked
  deriving DecidableEq

/-- The fields of `Server` and the variables of `Run`, with what has been sent and received. -/
structure Loop (ν ε : Type) where
  node : ν
  eng : ε
  batchWindow : ℕ
  maxBatchSize : ℕ
  snapshotThreshold : ℕ
  lastApplied : ℕ
  lastSnapshotIndex : ℕ
  proposeCh : List ProposeRequest := []
  readIndexCh : List ℕ := []
  stopCh : Bool := false
  waiters : AList (fun _ : ℕ => ProposeRequest) := ∅
  pendingReadIndexes : AList (fun _ : ℕ => ℕ) := ∅
  nextReadCtx : ℕ := 1
  pending : List ProposeRequest := []
  batchTimer : Option ℕ := none
  batchTimerC : Option ℕ := none
  timers : Timers := {}
  status : LoopStatus := .running
  sent : List Message := []
  results : Mailbox ApplyResult := .empty
  readResults : Mailbox (Except ServerError ℕ) := .empty
  calls : ℕ := 0
  readCalls : ℕ := 0
  accepted : List ProposeRequest := []
  acceptedReads : List ℕ := []
  batches : List (List ProposeRequest) := []

/-- What happens: the callers, the clock and `Stop` act, and the loop takes a case of its
`select`. -/
inductive LoopEvent
  | call (data : Bytes)
  | callRead
  | receive (ch : ℕ)
  | receiveRead (ch : ℕ)
  | fire (timer : ℕ)
  | close
  | tick
  | recv (m : Message)
  | closed
  | propose
  | readIndex
  | batchTimer
  | stop (order : List (Σ _ : ℕ, ℕ))

namespace Loop

variable {ν ε : Type}

/-- A part of a round returns, or ends early in a state. -/
abbrev Outcome (ν ε α : Type) := Except (Loop ν ε) α

/-- The value of a call on the node made in state `s`, which panics if there is none. -/
def orPanic {α : Type} (s : Loop ν ε) : Option α → Outcome ν ε α
  | none => .error { s with status := .panicked }
  | some a => .ok a

/-! ### Answers -/

/-- A send on the channel of a caller of `propose`. -/
def answer (s : Loop ν ε) (ch : ℕ) (res : ApplyResult) : Outcome ν ε (Loop ν ε) :=
  match s.results.send ch res with
  | none => .error { s with status := .blocked }
  | some b => .ok { s with results := b }

/-- A send on the channel of a caller of `LinearizableGet`. -/
def answerRead (s : Loop ν ε) (ch : ℕ) (res : Except ServerError ℕ) : Outcome ν ε (Loop ν ε) :=
  match s.readResults.send ch res with
  | none => .error { s with status := .blocked }
  | some b => .ok { s with readResults := b }

/-- One round of the second loop of `applyCommitted`. -/
def settle (batchErr : Option EngineError) (s : Loop ν ε) (entry : LogEntry) :
    Outcome ν ε (Loop ν ε) :=
  let s := { s with lastApplied := entry.index }
  match s.waiters.lookup entry.index with
  | none => .ok s
  | some p =>
    { s with waiters := s.waiters.erase entry.index }.answer p.resultCh
      (if p.data ≠ entry.data then .error .superseded else Server.resultFor batchErr entry)

/-- One round of the last loop of `pump`. -/
def resolveRead (s : Loop ν ε) (rs : ReadState) : Outcome ν ε (Loop ν ε) :=
  match s.pendingReadIndexes.lookup rs.context with
  | none => .ok s
  | some ch =>
    { s with pendingReadIndexes := s.pendingReadIndexes.erase rs.context }.answerRead ch
        (.ok rs.index)

/-- `failPending`. -/
def failPending (s : Loop ν ε) (e : ServerError) : Outcome ν ε (Loop ν ε) :=
  s.pending.foldlM (fun s r => s.answer r.resultCh (.error e)) s

/-- `failPendingReadIndexes`, which meets the requests in any order. -/
def failPendingReadIndexes (s : Loop ν ε) (order : List (Σ _ : ℕ, ℕ)) (e : ServerError) :
    Outcome ν ε (Loop ν ε) :=
  order.foldlM (fun s x => do
    let s ← s.answerRead x.2 (.error e)
    return { s with pendingReadIndexes := s.pendingReadIndexes.erase x.1 }) s

/-! ### The batch -/

/-- Whether `Run` submits the batch now that `pending` has one more request. -/
def full (s : Loop ν ε) : Bool := s.batchWindow = 0 ∨ s.maxBatchSize ≤ s.pending.length

/-- The timer is made for a new batch. -/
def arm (s : Loop ν ε) : Loop ν ε :=
  { s with batchTimer := some s.timers.next, batchTimerC := some s.timers.next,
           timers := s.timers.new }

/-- The timer is stopped, if there is one. -/
def disarm (s : Loop ν ε) : Loop ν ε :=
  match s.batchTimer with
  | none => s
  | some t => { s with timers := s.timers.stop t, batchTimerC := none }

/-- `Run` takes a request from `proposeCh`. -/
def accept (s : Loop ν ε) : Loop ν ε :=
  { s with
    proposeCh := s.proposeCh.tail
    accepted := s.accepted ++ s.proposeCh.head?.toList
    pending := s.pending ++ s.proposeCh.head?.toList }

/-- One round of the loop of `submitBatch` that registers the waiters, which panics if the node has
returned too few indices. -/
def register (indices : List ℕ) (s : Loop ν ε) (x : ProposeRequest × ℕ) :
    Outcome ν ε (Loop ν ε) := do
  let index ← s.orPanic indices[x.2]?
  return { s with waiters := s.waiters.insert index x.1 }

/-- Whether it can happen: a queue has room or is not empty, a channel has a value, a timer runs,
the channel of `Stop` is closed; and only a loop that runs takes a case. -/
def Sees (s : Loop ν ε) : LoopEvent → Prop
  | .call _ => s.proposeCh.length < proposeChBufferSize
  | .callRead => s.readIndexCh.length < proposeChBufferSize
  | .receive ch => (s.results.buffer ch).isSome
  | .receiveRead ch => (s.readResults.buffer ch).isSome
  | .fire t => s.timers.states[t]? = some .running
  | .close => True
  | .tick => s.status = .running
  | .recv _ => s.status = .running
  | .closed => s.status = .running
  | .propose => s.status = .running ∧ s.proposeCh ≠ []
  | .readIndex => s.status = .running ∧ s.readIndexCh ≠ []
  | .batchTimer => s.status = .running ∧ ∃ t ∈ s.batchTimerC, s.timers.states[t]? = some .fired
  | .stop order => s.status = .running ∧ s.stopCh ∧ order.Perm s.pendingReadIndexes.entries

instance (s : Loop ν ε) : ∀ ev, Decidable (s.Sees ev)
  | .call _ => inferInstanceAs (Decidable (_ < _))
  | .callRead => inferInstanceAs (Decidable (_ < _))
  | .receive _ => inferInstanceAs (Decidable (_ = true))
  | .receiveRead _ => inferInstanceAs (Decidable (_ = true))
  | .fire _ => inferInstanceAs (Decidable (_ = _))
  | .close => inferInstanceAs (Decidable True)
  | .tick => inferInstanceAs (Decidable (_ = _))
  | .recv _ => inferInstanceAs (Decidable (_ = _))
  | .closed => inferInstanceAs (Decidable (_ = _))
  | .propose => inferInstanceAs (Decidable (_ ∧ _))
  | .readIndex => inferInstanceAs (Decidable (_ ∧ _))
  | .batchTimer => inferInstanceAs (Decidable (_ ∧ _))
  | .stop _ => inferInstanceAs (Decidable (_ ∧ _))

/-! ### The pump -/

variable [RaftNode ν] [StorageEngine ε]

/-- `applyCommitted`. -/
def applyCommitted (s : Loop ν ε) : Outcome ν ε (Loop ν ε) := do
  if RaftNode.commitIndex s.node ≤ s.lastApplied then return s
  let entries ← s.orPanic (RaftNode.entries s.node s.lastApplied (RaftNode.commitIndex s.node))
  if entries = [] then return s
  let ops := opsOf entries
  let applied := if ops = [] then (s.eng, none) else StorageEngine.applyBatch s.eng ops
  entries.foldlM (settle applied.2) { s with eng := applied.1 }

/-- `maybeSnapshot`. -/
def maybeSnapshot (s : Loop ν ε) : Outcome ν ε (Loop ν ε) := do
  if s.snapshotThreshold = 0 then return s
  if s.lastApplied ≤ s.lastSnapshotIndex then return s
  if s.lastApplied - s.lastSnapshotIndex < s.snapshotThreshold then return s
  match StorageEngine.snapshot s.eng with
  | .error _ => return s
  | .ok data =>
    let (nd, err) ← s.orPanic (RaftNode.createSnapshot s.node s.lastApplied data)
    match err with
    | .error _ => return { s with node := nd }
    | .ok () => return { s with node := nd, lastSnapshotIndex := s.lastApplied }

/-- The part of `pump` that restores a snapshot the node has just installed. -/
def restore (s : Loop ν ε) (snap : Snapshot) : Loop ν ε :=
  match StorageEngine.restoreSnapshot s.eng snap.data with
  | (eng, some _) => { s with eng := eng }
  | (eng, none) =>
    { s with eng := eng, lastApplied := snap.lastIncludedIndex,
             lastSnapshotIndex := snap.lastIncludedIndex }

/-- The rest of `pump`, with what `Persist` has handed out. -/
def deliver (s : Loop ν ε) (p : Persisted) : Outcome ν ε (Loop ν ε) := do
  let s := match p.snapshotToApply with
    | none => s
    | some snap => s.restore snap
  let s ← applyCommitted { s with sent := s.sent ++ p.messages }
  let s ← s.maybeSnapshot
  p.readStates.foldlM resolveRead s

/-- `pump`; a failed `Persist` is only printed. -/
def pump (s : Loop ν ε) : Outcome ν ε (Loop ν ε) := do
  let (nd, persisted) ← s.orPanic (RaftNode.persist s.node)
  match persisted with
  | none => return { s with node := nd }
  | some p => deliver { s with node := nd } p

/-- `submitBatch`. -/
def submitBatch (s : Loop ν ε) (reqs : List ProposeRequest) : Outcome ν ε (Loop ν ε) := do
  if reqs = [] then return s
  let s := { s with batches := s.batches ++ [reqs] }
  let (nd, res) ← s.orPanic (RaftNode.proposeBatch s.node (reqs.map ProposeRequest.data))
  let s := { s with node := nd }
  match res with
  | .error e => reqs.foldlM (fun s r => s.answer r.resultCh (.error (.raft e))) s
  | .ok indices =>
    let s ← reqs.zipIdx.foldlM (register indices) s
    s.pump

/-! ### Rounds -/

/-- The batch is submitted, and a new one begins. -/
def flush (s : Loop ν ε) : Outcome ν ε (Loop ν ε) := do
  let s ← s.submitBatch s.pending
  return { s with pending := [] }

/-- What a caller, the clock or `Stop` does, or a round of `Run`. -/
def round (s : Loop ν ε) : LoopEvent → Outcome ν ε (Loop ν ε)
  | .call data => .ok { s with proposeCh := s.proposeCh ++ [⟨data, s.calls⟩], calls := s.calls + 1 }
  | .callRead =>
    .ok { s with readIndexCh := s.readIndexCh ++ [s.readCalls], readCalls := s.readCalls + 1 }
  | .receive ch => .ok { s with results := s.results.receive ch }
  | .receiveRead ch => .ok { s with readResults := s.readResults.receive ch }
  | .fire t => .ok { s with timers := s.timers.fire t }
  | .close => .ok { s with stopCh := true }
  | .tick => do
    let nd ← s.orPanic (RaftNode.tick s.node)
    pump { s with node := nd }
  | .recv m => do
    let nd ← s.orPanic (RaftNode.step s.node m)
    pump { s with node := nd }
  | .closed => do
    let s ← s.failPending .stopped
    return { s with status := .returned }
  | .propose =>
    let s := s.accept
    if s.full then s.disarm.flush
    else if s.pending.length = 1 then .ok s.arm
    else .ok s
  | .readIndex =>
    match s.readIndexCh with
    | [] => .ok s
    | ch :: rest => do
      let ctx := s.nextReadCtx
      let s := { s with
        readIndexCh := rest, acceptedReads := s.acceptedReads ++ [ch],
        nextReadCtx := (ctx + 1) % 2 ^ 64 }
      let (nd, res) ← s.orPanic (RaftNode.requestReadIndex s.node ctx)
      let s := { s with node := nd }
      match res with
      | .error e => s.answerRead ch (.error (.raft e))
      | .ok () => pump { s with pendingReadIndexes := s.pendingReadIndexes.insert ctx ch }
  | .batchTimer =>
    { s with batchTimerC := none, timers := s.batchTimerC.elim s.timers s.timers.receive }.flush
  | .stop order => do
    let s ← s.failPending .stopped
    let s ← s.failPendingReadIndexes order .stopped
    return { s with status := .returned }

/-- One step; a round that ends early leaves the state it ends in. -/
def step (s : Loop ν ε) (ev : LoopEvent) : Option (Loop ν ε) :=
  if s.Sees ev then
    match s.round ev with
    | .ok s' => some s'
    | .error s' => some s'
  else none

omit [RaftNode ν] [StorageEngine ε] in
/-- `New` with the settings, and `SeedAppliedIndex`. -/
def new (node : ν) (eng : ε) (batchWindow maxBatchSize snapshotThreshold index : ℕ) : Loop ν ε where
  node := node
  eng := eng
  batchWindow := batchWindow
  maxBatchSize := maxBatchSize
  snapshotThreshold := snapshotThreshold
  lastApplied := index
  lastSnapshotIndex := index

end Loop

end KvStore
