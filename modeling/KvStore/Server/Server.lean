import KvStore.Raft.Storage
import KvStore.Server.Command

/-!
# The server of `server/server.go`

One node's event loop: it drives its Raft node, hands out the messages, applies what is committed to
its engine and answers the callers of `propose` and `LinearizableGet`.

* A call of the loop returns the server's next state, or, if it panics, the state it panicked in:
  its storage is what the process will be opened on again.
* A channel is the number of the call that made it; what the loop sends on channels and to the
  transport is in `results`, `readResults` and `sent`.
* The loop's own variables are the fields `pending` and `batchTimer`. A timer that has fired and a
  channel that has something are events.
* `Persist` is the one of `Storage.lean`, whose writes do not fail.
* The cached status is left out: it is the node's own.
-/

namespace KvStore

/-- `proposeRequest`, and with the index it was given `pendingPropose`. -/
structure ProposeRequest where
  data : Bytes
  resultCh : ℕ
  deriving DecidableEq, Repr

/-- `applyResult`. -/
abbrev ApplyResult := Except ServerError Unit

/-- `Server`, over the engine states `ε`. -/
structure Server (ε : Type) where
  node : Node
  eng : ε
  batchWindow : ℕ := 0
  maxBatchSize : ℕ := 64
  lastApplied : ℕ := 0
  waiters : ℕ → Option ProposeRequest := fun _ => none
  snapshotThreshold : ℕ := 10000
  lastSnapshotIndex : ℕ := 0
  pendingReadIndexes : List (ℕ × ℕ) := []
  nextReadCtx : ℕ := 1
  pending : List ProposeRequest := []
  batchTimer : Bool := false
  stopped : Bool := false
  sent : List Message := []
  results : List (ℕ × ApplyResult) := []
  readResults : List (ℕ × Except ServerError ℕ) := []

/-- What wakes the event loop. -/
inductive Event
  | tick
  | recv (m : Message)
  | propose (req : ProposeRequest)
  | readIndex (resultCh : ℕ)
  | batchTimer
  | closed
  | stop
  deriving DecidableEq

namespace Server

variable {ε : Type} [StorageEngine ε]

/-- A call returns a state, or panics in one. -/
abbrev Outcome (ε α : Type) := Except (Server ε) α

/-- The value of a call on the node made in state `s`, which panics if there is none. -/
def orPanic {ε α : Type} (s : Server ε) : Option α → Outcome ε α
  | none => .error s
  | some a => .ok a

/-- The server with its node's state machine at `r`. -/
def setRaft {ε : Type} (s : Server ε) (r : Raft) : Server ε :=
  { s with node := ⟨r, s.node.storage⟩ }

/-- `SeedAppliedIndex`. -/
def seedAppliedIndex {ε : Type} (s : Server ε) (index : ℕ) : Server ε :=
  { s with lastApplied := index, lastSnapshotIndex := index }

/-! ## Applying -/

/-- What the caller waiting for an entry is told once the batch with it has been applied. -/
def resultFor (batchErr : Option EngineError) (entry : LogEntry) : ApplyResult :=
  match decodeAndValidateCommand entry with
  | .error e => .error e
  | .ok _ =>
    match batchErr with
    | some e => .error (.applying entry.index e)
    | none => .ok ()

/-- One round of the second loop of `applyCommitted`: the caller waiting at the entry's index is
told what became of its proposal. -/
def settle {ε : Type} (batchErr : Option EngineError) (s : Server ε) (entry : LogEntry) :
    Server ε :=
  let s := { s with lastApplied := entry.index }
  match s.waiters entry.index with
  | none => s
  | some p =>
    { s with
      waiters := Function.update s.waiters entry.index none
      results := s.results ++ [(p.resultCh,
        if p.data ≠ entry.data then .error .superseded else resultFor batchErr entry)] }

/-- The part of `applyCommitted` after it has read the entries: the well-formed commands go to the
engine in one batch, and every waiting caller is told. -/
def applyEntries (s : Server ε) (entries : List LogEntry) : Server ε :=
  if entries = [] then s
  else
    let ops := opsOf entries
    let applied := if ops = [] then (s.eng, none) else StorageEngine.applyBatch s.eng ops
    entries.foldl (settle applied.2) { s with eng := applied.1 }

/-- `applyCommitted`. -/
def applyCommitted (s : Server ε) : Outcome ε (Server ε) := do
  if s.node.r.commitIndex ≤ s.lastApplied then return s
  let entries ← s.orPanic (s.node.r.entries s.lastApplied s.node.r.commitIndex)
  return s.applyEntries entries

/-- `maybeSnapshot`. -/
def maybeSnapshot (s : Server ε) : Outcome ε (Server ε) := do
  if s.snapshotThreshold = 0 then return s
  if s.lastApplied ≤ s.lastSnapshotIndex then return s
  if s.lastApplied - s.lastSnapshotIndex < s.snapshotThreshold then return s
  match StorageEngine.snapshot s.eng with
  | .error _ => return s
  | .ok data =>
    let (r, err) ← s.orPanic (s.node.r.createSnapshot s.lastApplied data)
    match err with
    | .error _ => return s.setRaft r
    | .ok () => return { s.setRaft r with lastSnapshotIndex := s.lastApplied }

/-! ## The pump -/

/-- The part of `pump` that restores a snapshot the node has just installed. -/
def restore (s : Server ε) (snap : Snapshot) : Server ε :=
  match StorageEngine.restoreSnapshot s.eng snap.data with
  | (eng, some _) => { s with eng := eng }
  | (eng, none) => { s with eng := eng }.seedAppliedIndex snap.lastIncludedIndex

/-- One round of the last loop of `pump`. -/
def resolveRead {ε : Type} (s : Server ε) (rs : ReadState) : Server ε :=
  match s.pendingReadIndexes.lookup rs.context with
  | none => s
  | some ch =>
    { s with
      pendingReadIndexes := s.pendingReadIndexes.filter fun p => p.1 ≠ rs.context
      readResults := s.readResults ++ [(ch, .ok rs.index)] }

/-- The server once the node has been persisted, a snapshot restored and the messages sent. -/
def delivered (s : Server ε) (nd : Node) (rd : Ready) : Server ε :=
  let s := { s with node := nd }
  let s := match rd.snapshotToApply with
    | none => s
    | some snap => s.restore snap
  { s with sent := s.sent ++ rd.messages }

/-- `pump`, from where `Persist` has left the node at `nd` and handed out `rd`. -/
def pumped (s : Server ε) (nd : Node) (rd : Ready) : Outcome ε (Server ε) := do
  let s ← (s.delivered nd rd).applyCommitted
  let s ← s.maybeSnapshot
  return rd.readStates.foldl resolveRead s

/-- `pump`. -/
def pump (s : Server ε) : Outcome ε (Server ε) := do
  let (nd, rd) ← s.orPanic s.node.persist
  s.pumped nd rd

/-! ## The event loop -/

/-- The loop of `submitBatch` that registers the waiters. -/
def register {ε : Type} (s : Server ε) (reqs : List ProposeRequest) (indices : List ℕ) : Server ε :=
  { s with
    waiters := (reqs.zip indices).foldl (fun w p => Function.update w p.2 (some p.1)) s.waiters }

/-- `submitBatch` up to its `pump`, and whether it makes one. -/
def submitBatch {ε : Type} (s : Server ε) (reqs : List ProposeRequest) :
    Outcome ε (Server ε × Bool) := do
  if reqs = [] then return (s, false)
  let (r, res) ← s.orPanic (s.node.r.proposeBatch (reqs.map ProposeRequest.data))
  let s := s.setRaft r
  match res with
  | .error e =>
    return ({ s with results := s.results ++ reqs.map fun q => (q.resultCh, .error (.raft e)) },
      false)
  | .ok indices => return (s.register reqs indices, true)

/-- `failPending`. -/
def failPending {ε : Type} (s : Server ε) (e : ServerError) : Server ε :=
  { s with results := s.results ++ s.pending.map fun q => (q.resultCh, .error e) }

/-- `failPendingReadIndexes`. -/
def failPendingReadIndexes {ε : Type} (s : Server ε) (e : ServerError) : Server ε :=
  { s with
    pendingReadIndexes := []
    readResults := s.readResults ++ s.pendingReadIndexes.map fun p => (p.2, .error e) }

/-- Whether `Run` submits the batch now that `pending` has one more request. -/
def full {ε : Type} (s : Server ε) : Bool :=
  s.batchWindow = 0 ∨ s.maxBatchSize ≤ s.pending.length

/-- A round of `Run` up to its `pump`, and whether it makes one: `pump` is the last thing a round
does. -/
def handle {ε : Type} (s : Server ε) : Event → Outcome ε (Server ε × Bool)
  | .tick => do
    let r ← s.orPanic s.node.r.tick
    return (s.setRaft r, true)
  | .recv m => do
    let r ← s.orPanic (s.node.r.step m)
    return (s.setRaft r, true)
  | .propose req =>
    let s := { s with pending := s.pending ++ [req] }
    if s.full then { s with pending := [], batchTimer := false }.submitBatch s.pending
    else if s.pending.length = 1 then .ok ({ s with batchTimer := true }, false)
    else .ok (s, false)
  | .readIndex ch => do
    let ctx := s.nextReadCtx
    let s := { s with nextReadCtx := ctx + 1 }
    let (r, res) ← s.orPanic (s.node.r.requestReadIndex ctx)
    let s := s.setRaft r
    match res with
    | .error e =>
      return ({ s with readResults := s.readResults ++ [(ch, .error (.raft e))] }, false)
    | .ok () => return ({ s with pendingReadIndexes := (ctx, ch) :: s.pendingReadIndexes }, true)
  | .batchTimer => { s with pending := [], batchTimer := false }.submitBatch s.pending
  | .closed => .ok ({ s.failPending .stopped with stopped := true }, false)
  | .stop =>
    .ok ({ (s.failPending .stopped).failPendingReadIndexes .stopped with stopped := true }, false)

/-- Whether the loop can see the event: it is still running, and a timer has to be set to fire. -/
def sees {ε : Type} (s : Server ε) (ev : Event) : Prop :=
  s.stopped = false ∧ (ev = .batchTimer → s.batchTimer = true)

instance (s : Server ε) (ev : Event) : Decidable (s.sees ev) := inferInstanceAs (Decidable (_ ∧ _))

/-- A round of `Run`. -/
def round (s : Server ε) (ev : Event) : Outcome ε (Server ε) := do
  let (s, pumps) ← s.handle ev
  if pumps then s.pump else return s

end Server

end KvStore
