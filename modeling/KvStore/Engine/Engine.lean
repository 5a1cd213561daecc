import KvStore.Engine.Directory

/-!
# The engine of `engine/engine.go`

The operations on an engine's state, each with the file operations it makes, in their order.

* `openEngine`: `Open` on a directory.
* `Engine.applyBatch`, `Engine.flush`: a write and an explicit flush, from where they no longer wait
  for a flush in progress. Both may start one.
* `FlushJob.step`: the goroutine `runFlush`, one file operation or critical section at a time. The
  table is installed, and `immutable` cleared, before the frozen memtable's log is removed.
* `Engine.restoreSnapshot`: `RestoreSnapshot`, with the operations before and after the rename that
  commits it.
* `Engine.get`: `Get`.

Reading and writing do not fail here. File handles are left out: an open table is what its file held
when it was opened. `CachedReads.lean` adds the block cache.
-/

namespace KvStore

open Layered

/-- `Engine`. -/
structure Engine where
  /-- The number of the log that is written to. -/
  w : ℕ
  mem : Table := .empty
  immutable : Option Table := none
  flushErr : Bool := false
  /-- The open tables with their files' numbers, the newest first. -/
  sstables : List (ℕ × Table) := []
  nextSeq : UInt64
  nextFlushSeq : ℕ
  nextWALSeq : ℕ

/-- What `runFlush` does next. -/
inductive FlushPhase
  | create
  | finish
  | install
  | remove
  deriving DecidableEq, Repr

/-- A goroutine in `runFlush`. -/
structure FlushJob where
  frozen : Table
  frozenWAL : ℕ
  flushSeq : ℕ
  phase : FlushPhase := .create

namespace Engine

/-! ## Reading -/

/-- The first of the tables that knows the key answers. -/
def getFrom : List Table → Content
  | [], _ => none
  | t :: ts, key =>
    match t.get key with
    | some e => e.found
    | none => getFrom ts key

/-- The tables in the order of reading. -/
def sources (e : Engine) : List Table := e.mem :: (e.immutable.toList ++ e.sstables.map Prod.snd)

/-- `Get`. -/
def get (e : Engine) : Content := getFrom e.sources

/-! ## Writing -/

/-- `startFlushLocked`: the engine, the goroutine it starts and the log it opens. -/
def startFlushLocked (e : Engine) : Engine × List FlushJob × List FsOp :=
  ({ e with
      w := e.nextWALSeq
      mem := .empty
      immutable := some e.mem
      nextFlushSeq := e.nextFlushSeq + 1
      nextWALSeq := e.nextWALSeq + 1 },
    [{ frozen := e.mem, frozenWAL := e.w, flushSeq := e.nextFlushSeq }],
    [.openWal e.nextWALSeq])

/-- `ApplyBatch`, once no flush is in progress. -/
def applyBatch (threshold : ℕ) (e : Engine) (ops : List BatchOp) :
    Except EngineError (Engine × List FlushJob × List FsOp) :=
  if e.flushErr then .error .flushFailed
  else if ops = [] then .ok (e, [], [])
  else
    let records := batchRecords e.nextSeq ops
    let append := FsOp.appendWal e.w (Wal.encode records)
    let e := { e with
      mem := e.mem.applyRecords records
      nextSeq := e.nextSeq + UInt64.ofNat ops.length }
    if threshold ≤ e.mem.approxSize then
      let (e, jobs, opens) := e.startFlushLocked
      .ok (e, jobs, append :: opens)
    else .ok (e, [], [append])

/-- `Flush`, once no flush is in progress, up to where it waits for the flush it has started. -/
def flush (e : Engine) : Except EngineError (Engine × List FlushJob × List FsOp) :=
  if e.flushErr then .error .flushFailed
  else if e.mem.entries = [] then .ok (e, [], [])
  else .ok e.startFlushLocked

end Engine

/-- One step of `runFlush`: the engine, the goroutine if it goes on and the file operations. -/
def FlushJob.step (e : Engine) (job : FlushJob) : Engine × List FlushJob × List FsOp :=
  match job.phase with
  | .create => (e, [{ job with phase := .finish }], [.createSst job.flushSeq])
  | .finish =>
    match Table.write job.frozen.entries with
    | none => ({ e with flushErr := true, immutable := none }, [], [])
    | some t => (e, [{ job with phase := .install }], [.finishSst job.flushSeq t])
  | .install =>
    ({ e with sstables := (job.flushSeq, job.frozen) :: e.sstables, immutable := none },
      [{ job with phase := .remove }], [])
  | .remove => (e, [], [.removeWal job.frozenWAL])

/-! ## Opening -/

/-- `Open`: the engine and the file operations. There is no value if a table does not open. -/
def openEngine (d : Dir) : Option (Engine × List FsOp) := do
  let (sstables, nextFlushSeq, maxSeqFromTables) ← d.discoverSSTables
  let (wals, nextWALSeq) := d.discoverWALs
  let records := wals.flatMap fun a => Wal.replay a.2
  let mem := Table.empty.applyRecords records
  let maxSeqFromWAL := maxSeqOf records
  let nextSeq := if maxSeqFromTables < maxSeqFromWAL then maxSeqFromWAL else maxSeqFromTables
  let relog := if mem.entries = [] then [] else [FsOp.appendWal nextWALSeq (Wal.encode mem.records)]
  return (
    { w := nextWALSeq
      mem := mem
      sstables := sstables
      nextSeq := nextSeq + 1
      nextFlushSeq := nextFlushSeq
      nextWALSeq := nextWALSeq + 1 },
    wals.map (fun a => .truncateWal a.1 (Wal.validLength a.2)) ++
      (.openWal nextWALSeq :: (relog ++ wals.map fun a => .removeWal a.1)))

namespace Engine

/-! ## Restoring a snapshot -/

/-- The entries that `RestoreSnapshot` adds to its table. -/
def snapshotEntries (kvs : List (Bytes × Bytes)) : List (Bytes × Entry) :=
  ((kvs.mergeSort fun a b => a.1 ≤ b.1).zipIdx 1).map fun a =>
    (a.1.1, { value := a.1.2, seq := UInt64.ofNat a.2, deleted := false })

/-- The number of the files that `RestoreSnapshot` writes. -/
def newSeq (e : Engine) : ℕ := max e.nextFlushSeq e.nextWALSeq

/-- The file operations of `RestoreSnapshot` before the rename. -/
def restoreBefore (e : Engine) (t : Table) : List FsOp :=
  [.createSst e.newSeq, .finishSst e.newSeq t, .openWal e.newSeq]

/-- The file operations of `RestoreSnapshot` after the rename. -/
def restoreAfter (e : Engine) : List FsOp :=
  e.sstables.map (fun a => .removeSst a.1) ++ [.removeWal e.w]

/-- `RestoreSnapshot`: its file operations, and the engine if it succeeds. -/
def restoreSnapshot (e : Engine) (data : Bytes) : List FsOp × Except EngineError Engine :=
  if e.immutable.isSome then ([], .error .flushInProgress)
  else match decodeSnapshotEntries data with
    | none => ([], .error .malformedSnapshot)
    | some kvs =>
      match Table.write (snapshotEntries kvs) with
      | none => ([.createSst e.newSeq], .error .restoreFailed)
      | some t =>
        (e.restoreBefore t ++ .renameMarker e.newSeq :: e.restoreAfter,
          .ok { e with
            sstables := [(e.newSeq, t)]
            w := e.newSeq
            mem := .empty
            nextFlushSeq := e.newSeq + 1
            nextWALSeq := e.newSeq + 1
            flushErr := false })

end Engine

end KvStore
