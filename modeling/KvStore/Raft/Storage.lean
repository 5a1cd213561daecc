import KvStore.Raft.Core

/-!
# Durable storage: `raft/storage.go` and `raft/node.go`

The storage file is a list of records; `openStorage` replays it. The write-ahead log frames each
record with a checksum and cuts a torn tail off when it is opened, so a process that dies while it
appends leaves a prefix of the records it was writing (`Save.cut`). `SaveSnapshot` writes a
temporary file and renames it over the old one, so there the old file is left or the new one.

* `openStorage`, `openNode`: what a restart recovers.
* `persist`: one `Node.Persist`, its messages and read states released once it has returned.
* `persistCut`: the storage that a process which died inside `Node.Persist` leaves behind.
-/

namespace KvStore

/-- A persisted record; one constructor for each `recordKind`. -/
inductive Record
  | hardState (hs : HardState)
  | logEntry (e : LogEntry)
  | truncateFrom (first : ℕ)
  | snapshot (snap : Snapshot)
  deriving DecidableEq, Repr

/-- What the replay of the records has rebuilt so far. -/
structure Stored where
  hs : HardState := {}
  log : List LogEntry := []
  snap : Snapshot := {}
  deriving DecidableEq, Repr

/-- The replay of one record. -/
def Stored.replay (s : Stored) : Record → Stored
  | .hardState hs => { s with hs := hs }
  | .logEntry e => { s with log := s.log ++ [e] }
  | .truncateFrom first => { s with log := s.log.filter (fun e => e.index < first) }
  | .snapshot snap =>
    { s with snap := snap, log := s.log.filter (fun e => snap.lastIncludedIndex < e.index) }

/-- The replay of a file. -/
def replayAll (storage : List Record) : Stored := storage.foldl Stored.replay {}

/-- The entry at position zero of a recovered log. -/
def sentinel (snap : Snapshot) : LogEntry :=
  if 0 < snap.lastIncludedIndex then ⟨snap.lastIncludedTerm, snap.lastIncludedIndex, []⟩
  else ⟨0, 0, []⟩

/-- `OpenStorage`: the hard state, the log with its sentinel, and the snapshot. -/
def openStorage (storage : List Record) : HardState × List LogEntry × Snapshot :=
  let s := replayAll storage
  (s.hs, sentinel s.snap :: s.log, s.snap)

/-- `SaveHardState`. -/
def saveHardState (hs : HardState) : List Record := [.hardState hs]

/-- `SaveEntries`. -/
def saveEntries (firstIndex : ℕ) (entries : List LogEntry) : List Record :=
  if entries = [] then [] else .truncateFrom firstIndex :: entries.map .logEntry

/-- `SaveSnapshot`: the content of the file that replaces the old one. -/
def saveSnapshot (hs : HardState) (snap : Snapshot) (surviving : List LogEntry) : List Record :=
  .hardState hs :: .snapshot snap :: surviving.map .logEntry

/-- What one `Persist` does to the storage file. -/
inductive Save
  | append (records : List Record)
  | replace (records : List Record)

/-- The storage after the save. -/
def Save.run (storage : List Record) : Save → List Record
  | .append records => storage ++ records
  | .replace records => records

/-- The storage when the process dies after `k` of the save's writes have taken effect. -/
def Save.cut (storage : List Record) (k : ℕ) : Save → List Record
  | .append records => storage ++ records.take k
  | .replace records => if k = 0 then storage else records

/-- `Node`. -/
structure Node where
  r : Raft
  storage : List Record

/-- `OpenNode`. Its outer error is a configuration's, its inner one a panic. -/
def openNode (cfg : Config) (storage : List Record) :
    Except Error (Option (Node × Option Snapshot)) := do
  let (hs, log, snap) := openStorage storage
  let r ← Raft.new cfg
  return do
    let r ← r.restoreState hs log
    if 0 < snap.lastIncludedIndex then
      return (⟨{ r with snapshot := snap, stableSnapshotIndex := snap.lastIncludedIndex }, storage⟩,
        some snap)
    else return (⟨r, storage⟩, none)

namespace Node

/-- The save of a `Persist`: a new snapshot boundary takes the place of the usual records. -/
def save (n : Node) (rd : Ready) : Option Save :=
  match rd.snapshot with
  | some snap => do
    let last ← n.r.lastLogIndex
    let surviving ← n.r.entries snap.lastIncludedIndex last
    return .replace (saveSnapshot ⟨n.r.currentTerm, n.r.votedFor⟩ snap surviving)
  | none =>
    let hs := match rd.hardState with
      | some hs => saveHardState hs
      | none => []
    some (.append (hs ++ saveEntries rd.firstUnstableIndex rd.unstableEntries))

/-- `Persist`, with what it hands out. -/
def persist (n : Node) : Option (Node × Ready) := do
  let rd ← n.r.ready
  let save ← n.save rd
  let r ← n.r.advance
  return (⟨r, save.run n.storage⟩, rd)

/-- The storage when the process dies inside `Persist` after `k` writes. -/
def persistCut (n : Node) (k : ℕ) : Option (List Record) := do
  let rd ← n.r.ready
  let save ← n.save rd
  return save.cut n.storage k

end Node

end KvStore
