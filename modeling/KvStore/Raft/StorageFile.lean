import KvStore.Raft.Wrapping
import KvStore.Wal.Record

/-!
# The storage file, byte by byte

A record of `raft/storage.go` is the value of a record of the write-ahead log: a byte for its kind,
and a payload. The file is a log of such records.

* `Record.value`, `Record.ofValue`: a record's bytes, and the `switch` of `OpenStorage` that reads
  them.
* `PersistentStorage`: the file and the last sequence number. `SaveHardState` and `SaveEntries`
  append, each with one write; a process that dies leaves some of the bytes. `SaveSnapshot` writes
  another file and renames it: a process that dies leaves the old file or the new one. What it may
  leave of the other one, the next `SaveSnapshot` removes, and nothing reads.
* `FileNode`: `Node` with the file itself, and with the numbers of `Wrapping.lean`.
* `Shows file recs`: replaying the file gives the records. `Stores.cut` says that a file whose last
  writes were cut at any byte shows what a cut between two records leaves.
-/

namespace KvStore

open Codec

/-! ## Payloads -/

/-- `recordHardState`. -/
def recordHardState : UInt8 := 0

/-- `recordLogEntry`. -/
def recordLogEntry : UInt8 := 1

/-- `recordTruncateFrom`. -/
def recordTruncateFrom : UInt8 := 2

/-- `recordSnapshot`. -/
def recordSnapshot : UInt8 := 3

/-- `PutUint64`. -/
def putUint64 (n : ℕ) : Bytes := Wal.le64 (UInt64.ofNat n)

/-- `Uint64`, with what follows. -/
def readUint64 (data : Bytes) : Option (ℕ × Bytes) :=
  (Wal.readLe64 data).map fun p => (p.1.toNat, p.2)

/-- `encodeHardStatePayload`. -/
def encodeHardStatePayload (hs : HardState) : Bytes := putUint64 hs.term ++ putUint64 hs.vote

/-- `decodeHardStatePayload`. -/
def decodeHardStatePayload (data : Bytes) : Option HardState := do
  if data.length ≠ 16 then none
  let (term, data) ← readUint64 data
  let (vote, _) ← readUint64 data
  return ⟨term, vote⟩

/-- Two numbers and a byte string with its length: the layout of log entries and of snapshots. -/
def encodeTwoAndData (a b : ℕ) (data : Bytes) : Bytes :=
  putUint64 a ++ (putUint64 b ++ writeLenPrefixed data)

/-- Read two numbers and a byte string that makes up the rest. -/
def decodeTwoAndData (data : Bytes) : Option (ℕ × ℕ × Bytes) := do
  if data.length < 20 then none
  let (a, rest) ← readUint64 data
  let (b, rest) ← readUint64 rest
  let (dlen, rest) ← readLe32 rest
  if (data.length - 20) % 2 ^ 32 ≠ dlen then none
  return (a, b, rest.take dlen)

/-- `encodeLogEntryPayload`. -/
def encodeLogEntryPayload (e : LogEntry) : Bytes := encodeTwoAndData e.term e.index e.data

/-- `decodeLogEntryPayload`. -/
def decodeLogEntryPayload (data : Bytes) : Option LogEntry :=
  (decodeTwoAndData data).map fun (term, index, d) => ⟨term, index, d⟩

/-- `encodeTruncateFromPayload`. -/
def encodeTruncateFromPayload (first : ℕ) : Bytes := putUint64 first

/-- `decodeTruncateFromPayload`. -/
def decodeTruncateFromPayload (data : Bytes) : Option ℕ := do
  if data.length ≠ 8 then none
  let (first, _) ← readUint64 data
  return first

/-- `encodeSnapshotPayload`. -/
def encodeSnapshotPayload (snap : Snapshot) : Bytes :=
  encodeTwoAndData snap.lastIncludedIndex snap.lastIncludedTerm snap.data

/-- `decodeSnapshotPayload`. -/
def decodeSnapshotPayload (data : Bytes) : Option Snapshot :=
  (decodeTwoAndData data).map fun (index, term, d) => ⟨index, term, d⟩

/-- `encodeRecord`. -/
def encodeRecord (kind : UInt8) (payload : Bytes) : Bytes := kind :: payload

/-- `decodeRecord`. -/
def decodeRecord : Bytes → Option (UInt8 × Bytes)
  | [] => none
  | kind :: payload => some (kind, payload)

namespace Record

/-- The value under which the record is written. -/
def value : Record → Bytes
  | .hardState hs => encodeRecord recordHardState (encodeHardStatePayload hs)
  | .logEntry e => encodeRecord recordLogEntry (encodeLogEntryPayload e)
  | .truncateFrom first => encodeRecord recordTruncateFrom (encodeTruncateFromPayload first)
  | .snapshot snap => encodeRecord recordSnapshot (encodeSnapshotPayload snap)

/-- The record with a value; `none` is an error of `OpenStorage`. -/
def ofValue (data : Bytes) : Option Record := do
  let (kind, payload) ← decodeRecord data
  if kind = recordHardState then (decodeHardStatePayload payload).map .hardState
  else if kind = recordLogEntry then (decodeLogEntryPayload payload).map .logEntry
  else if kind = recordTruncateFrom then (decodeTruncateFromPayload payload).map .truncateFrom
  else if kind = recordSnapshot then (decodeSnapshotPayload payload).map .snapshot
  else none

/-- The record's numbers are 64-bit numbers. -/
def Small : Record → Prop
  | .hardState hs => hs.term < 2 ^ 64 ∧ hs.vote < 2 ^ 64
  | .logEntry e => e.term < 2 ^ 64 ∧ e.index < 2 ^ 64
  | .truncateFrom first => first < 2 ^ 64
  | .snapshot snap => snap.lastIncludedIndex < 2 ^ 64 ∧ snap.lastIncludedTerm < 2 ^ 64

instance : ∀ r : Record, Decidable r.Small
  | .hardState _ | .logEntry _ | .snapshot _ => inferInstanceAs (Decidable (_ ∧ _))
  | .truncateFrom _ => inferInstanceAs (Decidable (_ < _))

/-- The record is written as a whole: its numbers have 64 bits, and the length of the payload that
the write-ahead log makes of it has 32. -/
def Fits (r : Record) : Prop := r.Small ∧ 17 + r.value.length < 2 ^ 32

instance (r : Record) : Decidable r.Fits := inferInstanceAs (Decidable (_ ∧ _))

end Record

/-! ## Round trips -/

@[simp] theorem length_putUint64 (n : ℕ) : (putUint64 n).length = 8 := rfl

theorem readUint64_putUint64 {n : ℕ} (h : n < 2 ^ 64) (rest : Bytes) :
    readUint64 (putUint64 n ++ rest) = some (n, rest) := by
  rw [readUint64, putUint64, Wal.readLe64_le64, Option.map_some, UInt64.toNat_ofNat_of_lt' h]

theorem length_encodeTwoAndData (a b : ℕ) (data : Bytes) :
    (encodeTwoAndData a b data).length = 20 + data.length := by
  simp only [encodeTwoAndData, writeLenPrefixed, List.length_append, length_putUint64,
    Framing.length_le32]
  omega

theorem decodeTwoAndData_encode {a b : ℕ} {data : Bytes} (ha : a < 2 ^ 64) (hb : b < 2 ^ 64)
    (hdata : data.length < 2 ^ 32) : decodeTwoAndData (encodeTwoAndData a b data) =
      some (a, b, data) := by
  have hlen := length_encodeTwoAndData a b data
  have hmod : (20 + data.length - 20) % 2 ^ 32 = data.length := by
    rw [Nat.add_sub_cancel_left, Nat.mod_eq_of_lt hdata]
  unfold decodeTwoAndData
  rw [hlen, if_neg (by omega), hmod, encodeTwoAndData, writeLenPrefixed]
  simp only [Option.bind_eq_bind, readUint64_putUint64 ha, readUint64_putUint64 hb,
    readLe32_le32 hdata, Option.bind_some, ne_eq, not_true_eq_false, if_false, pure,
      List.take_length]

/-- **A record that fits is read back.** -/
theorem Record.Fits.ofValue_value {r : Record} (h : r.Fits) : Record.ofValue r.value = some r := by
  obtain ⟨hsmall, hlen⟩ := h
  have hread : ∀ {n : ℕ}, n < 2 ^ 64 → readUint64 (putUint64 n) = some (n, []) := fun {n} hn => by
    have := readUint64_putUint64 hn []
    rwa [List.append_nil] at this
  cases r with
  | hardState hs =>
    simp [Record.ofValue, Record.value, encodeRecord, decodeRecord, decodeHardStatePayload,
      encodeHardStatePayload, readUint64_putUint64 hsmall.1, hread hsmall.2]
  | logEntry e =>
    have hd : e.data.length < 2 ^ 32 := by
      simp only [Record.value, encodeRecord, encodeLogEntryPayload, List.length_cons,
        length_encodeTwoAndData] at hlen
      omega
    simp [Record.ofValue, Record.value, encodeRecord, decodeRecord, decodeLogEntryPayload,
      encodeLogEntryPayload, decodeTwoAndData_encode hsmall.1 hsmall.2 hd, recordHardState,
      recordLogEntry]
  | truncateFrom first =>
    simp [Record.ofValue, Record.value, encodeRecord, decodeRecord, decodeTruncateFromPayload,
      encodeTruncateFromPayload, hread hsmall, recordHardState, recordLogEntry, recordTruncateFrom]
  | snapshot snap =>
    have hd : snap.data.length < 2 ^ 32 := by
      simp only [Record.value, encodeRecord, encodeSnapshotPayload, List.length_cons,
        length_encodeTwoAndData] at hlen
      omega
    simp [Record.ofValue, Record.value, encodeRecord, decodeRecord, decodeSnapshotPayload,
      encodeSnapshotPayload, decodeTwoAndData_encode hsmall.1 hsmall.2 hd, recordHardState,
      recordLogEntry, recordTruncateFrom, recordSnapshot]

/-! ## The file -/

/-- The records of a save. -/
def Save.records : Save → List Record
  | .append records => records
  | .replace records => records

/-- `PersistentStorage`. -/
structure PersistentStorage where
  file : Bytes := []
  seq : UInt64 := 0

/-- The log records of a save, with the sequence numbers after `seq`. -/
def numbered (seq : UInt64) : List Record → List Wal.Record
  | [] => []
  | r :: rs => ⟨seq + 1, recordPut, [], r.value⟩ :: numbered (seq + 1) rs

namespace PersistentStorage

/-- The storage after a save. -/
def save (s : PersistentStorage) : Save → PersistentStorage
  | .append records =>
    ⟨s.file ++ Wal.encode (numbered s.seq records), s.seq + UInt64.ofNat records.length⟩
  | .replace records => ⟨Wal.encode (numbered 0 records), UInt64.ofNat records.length⟩

/-- The file when the process dies after `k` bytes of the appended ones, or before or after the
rename. -/
def cut (s : PersistentStorage) (k : ℕ) : Save → Bytes
  | .append records => s.file ++ (Wal.encode (numbered s.seq records)).take k
  | .replace records => if k = 0 then s.file else Wal.encode (numbered 0 records)

end PersistentStorage

/-- Why a node does not open. -/
inductive OpenError
  | malformed
  | config (e : Error)
  deriving DecidableEq, Repr

/-- The records that `OpenStorage` reads in a file. -/
def fileRecords (file : Bytes) : Option (List Record) :=
  (Wal.replay file).mapM fun w => Record.ofValue w.value

/-- `Node`, with its storage file. -/
structure FileNode where
  r : Raft
  storage : PersistentStorage

/-- `OpenNode` on a file. -/
def openFileNode (cfg : Config) (file : Bytes) :
    Except OpenError (Option (FileNode × Option Snapshot)) :=
  match fileRecords file with
  | none => .error .malformed
  | some recs =>
    match Wrapping.openNode cfg recs with
    | .error e => .error (.config e)
    | .ok none => .ok none
    | .ok (some (nd, out)) =>
      .ok (some (⟨nd.r, ⟨file.take (Wal.validLength file), maxSeqOf (Wal.replay file)⟩⟩, out))

namespace FileNode

/-- What `Persist` is about to write, with what it will hand out. -/
def saving (n : FileNode) : Option (Ready × Save) := do
  let rd ← Wrapping.ready n.r
  let save ← Wrapping.save n.r rd
  return (rd, save)

/-- `Persist`. -/
def persist (n : FileNode) : Option (FileNode × Ready) := do
  let (rd, save) ← n.saving
  let r ← Wrapping.advance n.r
  return (⟨r, n.storage.save save⟩, rd)

/-- The file when the process dies inside `Persist`. -/
def persistCut (n : FileNode) (k : ℕ) : Option Bytes := do
  let (_, save) ← n.saving
  return n.storage.cut k save

end FileNode

/-! ## What a file shows -/

theorem numbered_value (seq : UInt64) (recs : List Record) :
    (numbered seq recs).map Wal.Record.value = recs.map Record.value := by
  induction recs generalizing seq with
  | nil => rfl
  | cons r rs ih => rw [numbered, List.map_cons, List.map_cons, ih]

theorem numbered_fits {recs : List Record} (h : ∀ r ∈ recs, r.Fits) (seq : UInt64) :
    ∀ w ∈ numbered seq recs, w.Fits := by
  induction recs generalizing seq with
  | nil => exact fun w hw => absurd hw List.not_mem_nil
  | cons r rs ih =>
    intro w hw
    rcases List.mem_cons.mp hw with rfl | hw
    · exact (h r List.mem_cons_self).2
    · exact ih (fun r' hr' => h r' (List.mem_cons_of_mem _ hr')) (seq + 1) w hw

/-- Replaying the file gives the records. -/
structure Shows (file : Bytes) (recs : List Record) : Prop where
  fits : ∀ r ∈ recs, r.Fits
  holds : ∃ ws : List Wal.Record, Wal.Holds file ws ∧
    ws.map Wal.Record.value = recs.map Record.value

/-- The storage has the records, and nothing after them. -/
structure PersistentStorage.Stores (s : PersistentStorage) (recs : List Record) : Prop where
  fits : ∀ r ∈ recs, r.Fits
  file_eq : ∃ ws : List Wal.Record, (∀ w ∈ ws, w.Fits) ∧ s.file = Wal.encode ws ∧
    ws.map Wal.Record.value = recs.map Record.value

theorem mapM_ofValue {recs : List Record} (h : ∀ r ∈ recs, r.Fits) {ws : List Wal.Record}
    (hws : ws.map Wal.Record.value = recs.map Record.value) :
    (ws.mapM fun w => Record.ofValue w.value) = some recs := by
  induction recs generalizing ws with
  | nil =>
    rw [List.map_nil, List.map_eq_nil_iff] at hws
    subst hws
    rfl
  | cons r rs ih =>
    obtain ⟨w, ws', rfl, hw, hws'⟩ := List.map_eq_cons_iff.mp hws
    rw [List.mapM_cons, hw, (h r List.mem_cons_self).ofValue_value,
      ih (fun r' hr' => h r' (List.mem_cons_of_mem _ hr')) hws']
    rfl

theorem Shows.fileRecords {file : Bytes} {recs : List Record} (h : Shows file recs) :
    fileRecords file = some recs := by
  obtain ⟨ws, hholds, hws⟩ := h.holds
  rw [KvStore.fileRecords, hholds.replay_eq]
  exact mapM_ofValue h.fits hws

/-- **A node opens on a file as on the records it shows**, and goes on with a storage that has
them. -/
theorem Shows.openFileNode {cfg : Config} {file : Bytes} {recs : List Record} (h : Shows file recs)
    {nd : Node} {out : Option Snapshot} (hopen :
    Wrapping.openNode cfg recs = .ok (some (nd, out))) : ∃ s : PersistentStorage,
      openFileNode cfg file = .ok (some (⟨nd.r, s⟩, out)) ∧ s.Stores recs := by
  refine ⟨⟨file.take (Wal.validLength file), maxSeqOf (Wal.replay file)⟩, ?_, h.fits, ?_⟩
  · rw [KvStore.openFileNode, h.fileRecords]
    simp only [hopen]
  · obtain ⟨ws, hholds, hws⟩ := h.holds
    exact ⟨ws, hholds.fits, hholds.valid_eq, hws⟩

theorem shows_nil : Shows [] [] := ⟨fun _ h => absurd h List.not_mem_nil, [], Wal.holds_nil, rfl⟩

namespace PersistentStorage.Stores

variable {s : PersistentStorage} {recs : List Record}

theorem shows (h : s.Stores recs) : Shows s.file recs := by
  obtain ⟨ws, hfits, hfile, hws⟩ := h.file_eq
  exact ⟨h.fits, ws, hfile ▸ Wal.holds_encode hfits, hws⟩

theorem replaced {new : List Record} (hnew : ∀ r ∈ new, r.Fits) (seq : UInt64) :
    Stores ⟨Wal.encode (numbered 0 new), seq⟩ new :=
  ⟨hnew, numbered 0 new, numbered_fits hnew 0, rfl, numbered_value 0 new⟩

/-- A save that completes. -/
theorem save (h : s.Stores recs) {save : Save} (hnew : ∀ r ∈ save.records, r.Fits) :
    (s.save save).Stores (save.run recs) := by
  cases save with
  | append new =>
    obtain ⟨ws, hfits, hfile, hws⟩ := h.file_eq
    refine ⟨fun r hr => (List.mem_append.mp hr).elim (h.fits r) (hnew r),
      ws ++ numbered s.seq new, fun w hw => (List.mem_append.mp hw).elim (hfits w)
        (numbered_fits hnew s.seq w), ?_, ?_⟩
    · show s.file ++ _ = _
      rw [hfile, Wal.encode_append]
    · rw [List.map_append, hws, numbered_value, ← List.map_append]
      rfl
  | replace new => exact replaced hnew _

/-- **A save that is cut at any byte** leaves what a cut between two records leaves. -/
theorem cut (h : s.Stores recs) {save : Save} (hnew : ∀ r ∈ save.records, r.Fits) (k : ℕ) :
    ∃ j, Shows (s.cut k save) (save.cut recs j) := by
  cases save with
  | append new =>
    obtain ⟨ws, hfits, hfile, hws⟩ := h.file_eq
    have hnew' : ∀ r ∈ new, r.Fits := hnew
    obtain ⟨qs, hqs, hholds⟩ := Wal.holds_torn hfits (numbered_fits hnew' s.seq) k
    refine ⟨qs.length, fun r hr => ?_, ws ++ qs, ?_, ?_⟩
    · exact (List.mem_append.mp hr).elim (h.fits r) fun hr => hnew r (List.mem_of_mem_take hr)
    · show Wal.Holds (s.file ++ _) _
      rw [hfile]
      exact hholds
    · have hq : qs.map Wal.Record.value = (new.take qs.length).map Record.value := by
        rw [List.map_take, ← numbered_value s.seq, ← List.map_take, ← List.prefix_iff_eq_take.mp
          hqs]
      show _ = (recs ++ new.take qs.length).map Record.value
      rw [List.map_append, List.map_append, hws, hq]
  | replace new =>
    refine ⟨k, ?_⟩
    show Shows (if k = 0 then s.file else Wal.encode (numbered 0 new)) (if k = 0 then recs else new)
    split_ifs
    · exact h.shows
    · exact (replaced hnew 0).shows

end PersistentStorage.Stores

end KvStore
