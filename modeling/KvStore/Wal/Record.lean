import KvStore.Codec.Frame
import KvStore.Raft.Types

/-!
# The write-ahead log of `wal/record.go` and `wal/replay.go`

A log file is a stream of frames, one a record, whose checksum is the CRC-32 of Castagnoli.

* `encodePayload`, `decodePayload`: a record's payload. The decoder ignores what follows the value.
* `replay`: the records of a file, and `validLength` where `Replay` truncates it: at the first frame
  that is not whole.
* `Holds file rs`: the file has the frames of `rs`, and nothing that replaying keeps after them.
* `holds_torn`: of a batch that was cut at any byte the whole records are there.
-/

namespace KvStore

open Codec

/-- `RecordType`. -/
abbrev RecordType := UInt8

/-- `RecordPut`. -/
def recordPut : RecordType := 0

/-- `RecordDelete`. -/
def recordDelete : RecordType := 1

namespace Wal

/-- `Record`. -/
structure Record where
  seqNum : UInt64
  type : RecordType
  key : Bytes
  value : Bytes
  deriving DecidableEq, Repr

/-- A 64-bit number, least significant byte first. -/
def le64 (n : UInt64) : Bytes := le32 (n.toNat % 2 ^ 32) ++ le32 (n.toNat / 2 ^ 32)

/-- Read a 64-bit number from the front. -/
def readLe64 (data : Bytes) : Option (UInt64 × Bytes) := do
  let (lo, data) ← readLe32 data
  let (hi, data) ← readLe32 data
  return (UInt64.ofNat (lo + 2 ^ 32 * hi), data)

/-- One round of the checksum: a byte, bit by bit. -/
def crcByte (crc : UInt32) (b : UInt8) : UInt32 :=
  (List.range 8).foldl
    (fun crc _ => if crc &&& 1 = 1 then (crc >>> 1) ^^^ 0x82F63B78 else crc >>> 1)
      (crc ^^^ b.toUInt32)

/-- `crc32.Checksum` with the table `crcTable`. -/
def crc32c (data : Bytes) : UInt32 := ~~~(data.foldl crcByte 0xFFFFFFFF)

/-- The check value of the CRC's catalogue entry, for the digits one to nine. -/
example : crc32c [0x31, 0x32, 0x33, 0x34, 0x35, 0x36, 0x37, 0x38, 0x39] = 0xE3069283 := by
  decide +kernel

/-- The payload part of `encode`. -/
def encodePayload (r : Record) : Bytes :=
  r.type :: (le64 r.seqNum ++ (writeLenPrefixed r.key ++ writeLenPrefixed r.value))

/-- `decodePayload`; `none` is `errCorruptRecord`. -/
def decodePayload (payload : Bytes) : Option Record := do
  let (type, payload) ← payload.head?.map fun b => (b, payload.tail)
  let (seqNum, payload) ← readLe64 payload
  let (key, payload) ← readLenPrefixed payload
  let (value, _) ← readLenPrefixed payload
  return ⟨seqNum, type, key, value⟩

/-- The log's frames. -/
def framing : Framing Record := ⟨crc32c, encodePayload, decodePayload⟩

/-- `encode`, for the records of a batch. -/
def encode (rs : List Record) : Bytes := framing.writeAll rs

/-- The records that `Replay` returns. -/
def replay (file : Bytes) : List Record := (framing.scan file).1

/-- The length `Replay` truncates the file to. -/
def validLength (file : Bytes) : ℕ := file.length - (framing.scan file).2.length

/-- The length of the record's payload fits the field. -/
def Record.Fits (r : Record) : Prop := 17 + r.key.length + r.value.length < 2 ^ 32

instance (r : Record) : Decidable r.Fits := inferInstanceAs (Decidable (_ < _))

/-! ## Round trips -/

theorem readLe64_le64 (n : UInt64) (rest : Bytes) : readLe64 (le64 n ++ rest) = some (n, rest) := by
  have hn := n.toNat_lt
  unfold readLe64 le64
  rw [List.append_assoc, readLe32_le32 (Nat.mod_lt _ (by decide))]
  simp only [Option.bind_eq_bind, Option.bind_some]
  rw [readLe32_le32 (by omega)]
  simp only [Option.bind_some, pure, Option.some.injEq, Prod.mk.injEq, and_true]
  rw [show n.toNat % 2 ^ 32 + 2 ^ 32 * (n.toNat / 2 ^ 32) = n.toNat by omega, UInt64.ofNat_toNat]

theorem length_encodePayload (r : Record) :
    (encodePayload r).length = 17 + r.key.length + r.value.length := by
  simp only [encodePayload, le64, writeLenPrefixed, List.length_cons, List.length_append,
    Framing.length_le32]
  omega

/-- A record whose payload fits is read back. -/
theorem Record.Fits.fits {r : Record} (h : r.Fits) : framing.Fits r := by
  unfold Record.Fits at h
  refine ⟨?_, ?_⟩
  · rwa [show framing.encode r = encodePayload r from rfl, length_encodePayload]
  show decodePayload (encodePayload r) = some r
  unfold decodePayload encodePayload
  simp only [List.head?_cons, Option.map_some, List.tail_cons, Option.bind_eq_bind,
    Option.bind_some, readLe64_le64]
  have hkey : r.key.length < 2 ^ 32 := by omega
  have hvalue : r.value.length < 2 ^ 32 := by omega
  rw [readLenPrefixed_append hkey _ (by
    rw [List.length_append, writeLenPrefixed, List.length_append, Framing.length_le32,
      Nat.mod_eq_of_lt (by omega)]
    omega)]
  simp only [Option.bind_some]
  have hlast := readLenPrefixed_append hvalue [] (by
    rw [List.append_nil, Nat.mod_eq_of_lt hvalue])
  rw [List.append_nil] at hlast
  rw [hlast]
  rfl

/-! ## Replaying -/

/-- The file holds the records, up to a tail that replaying drops. -/
structure Holds (file : Bytes) (rs : List Record) : Prop where
  fits : ∀ r ∈ rs, r.Fits
  replay_eq : replay file = rs
  valid_eq : file.take (validLength file) = encode rs

theorem encode_append (rs rs' : List Record) : encode (rs ++ rs') = encode rs ++ encode rs' :=
  Framing.writeAll_append rs rs'

theorem framing_fits {rs : List Record} (h : ∀ r ∈ rs, r.Fits) : ∀ r ∈ rs, framing.Fits r :=
  fun r hr => (h r hr).fits

/-- **A batch that was cut at any byte leaves the records that are whole.** -/
theorem holds_torn {rs rs' : List Record} (h : ∀ r ∈ rs, r.Fits) (h' : ∀ r ∈ rs', r.Fits) (k : ℕ) :
    ∃ qs, qs <+: rs' ∧ Holds (encode rs ++ (encode rs').take k) (rs ++ qs) := by
  obtain ⟨qs, t, hqs, htake, hscan⟩ := Framing.scan_take (framing_fits h') k
  have hall := Framing.scan_writeAll_append (framing_fits h) ((encode rs').take k)
  have hscan' : framing.scan (encode rs ++ (encode rs').take k) = (rs ++ qs, t) := by
    rw [show encode rs = framing.writeAll rs from rfl, hall]
    exact congrArg (fun p : List Record × Bytes => (rs ++ p.1, p.2)) hscan
  refine ⟨qs, hqs, fun r hr => ?_, by rw [replay, hscan'], ?_⟩
  · rcases List.mem_append.mp hr with hr | hr
    · exact h r hr
    · exact h' r (hqs.subset hr)
  · rw [validLength, hscan', show (encode rs').take k = encode qs ++ t from
      htake, ← List.append_assoc, ← encode_append, List.length_append, Nat.add_sub_cancel,
        List.take_left]

theorem holds_encode {rs : List Record} (h : ∀ r ∈ rs, r.Fits) : Holds (encode rs) rs := by
  obtain ⟨qs, hqs, hh⟩ := holds_torn h (fun r (hr : r ∈ []) => absurd hr List.not_mem_nil) 0
  cases List.prefix_nil.mp hqs
  rwa [List.take_zero, List.append_nil, List.append_nil] at hh

theorem holds_nil : Holds [] [] := holds_encode fun _ h => absurd h List.not_mem_nil

/-- Replaying leaves a file that holds the same records. -/
theorem Holds.truncated {file : Bytes} {rs : List Record} (h : Holds file rs) :
    Holds (file.take (validLength file)) rs := by
  rw [h.valid_eq]
  exact holds_encode h.fits

end Wal

/-- The highest sequence number of the records. -/
def maxSeqOf (rs : List Wal.Record) : UInt64 :=
  rs.foldl (fun m r => if m < r.seqNum then r.seqNum else m) 0

end KvStore
