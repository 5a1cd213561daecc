import KvStore.Wal.Record

/-!
# Messages on the wire: `transport/codec.go`

`encodeMessage` computes a message's size, makes a buffer of that size and puts the fields into it
one after the other. `decodeMessage` reads them back from untrusted bytes.

* A `Packer` is the buffer and the offset up to which it is filled. A put that does not fit is a
  panic (`none`); `copy` copies what fits.
* The decoder's place is the part of its input from its offset on, so that `len(data)-off` is the
  length of that part. A read past its end is a panic (`outOfRange`), which is not the decoder's
  error (`malformed`).
* `decode_encode`: a message that is at most `maxMessageSize` long comes back, and its buffer is
  full.

The numbers of a message are 64 bits wide here, unlike in the model of raft.
-/

namespace KvStore.Transport

open Codec Wal

/-- `raft.LogEntry`. -/
structure WireEntry where
  term : UInt64
  index : UInt64
  data : Bytes
  deriving DecidableEq, Repr

/-- `raft.Snapshot`. -/
structure WireSnapshot where
  lastIncludedIndex : UInt64 := 0
  lastIncludedTerm : UInt64 := 0
  data : Bytes := []
  deriving DecidableEq, Repr

/-- `raft.Message`. -/
structure WireMessage where
  type : ℕ
  fromId : UInt64 := 0
  toId : UInt64 := 0
  term : UInt64 := 0
  lastLogIndex : UInt64 := 0
  lastLogTerm : UInt64 := 0
  voteGranted : Bool := false
  prevLogIndex : UInt64 := 0
  prevLogTerm : UInt64 := 0
  entries : List WireEntry := []
  leaderCommit : UInt64 := 0
  success : Bool := false
  matchIndex : UInt64 := 0
  readContext : UInt64 := 0
  snapshot : WireSnapshot := {}
  deriving DecidableEq, Repr

/-- `fixedFieldsSize`. -/
def fixedFieldsSize : ℕ := 1 + 8 + 8 + 8 + 8 + 8 + 1 + 8 + 8 + 4 + 8 + 1 + 8 + 8 + 8 + 8 + 4

/-- `entryHeaderSize`. -/
def entryHeaderSize : ℕ := 8 + 8 + 4

/-- `maxMessageSize`. -/
def maxMessageSize : ℕ := 64 * 1024 * 1024

/-! ## Encoding -/

/-- A buffer that is filled from the front: what is written, and how many bytes follow. -/
structure Packer where
  room : ℕ
  written : Bytes := []

namespace Packer

/-- Write all of `p`, if there is room. -/
def put (b : Packer) (p : Bytes) : Option Packer :=
  if p.length ≤ b.room then some ⟨b.room - p.length, b.written ++ p⟩ else none

/-- Write as much of `p` as there is room for. -/
def copy (b : Packer) (p : Bytes) : Packer := ⟨b.room - p.length, b.written ++ p.take b.room⟩

/-- The whole buffer. -/
def bytes (b : Packer) : Bytes := b.written ++ List.replicate b.room 0

end Packer

/-- `boolByte`. -/
def boolByte (b : Bool) : UInt8 := if b then 1 else 0

/-- The size `encodeMessage` computes. -/
def messageSize (m : WireMessage) : ℕ :=
  m.entries.foldl (fun size e => size + (entryHeaderSize + e.data.length)) fixedFieldsSize +
    m.snapshot.data.length

/-- The loop of `encodeMessage` over the entries. -/
def putEntries : List WireEntry → Packer → Option Packer
  | [], b => some b
  | e :: es, b => do
    let b ← b.put (le64 e.term)
    let b ← b.put (le64 e.index)
    let b ← b.put (le32 e.data.length)
    putEntries es (b.copy e.data)

/-- `encodeMessage`. -/
def encodeMessage (m : WireMessage) : Option Packer := do
  let b : Packer := { room := messageSize m }
  let b ← b.put [UInt8.ofNat m.type]
  let b ← b.put (le64 m.fromId)
  let b ← b.put (le64 m.toId)
  let b ← b.put (le64 m.term)
  let b ← b.put (le64 m.lastLogIndex)
  let b ← b.put (le64 m.lastLogTerm)
  let b ← b.put [boolByte m.voteGranted]
  let b ← b.put (le64 m.prevLogIndex)
  let b ← b.put (le64 m.prevLogTerm)
  let b ← b.put (le32 m.entries.length)
  let b ← putEntries m.entries b
  let b ← b.put (le64 m.leaderCommit)
  let b ← b.put [boolByte m.success]
  let b ← b.put (le64 m.matchIndex)
  let b ← b.put (le64 m.readContext)
  let b ← b.put (le64 m.snapshot.lastIncludedIndex)
  let b ← b.put (le64 m.snapshot.lastIncludedTerm)
  let b ← b.put (le32 m.snapshot.data.length)
  return b.copy m.snapshot.data

/-! ## Decoding -/

/-- How decoding can fail: with `errMalformedMessage`, or by reading past the end of its input. -/
inductive DecodeFault where
  | malformed
  | outOfRange
  deriving DecidableEq, Repr

/-- `data[off]`. -/
def getByte : Bytes → Except DecodeFault (UInt8 × Bytes)
  | [] => .error .outOfRange
  | b :: data => .ok (b, data)

/-- `getUint64`. -/
def getUint64 (data : Bytes) : Except DecodeFault (UInt64 × Bytes) :=
  match readLe64 data with
  | none => .error .outOfRange
  | some p => .ok p

/-- `binary.LittleEndian.Uint32(data[off:])`. -/
def getUint32 (data : Bytes) : Except DecodeFault (ℕ × Bytes) :=
  match readLe32 data with
  | none => .error .outOfRange
  | some p => .ok p

/-- `data[off : off+n]`. -/
def getSlice (n : ℕ) (data : Bytes) : Except DecodeFault (Bytes × Bytes) :=
  if n ≤ data.length then .ok (data.take n, data.drop n) else .error .outOfRange

/-- Bytes with their length before them, which is compared with the length of what is left in 32
bits. -/
def getData (data : Bytes) : Except DecodeFault (Bytes × Bytes) := do
  let (dlen, data) ← getUint32 data
  if data.length % 2 ^ 32 < dlen then .error .malformed else getSlice dlen data

/-- The part of `decodeMessage` before the entries: the fields, and the number of entries. -/
def decodeHead (data : Bytes) : Except DecodeFault ((WireMessage × ℕ) × Bytes) :=
  if data.length < fixedFieldsSize then .error .malformed
  else do
    let (type, data) ← getByte data
    let (fromId, data) ← getUint64 data
    let (toId, data) ← getUint64 data
    let (term, data) ← getUint64 data
    let (lastLogIndex, data) ← getUint64 data
    let (lastLogTerm, data) ← getUint64 data
    let (voteGranted, data) ← getByte data
    let (prevLogIndex, data) ← getUint64 data
    let (prevLogTerm, data) ← getUint64 data
    let (count, data) ← getUint32 data
    let maxPossibleEntries := data.length % 2 ^ 32 / entryHeaderSize
    if maxPossibleEntries < count then .error .malformed
    else
      return (({ type := type.toNat, fromId, toId, term, lastLogIndex, lastLogTerm,
                 voteGranted := voteGranted != 0, prevLogIndex, prevLogTerm }, count), data)

/-- The loop of `decodeMessage` over the entries. -/
def decodeEntries : ℕ → Bytes → Except DecodeFault (List WireEntry × Bytes)
  | 0, data => .ok ([], data)
  | count + 1, data =>
    if data.length < entryHeaderSize then .error .malformed
    else do
      let (term, data) ← getUint64 data
      let (index, data) ← getUint64 data
      let (bytes, data) ← getData data
      let (entries, data) ← decodeEntries count data
      return (⟨term, index, bytes⟩ :: entries, data)

/-- The part of `decodeMessage` after the entries. -/
def decodeTail (m : WireMessage) (data : Bytes) : Except DecodeFault WireMessage :=
  if data.length < 8 + 1 + 8 + 8 then .error .malformed
  else do
    let (leaderCommit, data) ← getUint64 data
    let (success, data) ← getByte data
    let (matchIndex, data) ← getUint64 data
    let (readContext, data) ← getUint64 data
    if data.length < 8 + 8 + 4 then .error .malformed
    else
      let (lastIncludedIndex, data) ← getUint64 data
      let (lastIncludedTerm, data) ← getUint64 data
      let (bytes, _) ← getData data
      return { m with leaderCommit, success := success != 0, matchIndex, readContext,
                      snapshot := ⟨lastIncludedIndex, lastIncludedTerm, bytes⟩ }

/-- What a call of `decodeMessage` does: the length of the slice it allocates for the entries, and
what it returns. -/
structure Decoding where
  allocated : ℕ
  result : Except DecodeFault WireMessage

/-- `decodeMessage`. -/
def decodeMessage (data : Bytes) : Decoding :=
  match decodeHead data with
  | .error fault => ⟨0, .error fault⟩
  | .ok ((m, count), data) =>
    ⟨count, do
      let (entries, data) ← decodeEntries count data
      decodeTail { m with entries } data⟩

/-! ## The buffer is filled -/

section

-- with the rest of the function, so that its puts are rewritten one after the other
variable {n : ℕ} {w : Bytes} {k : Packer → Option Packer}

theorem put_byte_bind (b : UInt8) : (Packer.put ⟨1 + n, w⟩ [b] >>= k) = k ⟨n, w ++ [b]⟩ := by
  simp [Packer.put]

theorem put_le64_bind (v : UInt64) : (Packer.put ⟨8 + n, w⟩ (le64 v) >>= k) =
    k ⟨n, w ++ le64 v⟩ := by
  simp [Packer.put, le64, Framing.length_le32]

theorem put_le32_bind (v : ℕ) : (Packer.put ⟨4 + n, w⟩ (le32 v) >>= k) = k ⟨n, w ++ le32 v⟩ := by
  simp [Packer.put, Framing.length_le32]

theorem copy_append (p : Bytes) : Packer.copy ⟨p.length + n, w⟩ p = ⟨n, w ++ p⟩ := by
  simp [Packer.copy]

end

/-- An entry on the wire. -/
def entryBytes (e : WireEntry) : Bytes :=
  le64 e.term ++ (le64 e.index ++ (le32 e.data.length ++ e.data))

/-- The size of entries on the wire. -/
def entriesSize (es : List WireEntry) : ℕ := (es.map fun e => entryHeaderSize + e.data.length).sum

theorem putEntries_eq (es : List WireEntry) (n : ℕ) (w : Bytes) :
    putEntries es ⟨entriesSize es + n, w⟩ = some ⟨n, w ++ es.flatMap entryBytes⟩ := by
  induction es generalizing w with
  | nil => simp [putEntries, entriesSize]
  | cons e es ih =>
    have hroom : entriesSize (e :: es) + n =
        8 + (8 + (4 + (e.data.length + (entriesSize es + n)))) := by
      simp only [entriesSize, List.map_cons, List.sum_cons, entryHeaderSize]
      omega
    simp only [putEntries, hroom, put_le64_bind, put_le32_bind, copy_append, ih, List.flatMap_cons,
      entryBytes, List.append_assoc]

theorem putEntries_bind (es : List WireEntry) {n : ℕ} {w : Bytes} {k : Packer → Option Packer} :
    (putEntries es ⟨entriesSize es + n, w⟩ >>= k) = k ⟨n, w ++ es.flatMap entryBytes⟩ := by
  rw [putEntries_eq]
  rfl

theorem messageSize_eq (m : WireMessage) :
    messageSize m = fixedFieldsSize + entriesSize m.entries + m.snapshot.data.length := by
  have hfold : ∀ (es : List WireEntry) (k : ℕ),
      es.foldl (fun size e => size + (entryHeaderSize + e.data.length)) k = k + entriesSize es := by
    intro es
    induction es with
    | nil => intro k; rfl
    | cons e es ih =>
      intro k
      rw [List.foldl_cons, ih, entriesSize, entriesSize, List.map_cons, List.sum_cons,
        Nat.add_assoc]
  rw [messageSize, hfold]

/-- The fields before the entries, with the number of entries. -/
def headBytes (m : WireMessage) : Bytes :=
  [UInt8.ofNat m.type] ++ (le64 m.fromId ++ (le64 m.toId ++ (le64 m.term ++ (le64 m.lastLogIndex ++
    (le64 m.lastLogTerm ++
      ([boolByte m.voteGranted] ++
        (le64 m.prevLogIndex ++ (le64 m.prevLogTerm ++ le32 m.entries.length))))))))

/-- The fields after the entries. -/
def tailBytes (m : WireMessage) : Bytes :=
  le64 m.leaderCommit ++ ([boolByte m.success] ++ (le64 m.matchIndex ++ (le64 m.readContext ++
    (le64 m.snapshot.lastIncludedIndex ++ (le64 m.snapshot.lastIncludedTerm ++
      (le32 m.snapshot.data.length ++ m.snapshot.data))))))

/-- The fields fill the buffer. -/
theorem encodeMessage_eq (m : WireMessage) :
    encodeMessage m = some ⟨0, headBytes m ++ (m.entries.flatMap entryBytes ++ tailBytes m)⟩ := by
  have hroom :
      messageSize m =
        1 +
          (8 +
            (8 +
              (8 +
                (8 +
                  (8 +
                    (1 +
                      (8 +
                        (8 +
                          (4 +
                            (entriesSize m.entries +
                              (8 +
                                (1 +
                                  (8 +
                                    (8 +
                                      (8 + (8 + (4 + (m.snapshot.data.length + 0))))))))))))))))))
                                        := by
    rw [messageSize_eq, fixedFieldsSize]
    omega
  rw [encodeMessage, hroom]
  simp only [put_byte_bind, put_le64_bind, put_le32_bind, copy_append, putEntries_bind]
  simp only [pure, headBytes, tailBytes, List.append_assoc, List.nil_append]

/-! ## Round trip -/

section

variable {rest : Bytes}

theorem getUint64_le64 (v : UInt64) : getUint64 (le64 v ++ rest) = .ok (v, rest) := by
  rw [getUint64, readLe64_le64]

theorem getUint32_le32 {n : ℕ} (h : n < 2 ^ 32) : getUint32 (le32 n ++ rest) = .ok (n, rest) := by
  rw [getUint32, readLe32_le32 h]

theorem getByte_cons (b : UInt8) : getByte ([b] ++ rest) = .ok (b, rest) := rfl

/-- Bytes are read back if what follows them does not wrap the length around. -/
theorem getData_append {d : Bytes} (h : (d ++ rest).length < 2 ^ 32) :
    getData (le32 d.length ++ (d ++ rest)) = .ok (d, rest) := by
  have hd : d.length ≤ (d ++ rest).length := by rw [List.length_append]; omega
  rw [getData, getUint32_le32 (by omega)]
  dsimp only [bind, Except.bind]
  rw [if_neg (by rw [Nat.mod_eq_of_lt h]; omega), getSlice, if_pos hd, List.take_left,
    List.drop_left]

end

theorem length_entryBytes (e : WireEntry) :
    (entryBytes e).length = entryHeaderSize + e.data.length := by
  simp only [entryBytes, le64, List.length_append, Framing.length_le32, entryHeaderSize]
  omega

theorem length_flatMap_entryBytes (es : List WireEntry) :
    (es.flatMap entryBytes).length = entriesSize es := by
  simp only [List.length_flatMap, length_entryBytes, entriesSize]

theorem length_mul_le_entriesSize (es : List WireEntry) :
    es.length * entryHeaderSize ≤ entriesSize es := by
  induction es with
  | nil => exact Nat.zero_le _
  | cons e es ih =>
    have hcons : entriesSize (e :: es) = entryHeaderSize + e.data.length + entriesSize es := rfl
    rw [List.length_cons, hcons, Nat.succ_mul]
    omega

theorem length_tailBytes (m : WireMessage) :
    (tailBytes m).length = 8 + 1 + 8 + 8 + (8 + 8 + 4) + m.snapshot.data.length := by
  simp only [tailBytes, le64, List.length_append, Framing.length_le32, List.length_singleton]
  omega

theorem decodeEntries_append (es : List WireEntry) {rest : Bytes}
    (h : (es.flatMap entryBytes ++ rest).length < 2 ^ 32) :
    decodeEntries es.length (es.flatMap entryBytes ++ rest) = .ok (es, rest) := by
  induction es with
  | nil => rfl
  | cons e es ih =>
    rw [List.flatMap_cons, List.append_assoc, List.length_append, length_entryBytes] at h
    have hlen : ¬(entryBytes e ++ (es.flatMap entryBytes ++ rest)).length < entryHeaderSize := by
      rw [List.length_append, length_entryBytes]
      omega
    rw [List.length_cons, List.flatMap_cons, List.append_assoc, decodeEntries, if_neg hlen]
    simp only [entryBytes, List.append_assoc, getUint64_le64, bind, Except.bind]
    rw [getData_append (by rw [List.length_append]; omega)]
    dsimp only
    rw [ih (by omega)]
    rfl

theorem boolByte_ne_zero (b : Bool) : (boolByte b != 0) = b := by cases b <;> rfl

theorem length_headBytes (m : WireMessage) : (headBytes m).length = 1 + 8 * 5 + 1 + 8 * 2 + 4 := by
  simp only [headBytes, le64, List.length_append, Framing.length_le32, List.length_singleton]

theorem decodeHead_append {m : WireMessage} (htype : m.type < 256) {rest : Bytes}
    (hfixed : fixedFieldsSize ≤ (headBytes m ++ rest).length) (hrest : rest.length < 2 ^ 32)
    (hcount : m.entries.length * entryHeaderSize ≤ rest.length) :
    decodeHead (headBytes m ++ rest) =
      .ok (({ m with entries := [], leaderCommit := 0, success := false, matchIndex := 0,
                     readContext := 0, snapshot := {} }, m.entries.length), rest) := by
  have hn : m.entries.length < 2 ^ 32 := by unfold entryHeaderSize at hcount; omega
  have hmax : ¬rest.length % 2 ^ 32 / entryHeaderSize < m.entries.length := by
    rw [Nat.mod_eq_of_lt hrest, Nat.not_lt, Nat.le_div_iff_mul_le (by decide)]
    exact hcount
  rw [decodeHead, if_neg (by omega)]
  simp only [headBytes, List.append_assoc, getByte_cons, getUint64_le64, getUint32_le32 hn, bind,
    Except.bind, if_neg hmax, boolByte_ne_zero, pure, Except.pure]
  rw [UInt8.toNat_ofNat', Nat.mod_eq_of_lt htype]

theorem decodeTail_bytes (m m' : WireMessage) (h : m.snapshot.data.length < 2 ^ 32) :
    decodeTail m' (tailBytes m) =
      .ok
    { m' with leaderCommit := m.leaderCommit, success := m.success, matchIndex := m.matchIndex,
                    readContext := m.readContext, snapshot := m.snapshot } := by
  have hlen := length_tailBytes m
  have hdata : getData (le32 m.snapshot.data.length ++ m.snapshot.data) =
      .ok (m.snapshot.data, []) := by
    have hd : getData (le32 m.snapshot.data.length ++ (m.snapshot.data ++ [])) =
      .ok (m.snapshot.data, []) :=
      getData_append (by rwa [List.append_nil])
    rwa [List.append_nil] at hd
  rw [decodeTail, if_neg (by omega)]
  have hsnap : ¬(le64 m.snapshot.lastIncludedIndex ++ (le64 m.snapshot.lastIncludedTerm ++
      (le32 m.snapshot.data.length ++ m.snapshot.data))).length < 8 + 8 + 4 := by
    simp only [le64, List.length_append, Framing.length_le32]
    omega
  simp only [tailBytes, getUint64_le64, getByte_cons, bind, Except.bind, if_neg hsnap, hdata,
    boolByte_ne_zero, pure, Except.pure]

/-- The bytes of a message. -/
def encoding (m : WireMessage) : Bytes :=
  headBytes m ++ (m.entries.flatMap entryBytes ++ tailBytes m)

/-- A message has the size that was computed for it. -/
theorem length_encoding (m : WireMessage) : (encoding m).length = messageSize m := by
  rw [encoding, List.length_append, List.length_append, length_headBytes, length_flatMap_entryBytes,
    length_tailBytes, messageSize_eq, show fixedFieldsSize = 107 from rfl]
  omega

theorem decodeMessage_encoding {m : WireMessage} (htype : m.type < 256)
    (hsize : messageSize m ≤ maxMessageSize) : (decodeMessage (encoding m)).result = .ok m := by
  have hmax : maxMessageSize = 67108864 := rfl
  have hfixed : fixedFieldsSize = 107 := rfl
  have heq := messageSize_eq m
  have hlen := length_encoding m
  have htail := length_tailBytes m
  have hcount := length_mul_le_entriesSize m.entries
  have hrest : (m.entries.flatMap entryBytes ++ tailBytes m).length =
      entriesSize m.entries + (tailBytes m).length := by
        rw [List.length_append, length_flatMap_entryBytes]
  have hes : decodeEntries m.entries.length (m.entries.flatMap entryBytes ++ tailBytes m) =
      .ok (m.entries, tailBytes m) := decodeEntries_append m.entries (by omega)
  unfold encoding at hlen ⊢
  rw [decodeMessage, decodeHead_append htype (by omega) (by omega) (by omega)]
  simp only [hes, bind, Except.bind]
  rw [decodeTail_bytes m _ (by omega)]

/-- **Round trip on the wire.** A message whose encoding is at most `maxMessageSize` long is decoded
to itself, and its fields fill the buffer that was made for them exactly. -/
theorem decode_encode (m : WireMessage) (htype : m.type < 256)
    (hsize : messageSize m ≤ maxMessageSize) : ∃ b, encodeMessage m = some b ∧ b.room = 0 ∧
      b.bytes.length = messageSize m ∧ (decodeMessage b.bytes).result = .ok m := by
  have hbytes : (⟨0, encoding m⟩ : Packer).bytes = encoding m := List.append_nil _
  refine ⟨_, encodeMessage_eq m, rfl, ?_, ?_⟩
  · exact hbytes ▸ length_encoding m
  · exact hbytes ▸ decodeMessage_encoding htype hsize

/-- An `AppendEntries` with two entries, one of them empty. -/
theorem decode_encode_two : ∃ b,
    encodeMessage
    { type := 4, fromId := 1, toId := 2, term := 3, entries := [⟨2, 7, []⟩, ⟨3, 8, [1, 2]⟩] } =
      some b ∧ b.room = 0 ∧
    (decodeMessage b.bytes).result =
      .ok
    { type := 4, fromId := 1, toId := 2, term := 3, entries := [⟨2, 7, []⟩, ⟨3, 8, [1, 2]⟩] } := by
  obtain ⟨b, hb, hroom, -, hres⟩ := decode_encode
    { type := 4, fromId := 1, toId := 2, term := 3, entries := [⟨2, 7, []⟩, ⟨3, 8, [1, 2]⟩] }
        (by decide)
    (by decide)
  exact ⟨b, hb, hroom, hres⟩

end KvStore.Transport
