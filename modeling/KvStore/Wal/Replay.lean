import KvStore.Wal.Record
import Mathlib

/-!
# Replaying a log: the loop of `wal/replay.go`

`replayFrom` reads a header and a payload in turn, checks the declared length against what the file
has left, the checksum and the payload's structure, and truncates the file to its last whole record
at the first check that fails. A source may fail while it is read or truncated (`ReplaySource`). The
checksum is a parameter.

* `replayLoop_eq`: on a source that does not fail the loop computes `Framing.scan`, and says by how
  much it truncates.
* `replay_recovers`: a torn record is cut off and nothing else is, records that follow are replayed
  with the ones before, and replaying any file once more changes nothing.

A read that fails inside a header or a payload is taken for a torn write here, too, as in the
source.
-/

namespace KvStore.Wal

open Codec

/-- `headerSize`. -/
def headerSize : ℕ := 4 + 4

/-- `RecoveryStats`. -/
structure RecoveryStats where
  recordsRecovered : ℕ := 0
  tornWriteTruncated : Bool := false
  bytesTruncated : ℤ := 0
  deriving DecidableEq, Repr

/-- Why `io.ReadFull` did not fill its buffer. -/
inductive ReadError where
  | eof
  | unexpectedEOF
  | failed
  deriving DecidableEq, Repr

/-- The errors of `replayFrom`: a header could not be read, or the file could not be truncated. -/
inductive ReplayError where
  | readHeader (offset : ℕ)
  | truncate
  deriving DecidableEq, Repr

/-- `replaySource`: the bytes that are still to be read, after how many of them reading fails, if it
does, and whether `Truncate` fails. -/
structure ReplaySource where
  rest : Bytes
  failsAfter : Option ℕ := none
  truncateFails : Bool := false

namespace ReplaySource

/-- How many bytes can be read. -/
def readable (f : ReplaySource) : ℕ :=
  match f.failsAfter with
  | none => f.rest.length
  | some k => min k f.rest.length

/-- `io.ReadFull` into a buffer of `n` bytes: what was read, the error, and the source after it. -/
def readFull (f : ReplaySource) (n : ℕ) : Bytes × Option ReadError × ReplaySource :=
  let got := min n f.readable
  let err :=
    if n ≤ f.readable then none
    else if f.failsAfter.any (· ≤ f.rest.length) then some .failed
    else if got = 0 then some .eof
    else some .unexpectedEOF
  (f.rest.take got, err,
    { f with rest := f.rest.drop got, failsAfter := f.failsAfter.map (· - got) })

end ReplaySource

/-- What `replayFrom` returns, and the length it truncates the file to, if it does. -/
structure Replayed where
  records : List Record
  stats : RecoveryStats
  truncatedTo : Option ℕ
  deriving DecidableEq, Repr

/-- `os.File.Truncate`, which can also make a file longer. -/
def truncateFile (file : Bytes) (size : ℕ) : Bytes :=
  file.take size ++ List.replicate (size - file.length) 0

/-- The file after replaying. -/
def Replayed.file (r : Replayed) (file : Bytes) : Bytes :=
  match r.truncatedTo with
  | none => file
  | some size => truncateFile file size

/-- `truncateAndReturn`. -/
def truncateAndReturn (f : ReplaySource) (records : List Record) (validOffset fileSize : ℕ) :
    Except ReplayError Replayed :=
  let truncated : ℤ := fileSize - validOffset
  if f.truncateFails then .error .truncate
  else .ok ⟨records, ⟨records.length, decide (0 < truncated), truncated⟩, some validOffset⟩

/-- `binary.LittleEndian.Uint32` of four bytes or more. -/
def uint32 (b : Bytes) : ℕ := ((readLe32 b).map Prod.fst).getD 0

section

variable (checksum : Bytes → UInt32)

/-- The log's frames, with any checksum. -/
def framingWith : Framing Record := ⟨checksum, encodePayload, decodePayload⟩

/-- `encode` with any checksum, for the records of a batch. -/
def encodeWith (rs : List Record) : Bytes := (framingWith checksum).writeAll rs

/-- The loop of `replayFrom`. It ends with `none` if it has not stopped after `fuel` rounds. -/
def replayLoop (fileSize : ℕ) : ℕ → ReplaySource → List Record → ℕ →
    Option (Except ReplayError Replayed)
  | 0, _, _, _ => none
  | fuel + 1, f, records, offset =>
    match f.readFull headerSize with
    | (_, some .eof, _) =>
      -- a clean end: there is no partial header
      some (.ok ⟨records, { recordsRecovered := records.length }, none⟩)
    | (header, some err, f) =>
      if err = .unexpectedEOF ∨ (0 < header.length ∧ header.length < headerSize) then
        some (truncateAndReturn f records offset fileSize)
      else some (.error (.readHeader offset))
    | (header, none, f) =>
      let crc := uint32 (header.take 4)
      let length := uint32 (header.drop 4)
      if (length : ℤ) > fileSize - offset - headerSize then
        some (truncateAndReturn f records offset fileSize)
      else
        match f.readFull length with
        | (_, some _, f) => some (truncateAndReturn f records offset fileSize)
        | (payload, none, f) =>
          if (checksum payload).toNat ≠ crc then some (truncateAndReturn f records offset fileSize)
          else
            match decodePayload payload with
            | none => some (truncateAndReturn f records offset fileSize)
            | some rec => replayLoop fileSize fuel f (records ++ [rec])
                (offset + headerSize + length)

/-- `replayFrom`. A round that goes on has read a header, so that there are fewer rounds than
bytes. -/
def replayFrom (f : ReplaySource) (fileSize : ℕ) : Option (Except ReplayError Replayed) :=
  replayLoop checksum fileSize (f.rest.length + 1) f [] 0

/-- `Replay` of a file that can be opened and read. -/
def replayFile (file : Bytes) : Option (Except ReplayError Replayed) :=
  replayFrom checksum { rest := file } file.length

end

/-! ## Sources that do not fail -/

section

variable {checksum : Bytes → UInt32} {data : Bytes} {n : ℕ}

theorem readFull_of_le (h : n ≤ data.length) :
    ReplaySource.readFull ⟨data, none, false⟩ n =
    (data.take n, none, ⟨data.drop n, none, false⟩) := by
  simp [ReplaySource.readFull, ReplaySource.readable, h]

theorem readFull_of_lt (h : data.length < n) :
    ReplaySource.readFull ⟨data, none, false⟩ n =
      (data, some (if data = [] then .eof else .unexpectedEOF), ⟨[], none, false⟩) := by
  have hmin : min n data.length = data.length := by omega
  have hn : ¬n ≤ data.length := by omega
  by_cases hd : data = []
  · subst hd
    simp [ReplaySource.readFull, ReplaySource.readable, show n ≠ 0 by simpa using hn]
  · simp [ReplaySource.readFull, ReplaySource.readable, hmin, hd, hn]

/-- The frame behind a whole header is there if its length, its checksum and its structure are
right. -/
theorem read_header (checksum : Bytes → UInt32) {header : Bytes} (h : header.length = headerSize)
    (data : Bytes) : (framingWith checksum).read (header ++ data) =
      if data.length < uint32 (header.drop 4) then none
      else if (checksum (data.take (uint32 (header.drop 4)))).toNat ≠ uint32 (header.take 4) then
      none else (decodePayload (data.take (uint32 (header.drop 4)))).map fun rec =>
        (rec, data.drop (uint32 (header.drop 4))) := by
  match header, h with
  | [_, _, _, _, _, _, _, _], _ => rfl

theorem read_short (h : data.length < headerSize) : (framingWith checksum).read data = none := by
  unfold Framing.read
  split
  · rfl
  next sum data₁ h₁ =>
    have hlen := readLe32_length h₁
    rw [Framing.readLe32_none (by unfold headerSize at h; omega)]

end

/-! ## The loop computes the scan -/

section

variable {checksum : Bytes → UInt32} {data : Bytes}

/-- What replaying returns when the scan of what is left finds `rs` and the tail `tail`. -/
def replayedAt (records rs : List Record) (fileSize : ℕ) (tail : Bytes) : Replayed :=
  if tail = [] then ⟨records ++ rs, { recordsRecovered := (records ++ rs).length }, none⟩
  else ⟨records ++ rs, ⟨(records ++ rs).length, true, tail.length⟩, some (fileSize - tail.length)⟩

theorem truncateAndReturn_eq (records : List Record) {offset fileSize : ℕ} (hd : data ≠ [])
    (h : fileSize = offset + data.length) (rest : Bytes) :
    truncateAndReturn ⟨rest, none, false⟩ records offset fileSize =
      .ok (replayedAt records [] fileSize data) := by
  have hpos : 0 < data.length := List.length_pos_iff.mpr hd
  subst h
  have htrunc : ((offset + data.length : ℕ) : ℤ) - offset = data.length := by omega
  simp only [truncateAndReturn, htrunc, replayedAt, hd, if_false, List.append_nil,
    Nat.add_sub_cancel]
  simp [hpos]

theorem replayLoop_eq {fileSize fuel : ℕ} (records : List Record) (offset : ℕ)
    (hsize : fileSize = offset + data.length) (hfuel : data.length < fuel) :
    replayLoop checksum fileSize fuel ⟨data, none, false⟩ records offset =
      some (.ok (replayedAt records ((framingWith checksum).scan data).1 fileSize
        ((framingWith checksum).scan data).2)) := by
  -- a round reads one frame off the front, or stops where there is none
  induction fuel generalizing data records offset with
  | zero => omega
  | succ fuel ih =>
    have hstop : ∀ rest, data ≠ [] → (framingWith checksum).read data = none →
        some (truncateAndReturn ⟨rest, none, false⟩ records offset fileSize) =
          some (.ok (replayedAt records ((framingWith checksum).scan data).1 fileSize
            ((framingWith checksum).scan data).2)) := by
      intro rest hd hr
      rw [truncateAndReturn_eq records hd hsize, Framing.scan_eq, hr]
    unfold replayLoop
    by_cases hshort : data.length < headerSize
    · rw [readFull_of_lt hshort]
      by_cases hd : data = []
      · subst hd
        simp [replayedAt, Framing.scan, Framing.scanFrom]
      · simp only [hd, if_false, true_or, if_true]
        exact hstop _ hd (read_short hshort)
    rw [readFull_of_le (by omega)]
    have hheader : (data.take headerSize).length = headerSize := by rw [List.length_take]; omega
    have hd : data ≠ [] := by rintro rfl; simp [headerSize] at hshort
    have hread := read_header checksum hheader (data.drop headerSize)
    rw [List.take_append_drop] at hread
    generalize data.take headerSize = header at hread ⊢
    dsimp only
    generalize uint32 (header.drop 4) = length at hread ⊢
    have hdrop := List.length_drop (i := headerSize) (l := data)
    have hsize8 : headerSize = 8 := rfl
    by_cases hlen : (data.drop headerSize).length < length
    · rw [if_pos (by omega)]
      rw [if_pos hlen] at hread
      exact hstop _ hd hread
    rw [if_neg hlen] at hread
    rw [if_neg (by omega), readFull_of_le (by omega)]
    dsimp only
    by_cases hsum : (checksum ((data.drop headerSize).take length)).toNat ≠ uint32 (header.take 4)
    · rw [if_pos hsum] at hread ⊢
      exact hstop _ hd hread
    rw [if_neg hsum] at hread ⊢
    cases hdec : decodePayload ((data.drop headerSize).take length) with
    | none =>
      rw [hdec] at hread
      exact hstop _ hd hread
    | some rec =>
      rw [hdec] at hread
      dsimp only
      have hrest := List.length_drop (i := length) (l := data.drop headerSize)
      rw [ih (records ++ [rec]) (offset + headerSize + length) (by omega) (by omega),
        Framing.scan_eq data, hread]
      simp only [Option.map_some, replayedAt, List.append_assoc, List.singleton_append]

/-- What replaying returns and leaves of a file, by its scan. -/
theorem replayFile_of_scan {file front tail : Bytes} {rs : List Record}
    (hfile : file = front ++ tail) (h : (framingWith checksum).scan file = (rs, tail)) :
    ∃ out, replayFile checksum file = some (.ok out) ∧ out.records = rs ∧ out.file file = front ∧
      (tail = [] → out.truncatedTo = none ∧ out.stats = { recordsRecovered := rs.length }) := by
  have hrun : replayFile checksum file = _ :=
    replayLoop_eq [] 0 (Nat.zero_add _).symm (Nat.lt_succ_self _)
  rw [h] at hrun
  refine ⟨_, hrun, ?_⟩
  by_cases ht : tail = []
  · subst ht
    rw [List.append_nil] at hfile
    exact ⟨rfl, hfile, fun _ => ⟨rfl, rfl⟩⟩
  · refine ⟨by simp [replayedAt, ht], ?_, fun h => absurd h ht⟩
    subst hfile
    simp [replayedAt, ht, Replayed.file, truncateFile]

end

/-- What the recovery of the engine and of the log of raft uses of `Replay`. -/
theorem replayFile_crc32c (file : Bytes) : ∃ out, replayFile crc32c file = some (.ok out) ∧
    out.records = replay file ∧ out.file file = file.take (validLength file) := by
  obtain ⟨front, hfile, -⟩ := Framing.scan_front (F := framing) file
  have hscan : (framingWith crc32c).scan file = (replay file, (framing.scan file).2) := rfl
  obtain ⟨out, hrun, hrecs, hout, -⟩ := replayFile_of_scan hfile hscan
  have hvalid : validLength file = front.length := by
    have hlen := congrArg List.length hfile
    rw [List.length_append] at hlen
    unfold validLength
    omega
  refine ⟨out, hrun, hrecs, ?_⟩
  rw [hout, hvalid]
  exact List.prefix_iff_eq_take.mp ⟨_, hfile.symm⟩

/-! ## What replaying recovers -/

section

variable {checksum : Bytes → UInt32} {rs rs' : List Record} {r : Record} {t : Bytes}

theorem framingWith_fits (checksum : Bytes → UInt32) (h : ∀ r ∈ rs, r.Fits) :
    ∀ r ∈ rs, (framingWith checksum).Fits r :=
  fun r hr => (h r hr).fits

/-- A tail without a whole frame is cut off. -/
theorem replayFile_tail (h : ∀ r ∈ rs, r.Fits) (ht : (framingWith checksum).read t = none) :
    ∃ out, replayFile checksum (encodeWith checksum rs ++ t) = some (.ok out) ∧ out.records = rs ∧
      out.file (encodeWith checksum rs ++ t) = encodeWith checksum rs := by
  have hscan := Framing.scan_writeAll_append (framingWith_fits checksum h) t
  rw [Framing.scan_eq t, ht, List.append_nil] at hscan
  obtain ⟨out, hrun, hrecs, hfile, -⟩ := replayFile_of_scan rfl hscan
  exact ⟨out, hrun, hrecs, hfile⟩

theorem read_strict_part (h : r.Fits) (ht : t <+: encodeWith checksum [r])
    (hne : t ≠ encodeWith checksum [r]) : (framingWith checksum).read t = none := by
  have hone : encodeWith checksum [r] = (framingWith checksum).write r := List.append_nil _
  rw [hone] at ht hne
  rw [List.prefix_iff_eq_take.mp ht]
  have hfits : (framingWith checksum).Fits r := h.fits
  refine Framing.read_torn hfits (lt_of_le_of_ne ht.length_le fun hlen => hne ?_)
  exact ht.eq_of_length hlen

end

/-- **Replaying recovers exactly the whole records.** A record that was torn anywhere is cut off, so
that what is appended after it is replayed together with what stands before it. Records are
recovered whatever follows them. Replaying any file does not fail and leaves a part of its front,
and replaying that once more gives the same records and cuts nothing off. -/
theorem replay_recovers (checksum : Bytes → UInt32) :
    (∀ (rs rs' : List Record) (r : Record) (t : Bytes), (∀ q ∈ rs, q.Fits) →
      (∀ q ∈ rs', q.Fits) → r.Fits → t <+: encodeWith checksum [r] → t ≠ encodeWith checksum [r] →
      ∃ out, replayFile checksum (encodeWith checksum rs ++ t) = some (.ok out) ∧ out.records = rs ∧
        out.file (encodeWith checksum rs ++ t) = encodeWith checksum rs ∧
        ∃ out',
          replayFile checksum (out.file (encodeWith checksum rs ++ t) ++ encodeWith checksum rs') =
            some (.ok out') ∧ out'.records = rs ++ rs') ∧
    (∀ (rs : List Record) (t : Bytes), (∀ q ∈ rs, q.Fits) →
      ∃ out, replayFile checksum (encodeWith checksum rs ++ t) = some (.ok out) ∧
        rs <+: out.records) ∧
    (∀ file : Bytes, ∃ out, replayFile checksum file = some (.ok out) ∧ out.file file <+: file ∧
      ∃ out', replayFile checksum (out.file file) = some (.ok out') ∧ out'.records = out.records ∧
        out'.truncatedTo = none ∧ out'.stats = { recordsRecovered := out.records.length }) := by
  refine ⟨?_, ?_, ?_⟩
  · intro rs rs' r t hrs hrs' hr ht hne
    obtain ⟨out, hrun, hrecs, hfile⟩ := replayFile_tail hrs (read_strict_part hr ht hne)
    have hboth : ∀ q ∈ rs ++ rs', q.Fits := List.forall_mem_append.mpr ⟨hrs, hrs'⟩
    have hnil : (framingWith checksum).read [] = none := rfl
    obtain ⟨out', hrun', hrecs', -⟩ := replayFile_tail hboth hnil
    refine ⟨out, hrun, hrecs, hfile, out', ?_, hrecs'⟩
    rw [hfile]
    rwa [List.append_nil, encodeWith, Framing.writeAll_append] at hrun'
  · intro rs t hrs
    have hscan := Framing.scan_writeAll_append (framingWith_fits checksum hrs) t
    obtain ⟨front, hfront, -⟩ :=
      Framing.scan_front (F := framingWith checksum) (encodeWith checksum rs ++ t)
    obtain ⟨out, hrun, hrecs, -⟩ := replayFile_of_scan hfront Prod.mk.eta.symm
    refine ⟨out, hrun, ?_⟩
    rw [hrecs, encodeWith, hscan]
    exact List.prefix_append _ _
  · intro file
    obtain ⟨front, hfront, hagain⟩ := Framing.scan_front (F := framingWith checksum) file
    obtain ⟨out, hrun, hrecs, hfile, -⟩ := replayFile_of_scan hfront Prod.mk.eta.symm
    obtain ⟨out', hrun', hrecs', -, hclean⟩ :=
      replayFile_of_scan (List.append_nil front).symm hagain
    obtain ⟨hnone, hstats⟩ := hclean rfl
    refine ⟨out, hrun, ?_, out', ?_, ?_, hnone, ?_⟩
    · rw [hfile]
      exact ⟨_, hfront.symm⟩
    · rwa [hfile]
    · rw [hrecs', hrecs]
    · rw [hstats, hrecs]

/-- A log of one `Put`, and the first nineteen bytes of the next. -/
theorem replay_recovers_put : ∃ out,
    replayFile crc32c (encodeWith crc32c [⟨1, recordPut, [107], [118]⟩] ++
      (encodeWith crc32c [⟨2, recordPut, [107], []⟩]).take 19) = some (.ok out) ∧
    out.records = [⟨1, recordPut, [107], [118]⟩] := by
  obtain ⟨out, hrun, hrecs, -⟩ := (replay_recovers crc32c).1 [⟨1, recordPut, [107], [118]⟩] []
    ⟨2, recordPut, [107], []⟩ _ (by decide) (by decide) (by decide) (List.take_prefix 19 _)
      (by decide +kernel)
  exact ⟨out, hrun, hrecs⟩

end KvStore.Wal
