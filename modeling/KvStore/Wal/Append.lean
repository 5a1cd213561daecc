import KvStore.Codec.Buffered
import KvStore.Wal.Replay

/-!
# Appending to a log: `wal/wal.go`

A `Log` is an open log file behind a buffered writer. Any write to the file may fail after a part of
its bytes, and any `Sync` and the `Close` of the file may fail.

* `appendBatch` writes the records one after the other, flushes, and syncs the file if the log was
  opened with `SyncOnWrite`; it returns the first error. `sync` and `close` are the other calls that
  write.
* `Log.Keeps rs done`: the file has the records of `rs` and of the batches `done`, and the writer is
  in order, or it has failed and a part of one more batch follows.
* `acknowledged_survive`: the records of every batch that was acknowledged are replayed, whole and
  in order, whatever other calls failed.

A `Sync` that fails leaves its batch in the file: that batch is replayed, though it was not
acknowledged.
-/

namespace KvStore.Wal

open Codec

/-- The errors of the calls on a log: `append to closed log`, `write`, `flush` and `fsync` of
`AppendBatch`; `Sync`'s own; `flush on close` and `fsync on close`, and the one of closing the
file. -/
inductive LogError where
  | appendToClosed
  | write
  | flush
  | fsync
  | sync
  | flushOnClose
  | fsyncOnClose
  | close
  deriving DecidableEq, Repr

/-- `WAL`. The sink of the writer is the file. `syncFaults` says which `Sync`s of the file that are
to come fail, and `closeFails` whether closing it does. -/
structure Log where
  writer : Writer
  syncFaults : List Bool := []
  closeFails : Bool := false
  syncOnWrite : Bool
  closed : Bool := false
  lastSeq : UInt64 := 0

namespace Log

/-- The bytes of the file. -/
def file (w : Log) : Bytes := w.writer.sink.bytes

/-- `Sync` of the file: whether it succeeds. -/
def syncFile (w : Log) : Bool × Log :=
  (!w.syncFaults.headD false, { w with syncFaults := w.syncFaults.tail })

/-- The loop of `AppendBatch`. -/
def writeRecords : List Record → Log → Option LogError × Log
  | [], w => (none, w)
  | rec :: recs, w =>
    match w.writer.write (encode [rec]) with
    | (false, writer) => (some .write, { w with writer := writer })
    | (true, writer) =>
      writeRecords recs
        { w with writer := writer,
                 lastSeq := if w.lastSeq < rec.seqNum then rec.seqNum else w.lastSeq }

/-- The end of `AppendBatch`: flush, and sync the file if the log is to. -/
def flushBatch (w : Log) : Option LogError × Log :=
  match w.writer.flush with
  | (false, writer) => (some .flush, { w with writer := writer })
  | (true, writer) =>
    let w := { w with writer := writer }
    if w.syncOnWrite then (if w.syncFile.1 then none else some .fsync, w.syncFile.2) else (none, w)

/-- `AppendBatch`. -/
def appendBatch (recs : List Record) (w : Log) : Option LogError × Log :=
  if recs = [] then (none, w)
  else if w.closed then (some .appendToClosed, w)
  else
    match w.writeRecords recs with
    | (some err, w) => (some err, w)
    | (none, w) => w.flushBatch

/-- `Sync`. -/
def sync (w : Log) : Option LogError × Log :=
  if w.closed then (none, w)
  else
    match w.writer.flush with
    | (false, writer) => (some .flush, { w with writer := writer })
    | (true, writer) =>
      let w := { w with writer := writer }
      (if w.syncFile.1 then none else some .sync, w.syncFile.2)

/-- `Close`. -/
def close (w : Log) : Option LogError × Log :=
  if w.closed then (none, w)
  else
    let w := { w with closed := true }
    match w.writer.flush with
    | (false, writer) => (some .flushOnClose, { w with writer := writer })
    | (true, writer) =>
      let w := { w with writer := writer }
      (if !w.syncFile.1 then some .fsyncOnClose else if w.closeFails then some .close else none,
        w.syncFile.2)

end Log

/-- `Open` of a log whose file is there: nothing is replayed. -/
def openLog (file : Bytes) (size : ℕ) (syncOnWrite : Bool) (faults : List (Option ℕ))
    (syncFaults : List Bool) (closeFails : Bool) : Log :=
  { writer := { size := size, sink := ⟨file, faults⟩ }, syncFaults := syncFaults,
    closeFails := closeFails, syncOnWrite := syncOnWrite }

/-- The calls that write. -/
inductive LogCall where
  | appendBatch (recs : List Record)
  | sync
  | close
  deriving DecidableEq, Repr

namespace Log

/-- Make a call. -/
def call (w : Log) : LogCall → Option LogError × Log
  | .appendBatch recs => w.appendBatch recs
  | .sync => w.sync
  | .close => w.close

/-- Make calls one after the other; each is returned with its error. -/
def run : List LogCall → Log → List (LogCall × Option LogError) × Log
  | [], w => ([], w)
  | c :: cs, w => ((c, (w.call c).1) :: (run cs (w.call c).2).1, (run cs (w.call c).2).2)

end Log

/-- The batch of a call that was acknowledged. -/
def LogCall.acknowledged : LogCall × Option LogError → Option (List Record)
  | (.appendBatch recs, none) => some recs
  | _ => none

/-! ## What a log keeps -/

namespace Log

/-- The writer of a log whose file has `base`: either that is all and the writer is in order, or the
writer has failed and a part of one more batch follows. -/
inductive State (base : Bytes) (writer : Writer) : Prop
  | whole (h : writer.Holds base [])
  | torn (batch : List Record) (hfits : ∀ r ∈ batch, r.Fits) (h : writer.Broken base (encode batch))

/-- The file has the records of `rs` and of the batches `done`, and at most a part of one more
batch, after which nothing can be appended. -/
structure Keeps (rs : List Record) (done : List (List Record)) (w : Log) : Prop where
  fits : ∀ r ∈ rs ++ done.flatten, r.Fits
  state : State (encode (rs ++ done.flatten)) w.writer

variable {rs recs : List Record} {done : List (List Record)} {w : Log} {base data : Bytes}

/-- The records are taken whole, or the writer breaks in one of them. -/
theorem writeRecords_cases (h : w.writer.Holds base data) (recs : List Record) :
    ((w.writeRecords recs).1 = none ∧ (w.writeRecords recs).2.writer.Holds base
      (data ++ encode recs)) ∨ (∃ err, (w.writeRecords recs).1 = some err ∧
        (w.writeRecords recs).2.writer.Broken base (data ++ encode recs)) := by
  induction recs generalizing w data with
  | nil => exact .inl ⟨rfl, by rwa [show encode [] = [] from rfl, List.append_nil]⟩
  | cons rec recs ih =>
    have hsplit : data ++ encode (rec :: recs) = data ++ encode [rec] ++ encode recs := by
      rw [List.append_assoc, ← encode_append, List.singleton_append]
    rw [hsplit]
    have hwrite := h.write (encode [rec])
    unfold writeRecords
    generalize w.writer.write (encode [rec]) = res at hwrite ⊢
    obtain ⟨ok, writer⟩ := res
    rcases hwrite with ⟨rfl, hw⟩ | ⟨rfl, hw⟩
    · exact ih hw
    · exact .inr ⟨.write, rfl, hw.mono _⟩

theorem flushBatch_cases (h : w.writer.Holds base data) :
    (w.flushBatch.2.writer.Holds (base ++ data) []) ∨
      (∃ err, w.flushBatch.1 = some err ∧ w.flushBatch.2.writer.Broken base data) := by
  have hflush := h.flush
  unfold flushBatch
  generalize w.writer.flush = res at hflush ⊢
  obtain ⟨ok, writer⟩ := res
  rcases hflush with ⟨rfl, hw, hbuf⟩ | ⟨rfl, hw⟩
  · refine .inl ?_
    dsimp only
    split_ifs <;> exact hw.settle hbuf
  · exact .inr ⟨.flush, rfl, hw⟩

/-- A call that only flushes and syncs leaves a log that keeps the same. -/
theorem State.flush {writer : Writer} (h : State base writer) : State base writer.flush.2 := by
  cases h with
  | whole h =>
    rcases h.flush with ⟨-, hw, -⟩ | ⟨-, hw⟩
    · exact .whole hw
    · exact .torn [] nofun hw
  | torn batch hfits h =>
    rw [Writer.flush_of_failed h.failed]
    exact .torn batch hfits h

theorem sync_writer (w : Log) : w.sync.2.writer = w.writer ∨
    w.sync.2.writer = w.writer.flush.2 := by
  unfold sync
  split_ifs
  · exact .inl rfl
  · right
    generalize w.writer.flush = res
    obtain ⟨_ | _, writer⟩ := res <;> rfl

theorem close_writer (w : Log) : w.close.2.writer = w.writer ∨
    w.close.2.writer = w.writer.flush.2 := by
  unfold close
  split_ifs
  · exact .inl rfl
  · right
    dsimp only
    generalize w.writer.flush = res
    obtain ⟨_ | _, writer⟩ := res <;> rfl

/-- A batch that is acknowledged is in the file, and nothing else is added. -/
theorem State.appendBatch (h : State base w.writer) (hfits : ∀ r ∈ recs, r.Fits) :
    State (base ++ encode recs) (w.appendBatch recs).2.writer ∨
      ((w.appendBatch recs).1 ≠ none ∧ State base (w.appendBatch recs).2.writer) := by
  unfold Log.appendBatch
  split_ifs with hnil hclosed
  · refine .inl ?_
    rwa [hnil, show encode [] = [] from rfl, List.append_nil]
  · exact .inr ⟨nofun, h⟩
  cases h with
  | torn batch hb h =>
    -- the first record is refused
    obtain ⟨rec, recs, rfl⟩ := List.exists_cons_of_ne_nil hnil
    rw [writeRecords, Writer.write_of_failed h.failed]
    exact .inr ⟨nofun, .torn batch hb h⟩
  | whole h =>
    have hwrite := writeRecords_cases h recs
    generalize w.writeRecords recs = res at hwrite ⊢
    obtain ⟨err, w'⟩ := res
    rw [List.nil_append] at hwrite
    rcases hwrite with ⟨rfl, hw⟩ | ⟨err, rfl, hw⟩
    · rcases flushBatch_cases hw with hw' | ⟨err, herr, hw'⟩
      · exact .inl (.whole hw')
      · exact .inr ⟨by rw [herr]; nofun, .torn recs hfits hw'⟩
    · exact .inr ⟨nofun, .torn recs hfits hw⟩

theorem encode_done (rs recs : List Record) (done : List (List Record)) :
    encode (rs ++ done.flatten) ++ encode recs = encode (rs ++ (done ++ [recs]).flatten) := by
  rw [← encode_append, List.flatten_append, List.append_assoc]
  simp

/-- A call adds batches to what the log keeps, among them its own if it was acknowledged. -/
theorem Keeps.call (h : w.Keeps rs done) {c : LogCall}
    (hfits : ∀ recs, c = .appendBatch recs → ∀ r ∈ recs, r.Fits) :
    ∃ more, (w.call c).2.Keeps rs (done ++ more) ∧
      (LogCall.acknowledged (c, (w.call c).1)).toList.Sublist more := by
  have hsame : ∀ w' : Log, State (encode (rs ++ done.flatten)) w'.writer →
      w'.Keeps rs (done ++ []) := by
    intro w' hw
    rw [List.append_nil]
    exact ⟨h.fits, hw⟩
  cases c with
  | appendBatch recs =>
    rcases h.state.appendBatch (hfits recs rfl) with hw | ⟨herr, hw⟩
    · refine ⟨[recs], ⟨?_, encode_done rs recs done ▸ hw⟩, ?_⟩
      · intro r hr
        simp only [List.flatten_append, List.flatten_singleton, ← List.append_assoc] at hr
        rcases List.mem_append.mp hr with hr | hr
        · exact h.fits r hr
        · exact hfits recs rfl r hr
      · show (LogCall.acknowledged (.appendBatch recs, (w.appendBatch recs).1)).toList.Sublist
          [recs]
        cases (w.appendBatch recs).1 with
        | none => exact List.Sublist.refl _
        | some err => exact List.nil_sublist _
    · refine ⟨[], hsame _ hw, ?_⟩
      show (LogCall.acknowledged (.appendBatch recs, (w.appendBatch recs).1)).toList.Sublist []
      cases hc : (w.appendBatch recs).1 with
      | none => exact absurd hc herr
      | some err => exact List.Sublist.refl _
  | sync =>
    refine ⟨[], hsame _ ?_, List.nil_sublist _⟩
    rcases w.sync_writer with hw | hw
    · exact hw ▸ h.state
    · exact hw ▸ h.state.flush
  | close =>
    refine ⟨[], hsame _ ?_, List.nil_sublist _⟩
    rcases w.close_writer with hw | hw
    · exact hw ▸ h.state
    · exact hw ▸ h.state.flush

/-- What a run keeps. -/
theorem Keeps.run (h : w.Keeps rs done) {cs : List LogCall}
    (hfits : ∀ recs, .appendBatch recs ∈ cs → ∀ r ∈ recs, r.Fits) :
    ∃ more, (w.run cs).2.Keeps rs (done ++ more) ∧
      ((w.run cs).1.filterMap LogCall.acknowledged).Sublist more := by
  induction cs generalizing w done with
  | nil => exact ⟨[], by rwa [List.append_nil], List.Sublist.refl _⟩
  | cons c cs ih =>
    obtain ⟨more, hw, hack⟩ := h.call fun recs hc => hfits recs (hc ▸ List.mem_cons_self)
    obtain ⟨more', hw', hack'⟩ := ih hw fun recs hc => hfits recs (List.mem_cons_of_mem _ hc)
    refine ⟨more ++ more', by rwa [← List.append_assoc], ?_⟩
    rw [show (w.run (c :: cs)).1 = (c, (w.call c).1) :: ((w.call c).2.run cs).1 from rfl,
      List.filterMap_cons]
    cases hc : LogCall.acknowledged (c, (w.call c).1) with
    | none => exact hack'.trans (List.sublist_append_right _ _)
    | some recs =>
      rw [hc] at hack
      exact hack.append hack'

/-- Replaying the file of a log gives what it keeps, and at most a part of one more batch. -/
theorem Keeps.replay (h : w.Keeps rs done) :
    ∃ more, Wal.replay w.file = rs ++ done.flatten ++ more := by
  cases h.state with
  | whole hw =>
    have hfile : w.file = encode (rs ++ done.flatten) := by
      refine (hw.front.eq_of_length_le ?_).symm
      have hall := congrArg List.length hw.all
      rw [List.append_nil, List.length_append] at hall
      omega
    exact ⟨[], by rw [hfile, (holds_encode h.fits).replay_eq, List.append_nil]⟩
  | torn batch hb hw =>
    obtain ⟨t, ht⟩ := hw.front
    have hpart := hw.part
    rw [← ht] at hpart
    have htake := List.prefix_iff_eq_take.mp ((List.prefix_append_right_inj _).mp hpart)
    obtain ⟨qs, -, hq⟩ := holds_torn h.fits hb t.length
    rw [← htake, ht] at hq
    exact ⟨qs, hq.replay_eq⟩

end Log

/-- **Acknowledged batches survive the failures of other calls.** A log is opened on a file with the
records `rs`; calls are made, with any writes to the file and any `Sync`s failing. Replaying the
file then gives `rs` and the records of batches `bs`, one batch after the other, among which the
acknowledged ones are in the order of the calls. After them there is at most a part of a batch that
was not acknowledged. -/
theorem acknowledged_survive (rs : List Record) (cs : List LogCall) (size : ℕ) (syncOnWrite : Bool)
    (faults : List (Option ℕ)) (syncFaults : List Bool) (closeFails : Bool) (hrs : ∀ r ∈ rs, r.Fits)
    (hcs : ∀ recs, .appendBatch recs ∈ cs → ∀ r ∈ recs, r.Fits) :
    ∃ out bs more,
      replayFile crc32c ((openLog (encode rs) size syncOnWrite faults syncFaults closeFails).run
        cs).2.file = some (.ok out) ∧
      out.records = rs ++ bs.flatten ++ more ∧
      (((openLog (encode rs) size syncOnWrite faults syncFaults closeFails).run cs).1.filterMap
        LogCall.acknowledged).Sublist bs := by
  have hopen : (openLog (encode rs) size syncOnWrite faults syncFaults closeFails).Keeps rs [] := by
    refine ⟨by simpa using hrs, .whole ⟨rfl, ?_, ?_⟩⟩
    · rw [List.flatten_nil, List.append_nil]
      exact List.prefix_rfl
    · simp [openLog]
  obtain ⟨bs, hw, hack⟩ := hopen.run hcs
  obtain ⟨more, hmore⟩ := hw.replay
  obtain ⟨out, hrun, hrecs, -⟩ := replayFile_crc32c _
  exact ⟨out, bs, more, hrun, hrecs.trans hmore, hack⟩

/-- Three batches of one record. -/
def threeBatches : List LogCall :=
  [.appendBatch [⟨1, recordPut, [97], [1]⟩], .appendBatch [⟨2, recordPut, [98], [2]⟩],
    .appendBatch [⟨3, recordPut, [99], [3]⟩]]

/-- The `Sync` of the first batch fails, the second is acknowledged, and the write of the third
fails after ten bytes. -/
theorem acknowledged_survive_three : ∃ out bs more,
    replayFile crc32c
      ((openLog (encode []) 4096 true [none, none, some 10] [true] false).run threeBatches).2.file =
        some (.ok out) ∧
    out.records = bs.flatten ++ more ∧ [[⟨2, recordPut, [98], [2]⟩]].Sublist bs := by
  obtain ⟨out, bs, more, hrun, hrecs, hack⟩ := acknowledged_survive [] threeBatches 4096 true
    [none, none, some 10] [true] false nofun (by
      intro recs hrecs
      simp only [threeBatches, List.mem_cons, LogCall.appendBatch.injEq, List.not_mem_nil, or_false]
        at hrecs
      rcases hrecs with rfl | rfl | rfl <;> decide)
  have hresults : ((openLog (encode []) 4096 true [none, none, some 10] [true] false).run
      threeBatches).1.filterMap LogCall.acknowledged = [[⟨2, recordPut, [98], [2]⟩]] := by
    decide +kernel
  rw [hresults] at hack
  exact ⟨out, bs, more, hrun, hrecs, hack⟩

end KvStore.Wal
