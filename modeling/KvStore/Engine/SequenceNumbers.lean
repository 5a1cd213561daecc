import KvStore.Engine.Faults
import KvStore.Engine.RestoreAtomicity

/-!
# Sequence numbers

`ApplyBatch` takes numbers from `nextSeq`, and `Open` sets it above everything that it finds.
`RestoreSnapshot` numbers the entries of its table from 1 and leaves `nextSeq` as it is, so that an
engine that has written less than the snapshot holds has a table with numbers at or above the next
one.

* `Table.Below`: every entry of a table has a smaller number; what keeps it.
* `Engine.Ahead`: `nextSeq` is above every number in the memtables, the tables and the running
  flushes.
* `Store.SeqSafe`: no snapshot with more entries than `nextSeq` allows, and no number of 64 bits
  runs out.
* `sequence_ahead`: along a run of such steps the engine is ahead, and whatever is written next has
  greater numbers than everything that is stored.
* `restored_sequence_not_ahead`: a restored snapshot of one entry.
-/

namespace KvStore

open Layered Machine

/-! ## Tables and records -/

/-- Every entry has a smaller number. -/
def Table.Below (n : UInt64) (t : Table) : Prop := ∀ a ∈ t.entries, a.2.seq.toNat < n.toNat

section Below

variable {n n' : UInt64} {t : Table}

theorem Table.below_empty (n : UInt64) : Table.empty.Below n := nofun

theorem Table.Below.mono (h : t.Below n) (hle : n.toNat ≤ n'.toNat) : t.Below n' :=
  fun a ha => (h a ha).trans_le hle

theorem Table.Below.insert (h : t.Below n) {e : Entry} (he : e.seq.toNat < n.toNat) (k : Bytes) :
    Table.Below n (SortedMap.insert t k e) := by
  intro a ha
  rcases SortedMap.mem_insertPair ha with rfl | ha
  · exact he
  · exact h a ha

theorem Table.Below.applyRecords (h : t.Below n) {rs : List Wal.Record}
    (hrs : ∀ r ∈ rs, r.seqNum.toNat < n.toNat) : (t.applyRecords rs).Below n := by
  induction rs generalizing t with
  | nil => exact h
  | cons r rs ih =>
    have hr := hrs r List.mem_cons_self
    refine ih ?_ fun r' hr' => hrs r' (List.mem_cons_of_mem r hr')
    rw [Table.applyRecord]
    split_ifs
    · exact h.insert hr r.key
    · exact h.insert hr r.key

end Below

/-- The numbers of a batch's records, which do not run out, are taken one after the other. -/
theorem batchRecords_bounds {seq : UInt64} {ops : List BatchOp}
    (h : seq.toNat + ops.length < 2 ^ 64) : ∀ r ∈ batchRecords seq ops, seq.toNat ≤ r.seqNum.toNat ∧
      r.seqNum.toNat < seq.toNat + ops.length := by
  induction ops generalizing seq with
  | nil => nofun
  | cons op ops ih =>
    rw [List.length_cons] at h ⊢
    have hsucc : (seq + 1).toNat = seq.toNat + 1 := by
      rw [UInt64.toNat_add]
      exact Nat.mod_eq_of_lt (by simp only [UInt64.reduceToNat]; omega)
    intro r hr
    rcases List.mem_cons.mp hr with rfl | hr
    · dsimp only
      omega
    · have hbounds := ih (by omega) r hr
      omega

theorem toNat_add_length {seq : UInt64} {n : ℕ} (h : seq.toNat + n < 2 ^ 64) :
    (seq + UInt64.ofNat n).toNat = seq.toNat + n := by
  rw [UInt64.toNat_add, UInt64.toNat_ofNat_of_lt' (by simp only [UInt64.size]; omega),
    Nat.mod_eq_of_lt h]

/-- The greatest value of a list, from a first one on, as the code takes it. -/
def maxFrom {α : Type} (f : α → UInt64) (m : UInt64) (l : List α) : UInt64 :=
  l.foldl (fun m a => if m < f a then f a else m) m

theorem toNat_ite_lt (m n : UInt64) : (if m < n then n else m).toNat = max m.toNat n.toNat := by
  split_ifs with hlt
  · exact (max_eq_right (UInt64.lt_iff_toNat_lt.mp hlt).le).symm
  · exact (max_eq_left (not_lt.mp fun h => hlt (UInt64.lt_iff_toNat_lt.mpr h))).symm

theorem maxFrom_lt_iff {α : Type} {f : α → UInt64} {m : UInt64} {l : List α} {n : ℕ} :
    (maxFrom f m l).toNat < n ↔ m.toNat < n ∧ ∀ a ∈ l, (f a).toNat < n := by
  induction l generalizing m with
  | nil => simp [maxFrom]
  | cons b l ih =>
    rw [maxFrom, List.foldl_cons]
    refine ih.trans ?_
    rw [toNat_ite_lt, max_lt_iff, List.forall_mem_cons, and_assoc]

/-! ## Engines -/

/-- `nextSeq` is above every number that is stored, and above those that the running flushes will
store. -/
structure Engine.Ahead (e : Engine) (jobs : List FlushJob) : Prop where
  mem : e.mem.Below e.nextSeq
  immutable : ∀ t ∈ e.immutable, Table.Below e.nextSeq t
  sstables : ∀ a ∈ e.sstables, a.2.Below e.nextSeq
  jobs : ∀ job ∈ jobs, job.frozen.Below e.nextSeq

/-- What `Open` finds on a disk whose numbers are below `n` is below `n`, and so is one less than
`nextSeq`. -/
theorem openEngine_seq {d : Dir} {e : Engine} {fs : List FsOp} (h : openEngine d = some (e, fs)) :
    ∃ m : UInt64, e.nextSeq = m + 1 ∧ ∀ n, 0 < n →
    (m.toNat < n ↔ (∀ r ∈ d.logRecords, r.seqNum.toNat < n) ∧
      ∀ a ∈ e.sstables, ∀ b ∈ a.2.entries, b.2.seq.toNat < n) := by
  simp only [openEngine, Dir.discoverSSTables, Dir.discoverWALs, Option.bind_eq_bind,
    Option.bind_eq_some_iff, pure, Option.some.injEq, Prod.mk.injEq] at h
  obtain ⟨-, ⟨tables, htables, rfl⟩, rfl, rfl⟩ := h
  refine ⟨_, rfl, fun n hn => ?_⟩
  have hlog : (maxSeqOf d.logRecords).toNat < n ↔ ∀ r ∈ d.logRecords, r.seqNum.toNat < n :=
    maxFrom_lt_iff.trans (and_iff_right hn)
  have htable : ∀ t : Table, t.maxSeq.toNat < n ↔ ∀ b ∈ t.entries, b.2.seq.toNat < n := fun t =>
    maxFrom_lt_iff.trans (and_iff_right hn)
  have htables' : (maxFrom (fun a : ℕ × Table => a.2.maxSeq) 0 tables).toNat < n ↔
      ∀ a ∈ tables, ∀ b ∈ a.2.entries, b.2.seq.toNat < n :=
    (maxFrom_lt_iff.trans (and_iff_right hn)).trans (forall₂_congr fun a _ => htable a.2)
  have hmax :=
    Iff.of_eq
      (congrArg (· < n) (toNat_ite_lt (maxFrom (fun a : ℕ × Table => a.2.maxSeq) 0 tables)
        (maxSeqOf d.logRecords)))
  exact hmax.trans (max_lt_iff.trans (and_comm.trans (and_congr hlog htables')))

namespace Engine.Ahead

variable {e e' : Engine} {jobs js js' : List FlushJob} {job : FlushJob} {ops : List BatchOp}

/-- Numbers that `Open` has found are below `nextSeq`, unless it wraps around. -/
theorem opened {d : Dir} {fs : List FsOp} (h : openEngine d = some (e, fs))
    (hlog : ∀ r ∈ d.logRecords, r.seqNum.toNat < 2 ^ 64 - 1)
    (htables : ∀ a ∈ d.validSsts, ∀ t ∈ a.2, ∀ b ∈ t.entries, b.2.seq.toNat < 2 ^ 64 - 1) :
    e.Ahead [] := by
  have ho := KvStore.opened h
  have hssts : ∀ a ∈ e.sstables, ∀ b ∈ a.2.entries, b.2.seq.toNat < 2 ^ 64 - 1 := by
    intro a ha
    have hmem : (a.1, some a.2) ∈ d.validSsts := by
      rw [← List.mem_reverse, ho.ssts_eq]
      exact List.mem_map_of_mem ha
    exact htables _ hmem a.2 rfl
  obtain ⟨m, hm, hlt⟩ := openEngine_seq h
  have hwrap : e.nextSeq.toNat = m.toNat + 1 := by
    have := (hlt (2 ^ 64 - 1) (by decide)).mpr ⟨hlog, hssts⟩
    rw [hm, UInt64.toNat_add]
    exact Nat.mod_eq_of_lt (by simp only [UInt64.reduceToNat]; omega)
  obtain ⟨hrecords, hentries⟩ := (hlt _ (Nat.succ_pos m.toNat)).mp (Nat.lt_succ_self _)
  refine ⟨?_, ?_, ?_, nofun⟩
  · rw [ho.mem_eq]
    exact (Table.below_empty _).applyRecords fun r hr => hwrap ▸ hrecords r hr
  · rw [ho.immutable_eq]
    nofun
  · exact fun a ha b hb => hwrap ▸ hentries a ha b hb

theorem append_nil (h : e.Ahead jobs) : e.Ahead (jobs ++ []) := by rwa [List.append_nil]

theorem mono (h : e.Ahead jobs) {n : UInt64} (hle : e.nextSeq.toNat ≤ n.toNat) :
    Engine.Ahead { e with nextSeq := n } jobs :=
  ⟨h.mem.mono hle, fun t ht => (h.immutable t ht).mono hle, fun a ha => (h.sstables a ha).mono hle,
    fun job hjob => (h.jobs job hjob).mono hle⟩

theorem written (h : e.Ahead jobs) (hops : e.nextSeq.toNat + ops.length < 2 ^ 64) :
    (e.written ops).Ahead jobs := by
  have hnext := toNat_add_length hops
  have hle : e.nextSeq.toNat ≤ (e.nextSeq + UInt64.ofNat ops.length).toNat := by omega
  have hmono := h.mono hle
  refine ⟨hmono.mem.applyRecords fun r hr => ?_, hmono.immutable, hmono.sstables, hmono.jobs⟩
  rw [hnext]
  exact (batchRecords_bounds hops r hr).2

theorem startFlush (h : e.Ahead jobs) :
    e.startFlushLocked.1.Ahead (jobs ++ e.startFlushLocked.2.1) := by
  refine ⟨Table.below_empty _, fun t ht => ?_, h.sstables, fun job hjob => ?_⟩
  · obtain rfl := Option.some.inj ht
    exact h.mem
  · rcases List.mem_append.mp hjob with hjob | hjob
    · exact h.jobs job hjob
    · rw [List.mem_singleton.mp hjob]
      exact h.mem

/-- A flush stores what it has frozen. -/
theorem worked (h : e.Ahead (js ++ job :: js')) :
    (job.step e).1.Ahead (js ++ ((job.step e).2.1 ++ js')) := by
  have hjob := h.jobs job (by simp)
  have hrest : ∀ jobs, (∀ j ∈ jobs, j.frozen = job.frozen) →
      ∀ j ∈ js ++ (jobs ++ js'), j.frozen.Below e.nextSeq := by
    intro jobs hjobs j hj
    simp only [List.mem_append] at hj
    rcases hj with hj | hj | hj
    · exact h.jobs j (by simp [hj])
    · exact hjobs j hj ▸ hjob
    · exact h.jobs j (by simp [hj])
  unfold FlushJob.step
  cases job.phase with
  | create => exact ⟨h.mem, h.immutable, h.sstables, hrest _ (by simp)⟩
  | finish =>
    rw [show Table.write job.frozen.entries = some job.frozen from SortedMap.ofList_entries _]
    exact ⟨h.mem, h.immutable, h.sstables, hrest _ (by simp)⟩
  | install =>
    refine ⟨h.mem, nofun, fun a ha => ?_, hrest _ (by simp)⟩
    rcases List.mem_cons.mp ha with rfl | ha
    · exact hjob
    · exact h.sstables a ha
  | remove => exact ⟨h.mem, h.immutable, h.sstables, hrest _ (by simp)⟩

theorem failed (h : e.Ahead (js ++ job :: js')) : (job.fail e).Ahead (js ++ js') := by
  have hjobs : ∀ j ∈ js ++ js', j.frozen.Below e.nextSeq := fun j hj =>
    h.jobs j (by simp only [List.mem_append, List.mem_cons] at hj ⊢; tauto)
  unfold FlushJob.fail
  cases job.phase with
  | create | finish | install => exact ⟨h.mem, nofun, h.sstables, hjobs⟩
  | remove => exact ⟨h.mem, h.immutable, h.sstables, hjobs⟩

/-- The entries of a snapshot are numbered from 1. -/
theorem restored (h : e.Ahead jobs) {data : Bytes} {fs : List FsOp}
    (hrun : e.restoreSnapshot data = (fs, .ok e')) (hsafe :
      ∀ kvs ∈ decodeSnapshotEntries data, kvs.length < e.nextSeq.toNat) : e'.Ahead jobs := by
  obtain ⟨himm, kvs, t, hkvs, ht, -, rfl⟩ := Engine.restoreSnapshot_ok hrun
  have hlen := hsafe kvs hkvs
  refine ⟨Table.below_empty _, h.immutable, fun a ha => ?_, h.jobs⟩
  rw [List.mem_singleton.mp ha]
  intro b hb
  rw [SortedMap.entries_of_ofList ht] at hb
  obtain ⟨⟨kv, i⟩, hi, rfl⟩ := List.mem_map.mp hb
  have hbound := List.mem_zipIdx hi
  rw [List.length_mergeSort] at hbound
  have hlt := e.nextSeq.toNat_lt
  show (UInt64.ofNat i).toNat < e.nextSeq.toNat
  rw [UInt64.toNat_ofNat_of_lt' (by simp only [UInt64.size]; omega)]
  omega

end Engine.Ahead

/-! ## Runs -/

namespace Store

/-- The engine, if there is one, is ahead. -/
def Ahead (σ : Store) : Prop := ∀ e, σ.eng = some e → e.Ahead σ.jobs

/-- No snapshot is restored that has as many entries as `nextSeq`, `Open` finds no table that is not
finished, and the numbers do not run out. -/
def SeqSafe (σ : Store) : FaultAction → Prop
  | .step .openOk => (∀ r ∈ σ.disk.logRecords, r.seqNum.toNat < 2 ^ 64 - 1) ∧
      σ.disk.Finished ∧ ∀ a ∈ σ.disk.validSsts, ∀ t ∈ a.2, ∀ b ∈ t.entries,
        b.2.seq.toNat < 2 ^ 64 - 1
  | .step (.batch ops) | .appendFails ops _ | .flushStartFails ops =>
    ∀ e ∈ σ.eng, e.nextSeq.toNat + ops.length < 2 ^ 64
  | .step (.restore data) | .restoreLeaves data _ =>
    ∀ e ∈ σ.eng, ∀ kvs ∈ decodeSnapshotEntries data, kvs.length < e.nextSeq.toNat
  | _ => True

variable {threshold : ℕ} {σ σ' : Store}

theorem Stepped.ahead {a : StoreAction} (h : Stepped threshold σ a σ') (hsafe : σ.SeqSafe (.step a))
    (hahead : σ.Ahead) : σ'.Ahead := by
  cases h with
  | opened down run =>
    intro e he
    cases he
    exact .opened run hsafe.1 hsafe.2.2
  | openCut | crashed | crashedIn | restoreCut => nofun
  | @batched e e' ops jobs fs up idle run =>
    intro e₁ he₁
    cases he₁
    have hops : e.nextSeq.toNat + ops.length < 2 ^ 64 := hsafe e up
    obtain ⟨-, ⟨-, rfl, rfl, -⟩ | ⟨-, rfl, rfl, -⟩ | ⟨-, rfl, rfl, -⟩⟩ :=
      Engine.applyBatch_cases run
    · exact (hahead _ up).append_nil
    · exact ((hahead e up).written hops).append_nil
    · exact ((hahead e up).written hops).startFlush
  | @flushed e e' jobs fs up idle run =>
    intro e₁ he₁
    cases he₁
    obtain ⟨-, ⟨rfl, rfl, -⟩ | hstart⟩ := Engine.flush_cases run
    · exact (hahead _ up).append_nil
    · cases hstart
      exact (hahead e up).startFlush
  | @worked e job js js' i up split pos =>
    intro e₁ he₁
    cases he₁
    exact Engine.Ahead.worked (split ▸ hahead e up)
  | restored up decoded run =>
    intro e₁ he₁
    cases he₁
    exact ((hahead _ up).restored run (hsafe _ up)).append_nil
  | refused up early =>
    intro e₁ he₁
    cases he₁
    exact (hahead _ up).append_nil

theorem Faulted.ahead {a : FaultAction} (h : Faulted threshold σ a σ') (hsafe : σ.SeqSafe a)
    (hahead : σ.Ahead) : σ'.Ahead := by
  cases h with
  | stepped run => exact run.ahead hsafe hahead
  | @appendFailed e ops data up =>
    intro e₁ he₁
    cases he₁
    have hops : e.nextSeq.toNat + ops.length < 2 ^ 64 := hsafe e up
    refine ((hahead e up).mono ?_).append_nil
    rw [toNat_add_length hops]
    exact Nat.le_add_right ..
  | @flushStartFailed e ops up =>
    intro e₁ he₁
    cases he₁
    exact ((hahead e up).written (hsafe e up)).append_nil
  | refused => exact hahead
  | @jobFailed e job js js' i k up split =>
    intro e₁ he₁
    cases he₁
    exact Engine.Ahead.failed (split ▸ hahead e up)
  | restored up run =>
    intro e₁ he₁
    cases he₁
    exact ((hahead _ up).restored run (hsafe _ up)).append_nil

theorem ahead_run {as : List FaultAction} (hrun : FaultRuns threshold as σ)
    (hsafe : Along (faultStep threshold) SeqSafe {} as) : σ.Ahead :=
  exec_induct (fun _ _ _ hahead hsafe hstep => (faultStep_cases hstep).ahead hsafe hahead)
    (fun e he => by cases he) hsafe hrun

instance (σ : Store) : DecidablePred σ.SeqSafe
  | .step .openOk => inferInstanceAs (Decidable (_ ∧ _))
  | .step (.batch _) | .appendFails _ _ | .flushStartFails _ =>
    inferInstanceAs (Decidable (∀ e ∈ σ.eng, _))
  | .step (.restore data) | .restoreLeaves data _ =>
    inferInstanceAs (Decidable (∀ e ∈ σ.eng, ∀ kvs ∈ decodeSnapshotEntries data, _))
  | .step (.openCut ..) | .step .flush | .step (.job _) | .step (.restoreErr ..) | .step .crash
  | .step (.crashIn ..) | .step (.restoreCut ..) | .refused | .jobFails .. => .isTrue trivial

end Store

/-- **Sequence numbers stay ahead of everything stored**, if no snapshot that is restored has as
many entries as `nextSeq`, no table that `Open` finds was left unfinished, and the numbers do not
run out. After any run of calls that succeed or fail, crashes and restarts, `nextSeq` is above the
number of every record in the memtable, the frozen memtable and the tables, so that a record which
is written next has a greater number than every one that is stored. -/
theorem sequence_ahead {threshold : ℕ} {as : List FaultAction} {σ : Store}
    (hrun : Store.FaultRuns threshold as σ) (hsafe :
    Along (Store.faultStep threshold) Store.SeqSafe {} as) {e : Engine} (hup : σ.eng = some e) :
    (∀ t ∈ e.sources, ∀ a ∈ t.entries, a.2.seq < e.nextSeq) ∧
      ∀ ops : List BatchOp, e.nextSeq.toNat + ops.length < 2 ^ 64 →
        ∀ r ∈ batchRecords e.nextSeq ops, ∀ t ∈ e.sources, ∀ a ∈ t.entries, a.2.seq < r.seqNum := by
  have hahead := Store.ahead_run hrun hsafe e hup
  have hbelow : ∀ t ∈ e.sources, Table.Below e.nextSeq t := by
    intro t ht
    rcases List.mem_cons.mp ht with rfl | ht
    · exact hahead.mem
    rcases List.mem_append.mp ht with ht | ht
    · exact hahead.immutable t (Option.mem_toList.mp ht)
    · obtain ⟨a, ha, rfl⟩ := List.mem_map.mp ht
      exact hahead.sstables a ha
  refine ⟨fun t ht a ha => UInt64.lt_iff_toNat_lt.mpr (hbelow t ht a ha),
    fun ops hops r hr t ht a ha => ?_⟩
  exact UInt64.lt_iff_toNat_lt.mpr ((hbelow t ht a ha).trans_le (batchRecords_bounds hops r hr).1)

/-- Two writes, of which the second fails, a flush, and a snapshot of one pair. -/
def numberedRun : List FaultAction :=
  [.step .openOk, .step (.batch [putK 1]), .appendFails [putK 2] [], .step .flush, .step (.job 0),
    .step (.job 0), .step (.job 0), .jobFails 0 0, .step (.restore (onePair 98 9)),
      .step (.batch [putK 3])]

theorem sequence_ahead_numbered : ∃ σ e, Store.FaultRuns 4194304 numberedRun σ ∧ σ.eng = some e ∧
    e.nextSeq = 4 ∧ ∀ t ∈ e.sources, ∀ a ∈ t.entries, a.2.seq < e.nextSeq := by
  have hrun : ((exec (Store.faultStep 4194304) {} numberedRun).bind fun σ => σ.eng.map fun e =>
      decide (e.nextSeq = 4)) = some true := by decide +kernel
  have hsafe : Along (Store.faultStep 4194304) Store.SeqSafe {} numberedRun := by decide +kernel
  obtain ⟨σ, hσ, hup⟩ := Option.bind_eq_some_iff.mp hrun
  obtain ⟨e, hup, hnext⟩ := Option.map_eq_some_iff.mp hup
  exact ⟨σ, e, hσ, hup, of_decide_eq_true hnext, (sequence_ahead hσ hsafe hup).1⟩

/-- A new engine restores a snapshot of one pair: the next number is 1, and the table has the number
1. A write of the key then has no greater number than the record it replaces. -/
theorem restored_sequence_not_ahead : ∃ σ e, Store.FaultRuns 4194304
      [.step .openOk, .step (.restore (onePair 98 9))] σ ∧ σ.eng = some e ∧
    (∃ t ∈ e.sources, ∃ a ∈ t.entries, ¬a.2.seq < e.nextSeq) ∧
    ∃ r ∈ batchRecords e.nextSeq [⟨[98], [7], false⟩], ∃ t ∈ e.sources, ∃ a ∈ t.entries,
      a.1 = r.key ∧ ¬a.2.seq < r.seqNum := by
  have hrun : ((exec (Store.faultStep 4194304) {}
      [.step .openOk, .step (.restore (onePair 98 9))]).bind fun σ =>
        σ.eng.map fun e => decide ((∃ t ∈ e.sources, ∃ a ∈ t.entries, ¬a.2.seq < e.nextSeq) ∧
          ∃ r ∈ batchRecords e.nextSeq [⟨[98], [7], false⟩], ∃ t ∈ e.sources, ∃ a ∈ t.entries,
            a.1 = r.key ∧ ¬a.2.seq < r.seqNum)) = some true := by decide +kernel
  obtain ⟨σ, hσ, hup⟩ := Option.bind_eq_some_iff.mp hrun
  obtain ⟨e, hup, hall⟩ := Option.map_eq_some_iff.mp hup
  exact ⟨σ, e, hσ, hup, of_decide_eq_true hall⟩

end KvStore
