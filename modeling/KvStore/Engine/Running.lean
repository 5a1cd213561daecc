import KvStore.Engine.Recovery
import KvStore.Engine.System

/-!
# A directory with a running engine

Where the engine's memory and its files agree, at every point between two steps.

* The goroutines of `runFlush` are of three kinds: `old` ones only have to remove a log that the
  restore marker has made invalid, `pend` ones a log whose table is installed, and the one in `act`,
  if there is any, belongs to the frozen memtable.
* `Laid`: the valid logs are those of `pend` and `act`, in order, and then the one that is written
  to. The tables of `pend` are the newest of the installed ones, so that replaying their logs
  changes nothing.
* `Laid.recoverable`: such a directory has the content that its last log says on top of the rest.
* `Running`: the last log says what the memtable says.
-/

namespace KvStore

open Layered

/-- The file that a flush has made so far. -/
def FlushJob.file (job : FlushJob) : List (ℕ × Option Table) :=
  match job.phase with
  | .create => []
  | .finish => [(job.flushSeq, none)]
  | .install => [(job.flushSeq, some job.frozen)]
  | .remove => []

/-- The file is the log of the memtable that the goroutine flushes. -/
def Logged (a : ℕ × Bytes) (job : FlushJob) : Prop :=
  a.1 = job.frozenWAL ∧ ∃ rs, Wal.Holds a.2 rs ∧ recordsLayer rs = job.frozen.layer

/-- What the logs of the goroutines say. -/
def frozenLayer (jobs : List FlushJob) : Source := stack (jobs.reverse.map fun j => j.frozen.layer)

theorem frozenLayer_append (jobs jobs' : List FlushJob) :
    frozenLayer (jobs ++ jobs') = atop (frozenLayer jobs') (frozenLayer jobs) := by
  unfold frozenLayer
  rw [List.reverse_append, List.map_append, stack_append]

theorem logged_layer {files : List (ℕ × Bytes)} {jobs : List FlushJob}
    (h : List.Forall₂ Logged files jobs) :
    recordsLayer (files.flatMap fun a => Wal.replay a.2) = frozenLayer jobs := by
  induction h with
  | nil => rfl
  | @cons a job files jobs hhead _ ih =>
    obtain ⟨-, rs, hrs, hlayer⟩ := hhead
    rw [List.flatMap_cons, recordsLayer_append, ih, hrs.replay_eq, hlayer, ← List.singleton_append,
      frozenLayer_append]
    congr 1
    exact (atop_void _).symm

theorem logged_holds {files : List (ℕ × Bytes)} {jobs : List FlushJob}
    (h : List.Forall₂ Logged files jobs) : ∀ a ∈ files, ∃ rs, Wal.Holds a.2 rs := by
  induction h with
  | nil => exact fun a ha => absurd ha List.not_mem_nil
  | cons hhead _ ih =>
    obtain ⟨-, rs, hrs, -⟩ := hhead
    exact List.forall_mem_cons.mpr ⟨⟨rs, hrs⟩, ih⟩

theorem logged_mem {files : List (ℕ × Bytes)} {jobs : List FlushJob}
    (h : List.Forall₂ Logged files jobs) : ∀ j ∈ jobs, ∃ a ∈ files, a.1 = j.frozenWAL := by
  induction h with
  | nil => exact fun j hj => absurd hj List.not_mem_nil
  | @cons a _ files _ hhead _ ih =>
    refine List.forall_mem_cons.mpr ⟨⟨a, List.mem_cons_self, hhead.1⟩, fun j hj => ?_⟩
    obtain ⟨b, hb, heq⟩ := ih j hj
    exact ⟨b, List.mem_cons_of_mem _ hb, heq⟩

/-- The log of a goroutine stays what it is while the goroutine goes on. -/
theorem logged_phase {files : List (ℕ × Bytes)} {jobs : List FlushJob} {job : FlushJob}
    (h : List.Forall₂ Logged files (jobs ++ [job])) (phase : FlushPhase) :
    List.Forall₂ Logged files (jobs ++ [{ job with phase := phase }]) := by
  induction jobs generalizing files with
  | nil =>
    cases h with
    | cons hhead htail => exact .cons hhead htail
  | cons j jobs ih =>
    cases h with
    | cons hhead htail => exact .cons hhead (ih htail)

/-- The files as the engine left them. The last log holds `rs`. -/
structure Laid (d : Dir) (e : Engine) (pend act : List FlushJob) (log : Bytes)
    (rs : List Wal.Record) : Prop where
  wals : ∃ files, d.validWals = files ++ [(e.w, log)] ∧ List.Forall₂ Logged files (pend ++ act)
  holds : Wal.Holds log rs
  ssts : d.validSsts = (e.sstables.reverse.map fun a => (a.1, some a.2)) ++ act.flatMap
    FlushJob.file
  shadowed : pend.reverse.map FlushJob.frozen <+: e.sstables.map Prod.snd
  active : act.map FlushJob.frozen = e.immutable.toList
  wals_lt : ∀ a ∈ d.wals.entries, a.1 < e.w + 1
  ssts_lt : ∀ a ∈ d.ssts.entries, a.1 < Dir.nextNumber d.validSsts
  minValid_sst : d.minValidSeq ≤ Dir.nextNumber d.validSsts

namespace Laid

variable {d : Dir} {e : Engine} {pend act : List FlushJob} {log : Bytes} {rs : List Wal.Record}

theorem valid_w (h : Laid d e pend act log rs) : d.Valid e.w := by
  obtain ⟨files, hw, -⟩ := h.wals
  have hmem : (e.w, log) ∈ d.validWals := by rw [hw]; simp
  exact (SortedMap.mem_within.mp hmem).2

/-- There is at most one frozen memtable. -/
theorem active_cases (h : Laid d e pend act log rs) :
    (act = [] ∧ e.immutable = none) ∨ ∃ job, act = [job] ∧ e.immutable = some job.frozen := by
  have hact := h.active
  cases himm : e.immutable with
  | none =>
    rw [himm] at hact
    exact Or.inl ⟨List.map_eq_nil_iff.mp hact, rfl⟩
  | some t =>
    rw [himm] at hact
    obtain ⟨job, rfl, rfl⟩ := List.map_eq_singleton_iff.mp hact
    exact Or.inr ⟨job, rfl, rfl⟩

theorem act_nil (h : Laid d e pend act log rs) (himm : e.immutable = none) : act = [] := by
  rcases h.active_cases with ⟨hact, -⟩ | ⟨job, -, hjob⟩
  · exact hact
  · rw [himm] at hjob
    cases hjob

theorem logLayer (h : Laid d e pend act log rs) :
    d.logLayer = atop (recordsLayer rs) (atop (frozenLayer act) (frozenLayer pend)) := by
  obtain ⟨files, hw, hfiles⟩ := h.wals
  unfold Dir.logLayer
  rw [Dir.logRecords_eq hw, List.flatMap_append, List.flatMap_singleton, h.holds.replay_eq,
    recordsLayer_append, logged_layer hfiles, frozenLayer_append]

theorem tablesLayer (h : Laid d e pend act log rs) :
    d.tablesLayer = atop (stack ((act.flatMap FlushJob.file).reverse.map Dir.fileLayer))
      (stack (e.sstables.map fun a => a.2.layer)) := by
  unfold Dir.tablesLayer
  rw [h.ssts, List.reverse_append, List.map_append, stack_append, ← List.map_reverse,
    List.reverse_reverse, List.map_map]
  rfl

/-- The logs whose tables are installed say nothing new. -/
theorem pend_atop (h : Laid d e pend act log rs) :
    atop (frozenLayer pend) (stack (e.sstables.map fun a => a.2.layer)) =
      stack (e.sstables.map fun a => a.2.layer) := by
  have hprefix := h.shadowed.map Table.layer
  rw [List.map_map, List.map_map] at hprefix
  exact stack_atop_of_prefix hprefix

/-- Neither does the table of the frozen memtable, as long as its log is there. -/
theorem act_atop (h : Laid d e pend act log rs) :
    atop (frozenLayer act) (atop (frozenLayer pend) d.tablesLayer) =
      atop (stack (e.immutable.toList.map Table.layer))
    (stack (e.sstables.map fun a => a.2.layer)) := by
  rw [h.tablesLayer]
  rcases h.active_cases with ⟨rfl, himm⟩ | ⟨job, rfl, himm⟩
  · rw [himm]
    exact h.pend_atop
  · rw [himm]
    have hlayer : frozenLayer [job] = job.frozen.layer := atop_void _
    have hstack : stack ((some job.frozen).toList.map Table.layer) = job.frozen.layer := atop_void _
    have hfile : stack (([job].flatMap FlushJob.file).reverse.map Dir.fileLayer) = void ∨
        stack (([job].flatMap FlushJob.file).reverse.map Dir.fileLayer) = job.frozen.layer := by
      rw [List.flatMap_singleton]
      unfold FlushJob.file
      cases job.phase with
      | create | finish | remove => exact Or.inl rfl
      | install => exact Or.inr (atop_void _)
    rw [hlayer, hstack]
    rcases hfile with hfile | hfile
    · rw [hfile, void_atop, h.pend_atop]
    · rw [hfile, atop_absorb, h.pend_atop]

/-- **What a crash leaves behind.** The content is what the last log says, on top of the frozen
memtable and the tables. -/
theorem recoverable (h : Laid d e pend act log rs) :
    Recoverable d (resolve (atop (recordsLayer rs)
      (atop (stack (e.immutable.toList.map Table.layer))
        (stack (e.sstables.map fun a => a.2.layer))))) := by
  obtain ⟨files, hw, hfiles⟩ := h.wals
  have hnext : Dir.nextNumber d.validWals = e.w + 1 := by rw [hw, Dir.nextNumber_concat]
  refine ⟨?_, ?_, ?_, h.minValid_sst, ?_, h.ssts_lt⟩
  · intro a ha
    rw [hw, List.mem_append, List.mem_singleton] at ha
    rcases ha with ha | rfl
    · exact logged_holds hfiles a ha
    · exact ⟨rs, h.holds⟩
  · unfold Dir.content
    rw [h.logLayer, atop_assoc, atop_assoc, h.act_atop]
  · rw [hnext]
    exact Nat.le_succ_of_le h.valid_w.1
  · rw [hnext]
    exact h.wals_lt

/-- More is written to the last log. -/
theorem append (h : Laid d e pend act log rs) {b : Bytes} {qs : List Wal.Record}
    (hfile : Wal.Holds (log ++ b) (rs ++ qs)) :
    Laid (d.apply (.appendWal e.w b)) e pend act (log ++ b) (rs ++ qs) := by
  obtain ⟨files, hw, hfiles⟩ := h.wals
  exact ⟨⟨files, Dir.validWals_appendWal hw b, hfiles⟩, hfile, h.ssts, h.shadowed, h.active,
    SortedMap.forall_modify (P := (· < e.w + 1)) h.wals_lt e.w _, h.ssts_lt, h.minValid_sst⟩

end Laid

/-- The files and the goroutines of a running engine. -/
structure Running (d : Dir) (e : Engine) (old pend act : List FlushJob) : Prop where
  laid : ∃ rs, Laid d e pend act (Wal.encode rs) rs ∧ recordsLayer rs = e.mem.layer
  old_done : ∀ j ∈ old, j.phase = .remove ∧ j.frozenWAL < d.minValidSeq
  pend_done : ∀ j ∈ pend, j.phase = .remove
  act_busy : ∀ j ∈ act, j.phase ≠ .remove ∧ j.flushSeq < e.nextFlushSeq
  act_create : ∀ j ∈ act, j.phase = .create → Dir.nextNumber d.validSsts ≤ j.flushSeq
  next_sst : Dir.nextNumber d.validSsts ≤ e.nextFlushSeq
  next_wal : e.w < e.nextWALSeq

/-- The numbers that the engine will use are within the limit. -/
def Engine.Within (e : Engine) : Prop :=
  e.nextWALSeq < Dir.fileLimit ∧ e.nextFlushSeq < Dir.fileLimit

instance (e : Engine) : Decidable e.Within := inferInstanceAs (Decidable (_ ∧ _))

namespace Running

variable {d : Dir} {e : Engine} {old pend act : List FlushJob}

/-- The logs that wait to be removed are on disk. -/
theorem wal_of_pend (h : Running d e old pend act) {j : FlushJob} (hj : j ∈ pend) :
    ∃ b, (j.frozenWAL, b) ∈ d.validWals := by
  obtain ⟨rs, hlaid, -⟩ := h.laid
  obtain ⟨files, hw, hfiles⟩ := hlaid.wals
  obtain ⟨⟨n, b⟩, hmem, rfl⟩ := logged_mem hfiles j (List.mem_append_left _ hj)
  exact ⟨b, hw ▸ List.mem_append_left _ hmem⟩

theorem recoverable (h : Running d e old pend act) : Recoverable d e.get := by
  obtain ⟨rs, hlaid, hmem⟩ := h.laid
  have hrec := hlaid.recoverable
  rwa [hmem, ← e.get_eq] at hrec

/-! ## Opening -/

theorem opened {c : Content} {fs : List FsOp} (hd : Recoverable d c) (ho : Opened d e fs)
    (hlim : Dir.nextNumber d.validWals < Dir.fileLimit) : Running (d.run fs) e [] [] [] := by
  obtain ⟨hthrough, hw⟩ := hd.throughout_open ho hlim
  have hrun := hthrough.run
  have hfits := hd.fits_mem ho
  have honWal : ∀ op ∈ fs, op.OnWal := by
    rw [ho.ops_eq]
    intro op hop
    simp only [List.mem_append, List.mem_cons, List.mem_map] at hop
    rcases hop with ⟨a, -, rfl⟩ | rfl | hop | ⟨a, -, rfl⟩
    · trivial
    · trivial
    · split_ifs at hop
      · cases hop
      · rw [List.mem_singleton.mp hop]
        trivial
    · trivial
  obtain ⟨hssts, hmarker⟩ := Dir.run_of_onWal (d := d) honWal
  have hvalid := Dir.validSsts_congr hmarker hssts
  refine ⟨⟨e.mem.records, ⟨⟨[], hw, .nil⟩, Wal.holds_encode hfits, ?_, List.nil_prefix, ?_, ?_,
    hrun.ssts_lt, hrun.minValid_sst⟩, Table.recordsLayer_records _⟩, ?_, ?_, ?_, ?_, ?_, ?_⟩
  · rw [hvalid, ← List.reverse_reverse d.validSsts, ho.ssts_eq, List.map_reverse]
    exact (List.append_nil _).symm
  · rw [ho.immutable_eq]
    rfl
  · have hlt := hrun.wals_lt
    rwa [hw, ← List.nil_append [_], Dir.nextNumber_concat] at hlt
  · exact fun j hj => absurd hj List.not_mem_nil
  · exact fun j hj => absurd hj List.not_mem_nil
  · exact fun j hj => absurd hj List.not_mem_nil
  · exact fun j hj => absurd hj List.not_mem_nil
  · rw [ho.nextFlushSeq_eq, hvalid]
  · rw [ho.nextWALSeq_eq]
    exact Nat.lt_succ_self _

/-! ## Writing -/

/-- A batch that is cut while it is written leaves some of its operations. -/
theorem torn (h : Running d e old pend act) {ops : List BatchOp}
    (hfits : ∀ op ∈ ops, op.Fits) (j : ℕ) : ∃ ops', ops' <+: ops ∧ Recoverable
      (d.apply (.appendWal e.w ((Wal.encode (batchRecords e.nextSeq ops)).take j)))
    (applyOps e.get ops') := by
  obtain ⟨rs, hlaid, hmem⟩ := h.laid
  obtain ⟨qs, hqs, hfile⟩ := Wal.holds_torn hlaid.holds.fits (fits_batchRecords hfits e.nextSeq) j
  obtain ⟨ops', hops, rfl⟩ := batchRecords_prefix hqs
  have hrec := (hlaid.append hfile).recoverable
  rw [recordsLayer_append, hmem, atop_assoc, resolve_batch, ← e.get_eq] at hrec
  exact ⟨ops', hops, hrec⟩

theorem written (h : Running d e old pend act) {ops : List BatchOp} (hfits : ∀ op ∈ ops, op.Fits) :
    Running (d.apply (.appendWal e.w (Wal.encode (batchRecords e.nextSeq ops)))) (e.written ops)
      old pend act := by
  obtain ⟨rs, hlaid, hmem⟩ := h.laid
  have hall : ∀ r ∈ rs ++ batchRecords e.nextSeq ops, r.Fits := fun r hr =>
    (List.mem_append.mp hr).elim (hlaid.holds.fits r) (fits_batchRecords hfits e.nextSeq r)
  have hencode := Wal.encode_append rs (batchRecords e.nextSeq ops)
  have hlaid' := hlaid.append (hencode ▸ Wal.holds_encode hall)
  rw [← hencode] at hlaid'
  refine ⟨⟨rs ++ batchRecords e.nextSeq ops,
    ⟨hlaid'.wals, hlaid'.holds, hlaid'.ssts, hlaid'.shadowed, hlaid'.active, hlaid'.wals_lt,
      hlaid'.ssts_lt, hlaid'.minValid_sst⟩, ?_⟩, h.old_done, h.pend_done,
    h.act_busy, h.act_create, h.next_sst, h.next_wal⟩
  rw [recordsLayer_append, hmem]
  exact (Table.layer_applyRecords e.mem _).symm

/-- The memtable is frozen with its log, and a new log is opened. -/
theorem startFlush (h : Running d e old pend []) (hlim : e.Within) :
    Running (d.run e.startFlushLocked.2.2) e.startFlushLocked.1 old pend
      e.startFlushLocked.2.1 := by
  obtain ⟨rs, hlaid, hmem⟩ := h.laid
  obtain ⟨files, hw, hfiles⟩ := hlaid.wals
  rw [List.append_nil] at hfiles
  have hlt : ∀ a ∈ d.wals.entries, a.1 < e.nextWALSeq := fun a ha =>
    lt_of_lt_of_le (hlaid.wals_lt a ha) h.next_wal
  have hw' : (d.run e.startFlushLocked.2.2).validWals = (files ++ [(e.w, Wal.encode rs)]) ++
      [(e.nextWALSeq, [])] := by
    rw [← hw]
    exact Dir.validWals_openWal hlt ⟨hlaid.valid_w.1.trans h.next_wal.le, hlim.1⟩
  have hfiles' : List.Forall₂ Logged (files ++ [(e.w, Wal.encode rs)])
    (pend ++ e.startFlushLocked.2.1) :=
    List.rel_append hfiles (.cons ⟨rfl, rs, hlaid.holds, hmem⟩ .nil)
  refine ⟨⟨[], ⟨⟨_, hw', hfiles'⟩, Wal.holds_nil, hlaid.ssts, hlaid.shadowed, rfl, ?_,
    hlaid.ssts_lt, hlaid.minValid_sst⟩, rfl⟩, h.old_done, h.pend_done, ?_, ?_,
      h.next_sst.trans (Nat.le_succ _),
    Nat.lt_succ_self _⟩
  · exact SortedMap.forall_insert (P := (· < e.nextWALSeq + 1))
      (fun a ha => Nat.lt_succ_of_lt (hlt a ha)) (Nat.lt_succ_self _) _
  · intro j hj
    cases List.mem_singleton.mp hj
    exact ⟨FlushPhase.noConfusion, Nat.lt_succ_self _⟩
  · intro j hj _
    cases List.mem_singleton.mp hj
    exact h.next_sst

/-! ## Flushing -/

variable {job : FlushJob}

theorem create (h : Running d e old pend [job]) (hphase : job.phase = .create) (hlim : e.Within) :
    Running (d.apply (.createSst job.flushSeq)) e old pend [{ job with phase := .finish }] := by
  obtain ⟨rs, hlaid, hmem⟩ := h.laid
  obtain ⟨files, hw, hfiles⟩ := hlaid.wals
  have hnext := h.act_create job (List.mem_singleton_self _) hphase
  have hlt := (h.act_busy job (List.mem_singleton_self _)).2
  have hvalid := Dir.validSsts_createSst (n := job.flushSeq)
    (fun a ha => lt_of_lt_of_le (hlaid.ssts_lt a ha) hnext)
    ⟨hlaid.minValid_sst.trans hnext, hlt.trans hlim.2⟩
  have hnext' : Dir.nextNumber (d.apply (.createSst job.flushSeq)).validSsts =
      job.flushSeq + 1 := by
    rw [hvalid, Dir.nextNumber_concat]
  have hssts := hlaid.ssts
  rw [List.flatMap_singleton, FlushJob.file, hphase] at hssts
  refine ⟨⟨rs, ⟨⟨files, hw, logged_phase hfiles _⟩, hlaid.holds, ?_, hlaid.shadowed, hlaid.active,
    hlaid.wals_lt, ?_, ?_⟩, hmem⟩, h.old_done, h.pend_done, ?_, ?_, ?_, h.next_wal⟩
  · rw [hvalid, hssts, List.append_nil]
    rfl
  · rw [hnext']
    exact SortedMap.forall_insert (P := (· < job.flushSeq + 1))
      (fun a ha => Nat.lt_succ_of_lt (lt_of_lt_of_le (hlaid.ssts_lt a ha) hnext))
        (Nat.lt_succ_self _) _
  · rw [hnext']
    exact Nat.le_succ_of_le (hlaid.minValid_sst.trans hnext)
  · exact List.forall_mem_singleton.mpr ⟨FlushPhase.noConfusion, hlt⟩
  · exact List.forall_mem_singleton.mpr FlushPhase.noConfusion
  · rw [hnext']
    exact hlt

theorem finish (h : Running d e old pend [job]) (hphase : job.phase = .finish) :
    Running (d.apply (.finishSst job.flushSeq job.frozen)) e old pend
    [{ job with phase := .install }] := by
  obtain ⟨rs, hlaid, hmem⟩ := h.laid
  obtain ⟨files, hw, hfiles⟩ := hlaid.wals
  have hlt := (h.act_busy job (List.mem_singleton_self _)).2
  have hssts := hlaid.ssts
  rw [List.flatMap_singleton, FlushJob.file, hphase] at hssts
  have hvalid := Dir.validSsts_finishSst hssts job.frozen
  have hnext : Dir.nextNumber (d.apply (.finishSst job.flushSeq job.frozen)).validSsts =
      Dir.nextNumber d.validSsts := by
    rw [hvalid, hssts, Dir.nextNumber_concat, Dir.nextNumber_concat]
  refine ⟨⟨rs, ⟨⟨files, hw, logged_phase hfiles _⟩, hlaid.holds, hvalid, hlaid.shadowed,
    hlaid.active, hlaid.wals_lt, ?_, ?_⟩, hmem⟩, h.old_done, h.pend_done, ?_, ?_, ?_, h.next_wal⟩
  · rw [hnext]
    exact SortedMap.forall_modify (P := (· < _)) hlaid.ssts_lt _ _
  · rw [hnext]
    exact hlaid.minValid_sst
  · exact List.forall_mem_singleton.mpr ⟨FlushPhase.noConfusion, hlt⟩
  · exact List.forall_mem_singleton.mpr FlushPhase.noConfusion
  · rw [hnext]
    exact h.next_sst

/-- The goroutine's table is the newest of the installed ones, and its log becomes one to remove. -/
theorem install (h : Running d e old pend [job]) (hphase : job.phase = .install) :
    Running d { e with sstables := (job.flushSeq, job.frozen) :: e.sstables, immutable := none } old
      (pend ++ [{ job with phase := .remove }]) [] := by
  obtain ⟨rs, hlaid, hmem⟩ := h.laid
  obtain ⟨files, hw, hfiles⟩ := hlaid.wals
  have hssts := hlaid.ssts
  rw [List.flatMap_singleton, FlushJob.file, hphase] at hssts
  refine ⟨⟨rs, ⟨⟨files, hw, by rw [List.append_nil]; exact logged_phase hfiles .remove⟩,
    hlaid.holds, ?_, ?_, rfl, hlaid.wals_lt, hlaid.ssts_lt, hlaid.minValid_sst⟩, hmem⟩, h.old_done,
      ?_, ?_, ?_, h.next_sst, h.next_wal⟩
  · rw [hssts]
    simp
  · rw [List.reverse_append, List.map_append]
    exact List.cons_prefix_cons.mpr ⟨rfl, hlaid.shadowed⟩
  · exact List.forall_mem_append.mpr ⟨h.pend_done, List.forall_mem_singleton.mpr rfl⟩
  · exact fun j hj => absurd hj List.not_mem_nil
  · exact fun j hj => absurd hj List.not_mem_nil

/-- The oldest log whose table is installed is removed. -/
theorem remove_pend (h : Running d e old (job :: pend) act) :
    Running (d.apply (.removeWal job.frozenWAL)) e old pend act := by
  obtain ⟨rs, hlaid, hmem⟩ := h.laid
  obtain ⟨files, hw, hfiles⟩ := hlaid.wals
  cases hfiles with
  | @cons a _ files _ hhead htail =>
    obtain ⟨n, b⟩ := a
    obtain ⟨rfl, -⟩ := hhead
    have hshadowed : pend.reverse.map FlushJob.frozen <+: e.sstables.map Prod.snd := by
      refine List.IsPrefix.trans ?_ hlaid.shadowed
      rw [List.reverse_cons, List.map_append]
      exact List.prefix_append _ _
    exact ⟨⟨rs, ⟨⟨files, Dir.validWals_removeWal hw, htail⟩, hlaid.holds, hlaid.ssts, hshadowed,
      hlaid.active, SortedMap.forall_erase (P := (· < e.w + 1)) hlaid.wals_lt _, hlaid.ssts_lt,
      hlaid.minValid_sst⟩, hmem⟩, h.old_done, fun j hj => h.pend_done j (List.mem_cons_of_mem _ hj),
      h.act_busy, h.act_create, h.next_sst, h.next_wal⟩

/-- A log that a restore has made invalid is removed. -/
theorem remove_old {old' : List FlushJob} (h : Running d e (old ++ job :: old') pend act) :
    Running (d.apply (.removeWal job.frozenWAL)) e (old ++ old') pend act := by
  obtain ⟨rs, hlaid, hmem⟩ := h.laid
  obtain ⟨files, hw, hfiles⟩ := hlaid.wals
  have hw' := Dir.validWals_removeWal_of_lt (h.old_done job (by simp)).2
  refine ⟨⟨rs, ⟨⟨files, hw'.trans hw, hfiles⟩, hlaid.holds, hlaid.ssts, hlaid.shadowed,
    hlaid.active, SortedMap.forall_erase (P := (· < e.w + 1)) hlaid.wals_lt _, hlaid.ssts_lt,
    hlaid.minValid_sst⟩, hmem⟩, fun j hj => h.old_done j ?_, h.pend_done,
    h.act_busy, h.act_create, h.next_sst, h.next_wal⟩
  rcases List.mem_append.mp hj with hj | hj
  · exact List.mem_append_left _ hj
  · exact List.mem_append_right _ (List.mem_cons_of_mem _ hj)

end Running

end KvStore
