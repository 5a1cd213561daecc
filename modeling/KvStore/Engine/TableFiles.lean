import KvStore.Engine.Faults
import KvStore.Engine.Recovery

/-!
# The files of an engine's tables

While an engine runs, the file of an open table is as it was written, and no number is given to a
second table: a flush takes the next number, a restored snapshot one that is not smaller, and a
restore that failed leaves a file that only a later table can have, of which nothing has been read.

* `FsOp.sst`: the table file that an operation is on. `Dir.get_run_of_ne`: the others stay as they
  are.
* `Filed`: the open tables are in their files, below the next number; the running flushes have
  numbers of their own.
* `Settled`: a number below the next one that no running flush has.
* `Faulted.files`: every step of a store whose operations may fail keeps the tables in their files,
  and a settled number stays settled and never becomes the number of another table.
-/

namespace KvStore

open Layered Machine

/-! ## Operations on table files -/

/-- The number of the table file that the operation is on. -/
def FsOp.sst : FsOp → Option ℕ
  | .createSst n | .finishSst n _ | .removeSst n => some n
  | .openWal _ | .appendWal _ _ | .truncateWal _ _ | .removeWal _ | .renameMarker _ => none

namespace Dir

variable {d : Dir} {n : ℕ} {fs : List FsOp}

theorem get_apply_of_ne {op : FsOp} (h : op.sst ≠ some n) :
    (d.apply op).ssts.get n = d.ssts.get n := by
  cases op with
  | openWal | appendWal | truncateWal | removeWal | renameMarker => rfl
  | createSst m =>
    have hne : n ≠ m := fun heq => h (congrArg some heq.symm)
    exact (SortedMap.get_insert ..).trans (if_neg hne)
  | finishSst m t =>
    have hne : n ≠ m := fun heq => h (congrArg some heq.symm)
    exact (SortedMap.get_modify ..).trans (if_neg hne)
  | removeSst m =>
    have hne : n ≠ m := fun heq => h (congrArg some heq.symm)
    exact (SortedMap.get_erase ..).trans (if_neg hne)

/-- A table file that no operation is on stays as it is. -/
theorem get_run_of_ne (h : ∀ op ∈ fs, op.sst ≠ some n) : (d.run fs).ssts.get n = d.ssts.get n := by
  induction fs generalizing d with
  | nil => rfl
  | cons op fs ih =>
    rw [run_cons, ih fun op' hop => h op' (List.mem_cons_of_mem op hop),
      get_apply_of_ne (h op List.mem_cons_self)]

end Dir

/-! ## The tables of an engine -/

/-- The open tables are in their files and the running flushes have numbers of their own, all below
the next one. -/
structure Filed (d : Dir) (e : Engine) (jobs : List FlushJob) : Prop where
  live : ∀ a ∈ e.sstables, a.1 < e.nextFlushSeq ∧ d.ssts.get a.1 = some (some a.2)
  flushes : ∀ j ∈ jobs, j.flushSeq < e.nextFlushSeq
  apart : ∀ j ∈ jobs, j.busy → ∀ a ∈ e.sstables, a.1 ≠ j.flushSeq
  distinct : jobs.Pairwise fun j j' => j.flushSeq ≠ j'.flushSeq
  created : ∀ j ∈ jobs, j.phase = .finish → d.ssts.get j.flushSeq ≠ none
  finished : ∀ j ∈ jobs, j.phase = .install → d.ssts.get j.flushSeq = some (some j.frozen)

/-- The number is below the next one, and no running flush has it. -/
def Settled (e : Engine) (jobs : List FlushJob) (n : ℕ) : Prop :=
  n < e.nextFlushSeq ∧ ∀ j ∈ jobs, j.busy → j.flushSeq ≠ n

/-- The step has given no settled number to a table. -/
def KeepsSettled (e : Engine) (jobs : List FlushJob) (e' : Engine) (jobs' : List FlushJob) : Prop :=
  ∀ n, Settled e jobs n → Settled e' jobs' n ∧ ∀ t, (n, t) ∈ e'.sstables → (n, t) ∈ e.sstables

section

variable {d : Dir} {e e' : Engine} {jobs js js' : List FlushJob} {job : FlushJob} {fs : List FsOp}

theorem FlushJob.busy_of_phase {j : FlushJob} {p : FlushPhase} (h : j.phase = p)
    (hp : p ≠ .remove) : j.busy = true := by
  simp [busy, h, hp]

/-- The number of an open table is settled. -/
theorem Filed.settled (h : Filed d e jobs) {a : ℕ × Table} (ha : a ∈ e.sstables) :
    Settled e jobs a.1 :=
  ⟨(h.live a ha).1, fun j hj hbusy heq => h.apart j hj hbusy a ha heq.symm⟩

theorem KeepsSettled.refl (e : Engine) (jobs : List FlushJob) : KeepsSettled e jobs e jobs :=
  fun _ hn => ⟨hn, fun _ ht => ht⟩

theorem KeepsSettled.trans {e₁ e₂ e₃ : Engine} {js₁ js₂ js₃ : List FlushJob}
    (h : KeepsSettled e₁ js₁ e₂ js₂) (h' : KeepsSettled e₂ js₂ e₃ js₃) :
    KeepsSettled e₁ js₁ e₃ js₃ := fun n hn =>
  ⟨(h' n (h n hn).1).1, fun t ht => (h n hn).2 t ((h' n (h n hn).1).2 t ht)⟩

/-- Operations on other files. -/
theorem Filed.frame (h : Filed d e jobs) (hfs : ∀ op ∈ fs, ∀ n, op.sst = some n →
    (∀ a ∈ e.sstables, a.1 ≠ n) ∧ ∀ j ∈ jobs, j.busy → j.flushSeq ≠ n) :
    Filed (d.run fs) e jobs := by
  have htable : ∀ a ∈ e.sstables, (d.run fs).ssts.get a.1 = d.ssts.get a.1 := fun a ha =>
    Dir.get_run_of_ne fun op hop heq => (hfs op hop _ heq).1 a ha rfl
  have hjob : ∀ j ∈ jobs, j.busy → (d.run fs).ssts.get j.flushSeq = d.ssts.get j.flushSeq :=
    fun j hj hbusy =>
    Dir.get_run_of_ne fun op hop heq => (hfs op hop _ heq).2 j hj hbusy rfl
  refine ⟨fun a ha => ⟨(h.live a ha).1, (htable a ha).trans (h.live a ha).2⟩, h.flushes, h.apart,
    h.distinct, fun j hj hphase => ?_, fun j hj hphase => ?_⟩
  · rw [hjob j hj (FlushJob.busy_of_phase hphase nofun)]
    exact h.created j hj hphase
  · rw [hjob j hj (FlushJob.busy_of_phase hphase nofun)]
    exact h.finished j hj hphase

/-- Operations on logs. -/
theorem Filed.frame_wal (h : Filed d e jobs) (hfs : ∀ op ∈ fs, op.sst = none) :
    Filed (d.run fs) e jobs :=
  h.frame fun op hop n hn => by
    rw [hfs op hop] at hn
    cases hn

/-- An engine with the same tables and the same next number. -/
theorem Filed.congr (h : Filed d e jobs) (htables : e'.sstables = e.sstables)
    (hnext : e'.nextFlushSeq = e.nextFlushSeq) : Filed d e' jobs ∧ KeepsSettled e jobs e' jobs := by
  refine ⟨⟨?_, ?_, ?_, h.distinct, h.created, h.finished⟩, fun n hn => ⟨⟨?_, hn.2⟩, fun t ht => ?_⟩⟩
  · rw [htables, hnext]
    exact h.live
  · rw [hnext]
    exact h.flushes
  · rw [htables]
    exact h.apart
  · rw [hnext]
    exact hn.1
  · rwa [htables] at ht

/-- Fewer flushes. -/
theorem Filed.sublist (h : Filed d e jobs) (hsub : js.Sublist jobs) :
    Filed d e js ∧ KeepsSettled e jobs e js :=
  ⟨⟨h.live, fun j hj => h.flushes j (hsub.subset hj), fun j hj => h.apart j (hsub.subset hj),
    h.distinct.sublist hsub, fun j hj => h.created j (hsub.subset hj), fun j hj =>
      h.finished j (hsub.subset hj)⟩,
    fun _ hn => ⟨⟨hn.1, fun j hj => hn.2 j (hsub.subset hj)⟩, fun _ ht => ht⟩⟩

/-- A flush takes the next number. -/
theorem Filed.startFlush (h : Filed d e jobs) :
    Filed (d.run e.startFlushLocked.2.2) e.startFlushLocked.1 (jobs ++ e.startFlushLocked.2.1) ∧
      KeepsSettled e jobs e.startFlushLocked.1 (jobs ++ e.startFlushLocked.2.1) := by
  have hwal : Filed (d.run e.startFlushLocked.2.2) e jobs :=
    h.frame_wal (by simp [Engine.startFlushLocked, FsOp.sst])
  refine ⟨⟨fun a ha => ?_, ?_, ?_, ?_, ?_, ?_⟩, fun n hn =>
    ⟨⟨Nat.lt_succ_of_lt hn.1, ?_⟩, fun t ht => ht⟩⟩
  · exact ⟨Nat.lt_succ_of_lt (hwal.live a ha).1, (hwal.live a ha).2⟩
  · intro j hj
    rcases List.mem_append.mp hj with hj | hj
    · exact Nat.lt_succ_of_lt (h.flushes j hj)
    · rw [List.mem_singleton.mp hj]
      exact Nat.lt_succ_self _
  · intro j hj hbusy a ha
    rcases List.mem_append.mp hj with hj | hj
    · exact h.apart j hj hbusy a ha
    · rw [List.mem_singleton.mp hj]
      exact (h.live a ha).1.ne
  · refine List.pairwise_append.mpr ⟨h.distinct, List.pairwise_singleton _ _, fun j hj j' hj' => ?_⟩
    rw [List.mem_singleton.mp hj']
    exact (h.flushes j hj).ne
  · intro j hj hphase
    rcases List.mem_append.mp hj with hj | hj
    · exact hwal.created j hj hphase
    · rw [List.mem_singleton.mp hj] at hphase
      cases hphase
  · intro j hj hphase
    rcases List.mem_append.mp hj with hj | hj
    · exact hwal.finished j hj hphase
    · rw [List.mem_singleton.mp hj] at hphase
      cases hphase
  · intro j hj hbusy
    rcases List.mem_append.mp hj with hj | hj
    · exact hn.2 j hj hbusy
    · rw [List.mem_singleton.mp hj]
      exact hn.1.ne'

/-- The other flushes have other numbers. -/
theorem Filed.ne_of_mem (h : Filed d e (js ++ job :: js')) :
    ∀ j ∈ js ++ js', j.flushSeq ≠ job.flushSeq := by
  obtain ⟨-, htail, hcross⟩ := List.pairwise_append.mp h.distinct
  intro j hj
  rcases List.mem_append.mp hj with hj | hj
  · exact hcross j hj job List.mem_cons_self
  · exact ((List.pairwise_cons.mp htail).1 j hj).symm

theorem sublist_middle (js js' : List FlushJob) (job : FlushJob) :
    (js ++ js').Sublist (js ++ job :: js') :=
  List.Sublist.append_left (List.sublist_cons_self job js') js

/-- A flush that goes on has done something to its own file only. -/
theorem Filed.goesOn (h : Filed d e (js ++ job :: js')) (job' : FlushJob)
    (hseq : job'.flushSeq = job.flushSeq) (hbusy : job.busy)
    (hfs : ∀ op ∈ fs, op.sst = some job.flushSeq)
    (hcreated : job'.phase = .finish → (d.run fs).ssts.get job.flushSeq ≠ none) (hfinished :
    job'.phase = .install → (d.run fs).ssts.get job.flushSeq = some (some job'.frozen)) :
    Filed (d.run fs) e (js ++ ([job'] ++ js')) ∧
      KeepsSettled e (js ++ job :: js') e (js ++ ([job'] ++ js')) := by
  have hmem : ∀ j ∈ js ++ ([job'] ++ js'), j = job' ∨ j ∈ js ++ js' := by
    intro j hj
    simp only [List.mem_append, List.mem_singleton] at hj ⊢
    tauto
  have hjob : job ∈ js ++ job :: js' := by simp
  have hothers : Filed (d.run fs) e (js ++ js') :=
    (h.sublist (sublist_middle js js' job)).1.frame fun op hop n hn => by
      obtain rfl : n = job.flushSeq := Option.some.inj (hn.symm.trans (hfs op hop))
      exact ⟨h.apart job hjob hbusy, fun j hj _ => h.ne_of_mem j hj⟩
  refine ⟨⟨hothers.live, fun j hj => ?_, fun j hj hb => ?_, ?_, fun j hj hphase =>
    ?_, fun j hj hphase => ?_⟩, fun n hn => ⟨⟨hn.1, fun j hj hb => ?_⟩, fun t ht => ht⟩⟩
  · rcases hmem j hj with rfl | hj
    · exact hseq ▸ h.flushes job hjob
    · exact hothers.flushes j hj
  · rcases hmem j hj with rfl | hj
    · exact hseq ▸ h.apart job hjob hbusy
    · exact hothers.apart j hj hb
  · obtain ⟨hjs, htail, hcross⟩ := List.pairwise_append.mp h.distinct
    obtain ⟨hhead, hjs'⟩ := List.pairwise_cons.mp htail
    refine List.pairwise_append.mpr ⟨hjs, List.pairwise_cons.mpr ⟨hseq ▸ hhead, hjs'⟩,
      fun j hj j' hj' => ?_⟩
    rcases List.mem_cons.mp hj' with rfl | hj'
    · exact hseq ▸ hcross j hj job List.mem_cons_self
    · exact hcross j hj j' (List.mem_cons_of_mem job hj')
  · rcases hmem j hj with rfl | hj
    · exact hseq ▸ hcreated hphase
    · exact hothers.created j hj hphase
  · rcases hmem j hj with rfl | hj
    · exact hseq ▸ hfinished hphase
    · exact hothers.finished j hj hphase
  · rcases hmem j hj with rfl | hj
    · exact hseq ▸ hn.2 job hjob hbusy
    · exact hn.2 j ((sublist_middle js js' job).subset hj) hb

/-- The table of a flush is opened. -/
theorem Filed.install (h : Filed d e (js ++ job :: js')) (hphase : job.phase = .install) :
    Filed d { e with sstables := (job.flushSeq, job.frozen) :: e.sstables, immutable := none }
        (js ++ ([{ job with phase := .remove }] ++ js')) ∧
      KeepsSettled e (js ++ job :: js')
        { e with sstables := (job.flushSeq, job.frozen) :: e.sstables, immutable := none }
        (js ++ ([{ job with phase := .remove }] ++ js')) := by
  have hbusy := FlushJob.busy_of_phase hphase nofun
  have hjob : job ∈ js ++ job :: js' := by simp
  obtain ⟨hmoved, hkeeps⟩ :=
    h.goesOn { job with phase := .remove } rfl hbusy (List.forall_mem_nil _) nofun nofun
  refine ⟨⟨fun a ha => ?_, hmoved.flushes, fun j hj hb a ha => ?_, hmoved.distinct, hmoved.created,
    hmoved.finished⟩, fun n hn => ⟨(hkeeps n hn).1, fun t ht => ?_⟩⟩
  · rcases List.mem_cons.mp ha with rfl | ha
    · exact ⟨h.flushes job hjob, h.finished job hjob hphase⟩
    · exact h.live a ha
  · rcases List.mem_cons.mp ha with rfl | ha
    · -- a flush that is still busy is another one
      have hother : j ∈ js ++ js' := by
        simp only [List.mem_append, List.mem_singleton] at hj ⊢
        rcases hj with hj | rfl | hj
        · exact Or.inl hj
        · cases hb
        · exact Or.inr hj
      exact (h.ne_of_mem j hother).symm
    · exact hmoved.apart j hj hb a ha
  · rcases List.mem_cons.mp ht with heq | ht
    · exact absurd (Prod.mk.inj heq).1.symm (hn.2 job hjob hbusy)
    · exact ht

/-- A step of a flush. -/
theorem Filed.worked (h : Filed d e (js ++ job :: js')) :
    Filed (d.run (job.step e).2.2) (job.step e).1 (js ++ ((job.step e).2.1 ++ js')) ∧
      KeepsSettled e (js ++ job :: js') (job.step e).1 (js ++ ((job.step e).2.1 ++ js')) := by
  have hjob : job ∈ js ++ job :: js' := by simp
  unfold FlushJob.step
  cases hphase : job.phase with
  | create =>
    refine h.goesOn _ rfl (FlushJob.busy_of_phase hphase nofun) (by simp [FsOp.sst])
      (fun _ => ?_) nofun
    have hget : (d.run [.createSst job.flushSeq]).ssts.get job.flushSeq = some none :=
      (SortedMap.get_insert ..).trans (if_pos rfl)
    rw [hget]
    nofun
  | finish =>
    rw [show Table.write job.frozen.entries = some job.frozen from SortedMap.ofList_entries _]
    refine h.goesOn _ rfl (FlushJob.busy_of_phase hphase nofun) (by simp [FsOp.sst]) nofun
      (fun _ => ?_)
    obtain ⟨o, ho⟩ := Option.ne_none_iff_exists'.mp (h.created job hjob hphase)
    exact (SortedMap.get_modify ..).trans ((if_pos rfl).trans (by rw [ho]; rfl))
  | install => exact h.install hphase
  | remove =>
    obtain ⟨hfiled, hkeeps⟩ := h.sublist (sublist_middle js js' job)
    exact ⟨hfiled.frame_wal (by simp [FsOp.sst]), hkeeps⟩

/-- A flush does nothing to the file of another table. -/
theorem FlushJob.step_sst (job : FlushJob) (e : Engine) :
    ∀ op ∈ (job.step e).2.2, ∀ n, op.sst = some n → n = job.flushSeq ∧ job.busy := by
  unfold FlushJob.step
  cases hphase : job.phase with
  | create =>
    intro op hop n hn
    rw [List.mem_singleton.mp hop] at hn
    exact ⟨(Option.some.inj hn).symm, busy_of_phase hphase nofun⟩
  | finish =>
    rw [show Table.write job.frozen.entries = some job.frozen from SortedMap.ofList_entries _]
    intro op hop n hn
    rw [List.mem_singleton.mp hop] at hn
    exact ⟨(Option.some.inj hn).symm, busy_of_phase hphase nofun⟩
  | install => nofun
  | remove =>
    intro op hop n hn
    rw [List.mem_singleton.mp hop] at hn
    cases hn

/-- A flush that fails leaves its own file in some state. -/
theorem Filed.failed (h : Filed d e (js ++ job :: js')) (k : ℕ) :
    Filed (d.run ((job.step e).2.2.take k)) (job.fail e) (js ++ js') ∧
      KeepsSettled e (js ++ job :: js') (job.fail e) (js ++ js') := by
  have hjob : job ∈ js ++ job :: js' := by simp
  obtain ⟨hfewer, hkeeps⟩ := h.sublist (sublist_middle js js' job)
  have hframed : Filed (d.run ((job.step e).2.2.take k)) e (js ++ js') :=
    hfewer.frame fun op hop n hn => by
    obtain ⟨rfl, hbusy⟩ := job.step_sst e op (List.mem_of_mem_take hop) n hn
    exact ⟨h.apart job hjob hbusy, fun j hj _ => h.ne_of_mem j hj⟩
  have hsame : (job.fail e).sstables = e.sstables ∧ (job.fail e).nextFlushSeq = e.nextFlushSeq := by
    unfold FlushJob.fail
    cases job.phase with
    | create | finish | install | remove => exact ⟨rfl, rfl⟩
  obtain ⟨hfiled, hkeeps'⟩ := hframed.congr hsame.1 hsame.2
  exact ⟨hfiled, hkeeps.trans hkeeps'⟩

/-! ## Restoring a snapshot -/

theorem lt_newSeq_of_settled {n : ℕ} (h : Settled e jobs n) : n < e.newSeq :=
  h.1.trans_le (le_max_left ..)

theorem restoreBefore_sst {t : Table} : ∀ op ∈ e.restoreBefore t, ∀ n, op.sst = some n →
    n = e.newSeq := by
  intro op hop n hn
  simp only [Engine.restoreBefore, List.mem_cons, List.not_mem_nil, or_false] at hop
  rcases hop with rfl | rfl | rfl
  · exact (Option.some.inj hn).symm
  · exact (Option.some.inj hn).symm
  · cases hn

/-- What a restore does before its rename is on files with a new number. -/
theorem restoreSnapshot_sst {data : Bytes} {k : ℕ} (hk : k ≤ 3) :
    ∀ op ∈ (e.restoreSnapshot data).1.take k, ∀ n, op.sst = some n → n = e.newSeq := by
  intro op hop n hn
  have hthree : op ∈ (e.restoreSnapshot data).1.take 3 := List.take_subset_take_left _ hk hop
  unfold Engine.restoreSnapshot at hthree
  split_ifs at hthree
  · cases hthree
  split at hthree
  · cases hthree
  split at hthree
  · rw [List.mem_singleton.mp hthree] at hn
    exact (Option.some.inj hn).symm
  · exact restoreBefore_sst op hthree n hn

/-- A restore that fails before its rename. -/
theorem Filed.refused (h : Filed d e jobs) {data : Bytes} {k : ℕ} (hk : k ≤ 3) :
    Filed (d.run ((e.restoreSnapshot data).1.take k)) e jobs := by
  refine h.frame fun op hop n hn => ?_
  obtain rfl := restoreSnapshot_sst hk op hop n hn
  exact ⟨fun a ha => (lt_newSeq_of_settled (h.settled ha)).ne,
    fun j hj _ => ((h.flushes j hj).trans_le (le_max_left ..)).ne⟩

/-- A snapshot that is restored is in a file with a new number, and the files of the other tables
go, or some of them do. -/
theorem Filed.restored (h : Filed d e jobs) {data : Bytes}
    (hrun : e.restoreSnapshot data = (fs, .ok e')) {removals : List FsOp}
    (hremovals : removals ⊆ fs.drop 4) : Filed (d.run (fs.take 4 ++ removals)) e' jobs ∧
      KeepsSettled e jobs e' jobs := by
  obtain ⟨-, kvs, t, -, -, rfl, rfl⟩ := Engine.restoreSnapshot_ok hrun
  rw [show (e.restoreBefore t ++ FsOp.renameMarker e.newSeq :: e.restoreAfter).take 4 ++ removals =
    e.restoreBefore t ++ FsOp.renameMarker e.newSeq :: removals from rfl]
  have hnew : ∀ j ∈ jobs, j.flushSeq < e.newSeq :=
    fun j hj => (h.flushes j hj).trans_le (le_max_left ..)
  have hafter : ∀ op ∈ FsOp.renameMarker e.newSeq :: removals, ∀ n, op.sst = some n →
      ∃ a ∈ e.sstables, a.1 = n := by
    intro op hop n hn
    rcases List.mem_cons.mp hop with rfl | hop
    · cases hn
    · have hremoval : op ∈ e.restoreAfter := hremovals hop
      simp only [Engine.restoreAfter, List.mem_append, List.mem_map, List.mem_singleton] at hremoval
      rcases hremoval with ⟨a, ha, rfl⟩ | rfl
      · exact ⟨a, ha, Option.some.inj hn⟩
      · cases hn
  have hbefore : (d.run (e.restoreBefore t)).ssts.get e.newSeq = some (some t) := by
    refine (SortedMap.get_modify ..).trans ((if_pos rfl).trans ?_)
    rw [show (d.apply (.createSst e.newSeq)).ssts.get e.newSeq = some none from
      (SortedMap.get_insert ..).trans (if_pos rfl)]
    rfl
  have htable : (d.run (e.restoreBefore t ++ FsOp.renameMarker e.newSeq :: removals)).ssts.get
      e.newSeq = some (some t) := by
    rw [Dir.run_append, Dir.get_run_of_ne fun op hop heq => ?_, hbefore]
    obtain ⟨a, ha, heq⟩ := hafter op hop _ heq
    exact (lt_newSeq_of_settled (h.settled ha)).ne heq
  have hjob : ∀ j ∈ jobs, j.busy →
      (d.run (e.restoreBefore t ++ FsOp.renameMarker e.newSeq :: removals)).ssts.get j.flushSeq =
        d.ssts.get j.flushSeq := by
    intro j hj hbusy
    refine Dir.get_run_of_ne fun op hop heq => ?_
    rcases List.mem_append.mp hop with hop | hop
    · exact (hnew j hj).ne (restoreBefore_sst op hop _ heq)
    · obtain ⟨a, ha, heq⟩ := hafter op hop _ heq
      exact h.apart j hj hbusy a ha heq
  refine ⟨⟨fun a ha => ?_, fun j hj => (hnew j hj).trans (Nat.lt_succ_self _),
    fun j hj hbusy a ha => ?_, h.distinct, fun j hj hphase => ?_, fun j hj hphase => ?_⟩,
      fun n hn => ⟨⟨?_, hn.2⟩, fun t' ht' => ?_⟩⟩
  · rw [List.mem_singleton.mp ha]
    exact ⟨Nat.lt_succ_self _, htable⟩
  · rw [List.mem_singleton.mp ha]
    exact (hnew j hj).ne'
  · rw [hjob j hj (FlushJob.busy_of_phase hphase nofun)]
    exact h.created j hj hphase
  · rw [hjob j hj (FlushJob.busy_of_phase hphase nofun)]
    exact h.finished j hj hphase
  · exact (lt_newSeq_of_settled hn).trans (Nat.lt_succ_self _)
  · exact absurd (Prod.mk.inj (List.mem_singleton.mp ht')).1 (lt_newSeq_of_settled hn).ne

/-- What `Open` has opened is in its file, and the next number is greater. -/
theorem Filed.opened (h : openEngine d = some (e, fs)) : Filed (d.run fs) e [] := by
  have ho := KvStore.opened h
  have hwal : ∀ op ∈ fs, op.OnWal := by
    rw [ho.ops_eq]
    intro op hop
    simp only [List.mem_append, List.mem_cons, List.mem_map] at hop
    rcases hop with ⟨a, -, rfl⟩ | rfl | hop | ⟨a, -, rfl⟩
    · trivial
    · trivial
    · split_ifs at hop
      · cases hop
      · rw [List.mem_singleton.mp hop]
        trivial
    · trivial
  refine ⟨fun a ha => ?_, nofun, nofun, .nil, nofun, nofun⟩
  have hvalid : (a.1, some a.2) ∈ d.validSsts := by
    rw [← List.mem_reverse, ho.ssts_eq]
    exact List.mem_map_of_mem ha
  rw [(Dir.run_of_onWal hwal).1, ho.nextFlushSeq_eq]
  exact ⟨Dir.lt_nextNumber hvalid, SortedMap.mem_entries.mp (SortedMap.mem_within.mp hvalid).1⟩

end

/-! ## Runs -/

namespace Store

/-- The engine's tables, if there is an engine, are in their files. -/
def Filed (σ : Store) : Prop := ∀ e, σ.eng = some e → KvStore.Filed σ.disk e σ.jobs

variable {threshold : ℕ} {σ σ' : Store}

/-- A step has kept the engine's tables in their files and, if the engine goes on, settled numbers
settled. -/
def KeepsFiles (σ σ' : Store) : Prop :=
  σ'.Filed ∧ ∀ e e', σ.eng = some e → σ'.eng = some e' → KeepsSettled e σ.jobs e' σ'.jobs

theorem KeepsFiles.of_down (hdown : σ'.eng = none) : KeepsFiles σ σ' := by
  constructor
  · intro e he
    rw [hdown] at he
    cases he
  · intro _ e' _ he'
    rw [hdown] at he'
    cases he'

theorem KeepsFiles.of_up {e e' : Engine} (up : σ.eng = some e) (up' : σ'.eng = some e')
    (h : KvStore.Filed σ'.disk e' σ'.jobs ∧ KeepsSettled e σ.jobs e' σ'.jobs) :
    KeepsFiles σ σ' := by
  constructor
  · intro e₁ he₁
    obtain rfl := Option.some.inj (up'.symm.trans he₁)
    exact h.1
  · intro e₁ e₂ he₁ he₂
    obtain rfl := Option.some.inj (up.symm.trans he₁)
    obtain rfl := Option.some.inj (up'.symm.trans he₂)
    exact h.2

/-- A call that starts no flush. -/
theorem KeepsFiles.of_call {e e' : Engine} {fs : List FsOp} (up : σ.eng = some e)
    (h : KvStore.Filed (σ.disk.run fs) e' σ.jobs ∧ KeepsSettled e σ.jobs e' σ.jobs) :
    KeepsFiles σ (σ.returned e' [] fs) := by
  refine .of_up up rfl ?_
  rwa [show (σ.returned e' [] fs).jobs = σ.jobs from List.append_nil _]

/-- A call that starts no flush and works on logs only. -/
theorem KeepsFiles.of_wal (hfiled : σ.Filed) {e e' : Engine} {fs : List FsOp} (up : σ.eng = some e)
    (hfs : ∀ op ∈ fs, op.sst = none) (htables : e'.sstables = e.sstables)
    (hnext : e'.nextFlushSeq = e.nextFlushSeq) : KeepsFiles σ (σ.returned e' [] fs) :=
  .of_call up (((hfiled e up).frame_wal hfs).congr htables hnext)

theorem Stepped.files {a : StoreAction} (h : Stepped threshold σ a σ') (hfiled : σ.Filed) :
    KeepsFiles σ σ' := by
  cases h with
  | opened down run =>
    refine ⟨fun e he => ?_, fun e _ he => ?_⟩
    · cases he
      exact .opened run
    · rw [down] at he
      cases he
  | openCut | crashed | crashedIn | restoreCut => exact .of_down rfl
  | @batched e e' ops jobs fs up idle run =>
    obtain ⟨-, ⟨-, rfl, rfl, rfl⟩ | ⟨-, rfl, rfl, rfl⟩ | ⟨-, rfl, rfl, rfl⟩⟩ :=
      Engine.applyBatch_cases run
    · exact KeepsFiles.of_wal hfiled up nofun rfl rfl
    · exact KeepsFiles.of_wal hfiled up (by simp [FsOp.sst]) rfl rfl
    · have hlogged : KvStore.Filed
        (σ.disk.run [.appendWal e.w (Wal.encode (batchRecords e.nextSeq ops))]) e σ.jobs :=
        (hfiled e up).frame_wal (by simp [FsOp.sst])
      obtain ⟨hwritten, hkeeps⟩ : KvStore.Filed _ (e.written ops) σ.jobs ∧
        KeepsSettled e σ.jobs _ σ.jobs :=
        hlogged.congr rfl rfl
      exact .of_up up rfl ⟨hwritten.startFlush.1, hkeeps.trans hwritten.startFlush.2⟩
  | @flushed e e' jobs fs up idle run =>
    obtain ⟨-, ⟨rfl, rfl, rfl⟩ | hstart⟩ := Engine.flush_cases run
    · exact KeepsFiles.of_wal hfiled up nofun rfl rfl
    · cases hstart
      exact .of_up up rfl (hfiled e up).startFlush
  | @worked e job js js' i up split pos =>
    exact .of_up up rfl (split ▸ (split ▸ hfiled e up).worked)
  | @restored e e' data kvs fs up decoded run =>
    have hrestored := (hfiled e up).restored run (List.Subset.refl _)
    rw [List.take_append_drop] at hrestored
    exact KeepsFiles.of_call up hrestored
  | @refused e data k up early =>
    exact .of_call up ⟨(hfiled e up).refused (early.trans (List.length_take_le 3 _)),
      KeepsSettled.refl e σ.jobs⟩

/-- A step of a store whose operations may fail keeps the tables of its engine in their files, and
gives no settled number to a table. -/
theorem Faulted.files {a : FaultAction} (h : Faulted threshold σ a σ') (hfiled : σ.Filed) :
    KeepsFiles σ σ' := by
  cases h with
  | stepped run => exact run.files hfiled
  | appendFailed up => exact .of_wal hfiled up (by simp [FsOp.sst]) rfl rfl
  | flushStartFailed up => exact .of_wal hfiled up (by simp [FsOp.sst]) rfl rfl
  | refused =>
    refine ⟨hfiled, fun e e' he he' => ?_⟩
    obtain rfl := Option.some.inj (he.symm.trans he')
    exact .refl e σ.jobs
  | @jobFailed e job js js' i k up split =>
    exact .of_up up rfl (split ▸ (split ▸ hfiled e up).failed k)
  | @restored e e' data kvs fs left up run =>
    refine KeepsFiles.of_call up ((hfiled e up).restored run fun op hop => ?_)
    obtain ⟨a, ha, rfl⟩ := List.mem_map.mp hop
    exact (List.mem_zipIdx' (List.mem_filter.mp ha).1).2 ▸ List.getElem_mem _

end Store

end KvStore
