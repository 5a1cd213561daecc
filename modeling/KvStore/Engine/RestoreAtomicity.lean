import KvStore.Engine.CrashRecovery

/-!
# A restore that does not succeed

`RestoreSnapshot` writes its table and its log under the names that `Open` looks for, and only then
the marker. What it leaves if it stops before the rename is one table too many: `Open` takes it for
the newest one. A flush that comes to the same number overwrites it.

* `Store.Unflushed`: no flush has come to the number yet.
* `Twin`: the store, and the one in which the restore was not tried. Both make the same steps.
* `Twin.shows_iff`: what `Open` shows of the one, in terms of the other.
* `restore_all_or_nothing`: when the old content is shown after a restore that stopped before the
  rename. After the rename it is always the snapshot's.
-/

namespace KvStore

open Layered Machine

/-- `Open` succeeds and shows the content. -/
def Dir.Shows (d : Dir) (c : Content) : Prop := ∃ e fs, openEngine d = some (e, fs) ∧ e.get = c

theorem Dir.shows_iff {d : Dir} {c : Content} :
    d.Shows c ↔ d.Finished ∧ d.content = c := by
  rw [← exists_openEngine_iff]
  constructor
  · rintro ⟨e, fs, hopen, rfl⟩
    exact ⟨⟨e, fs, hopen⟩, (opened hopen).get_eq.symm⟩
  · rintro ⟨⟨e, fs, hopen⟩, rfl⟩
    exact ⟨e, fs, hopen, (opened hopen).get_eq⟩

/-- A write, a flush or a step of one. -/
def StoreAction.Writes : StoreAction → Prop
  | .batch _ | .flush | .job _ => True
  | _ => False

/-- No flush has made a file with the number. -/
def Store.Unflushed (σ : Store) (n : ℕ) : Prop :=
  (∀ e ∈ σ.eng, e.nextFlushSeq ≤ n) ∨ ∃ j ∈ σ.jobs, j.phase = .create ∧ j.flushSeq = n

/-! ## The store without the restore -/

/-- A log with the number `n` may have been added. -/
def WalsBeside (n : ℕ) (wals wals' : SortedMap ℕ Bytes) : Prop :=
  (wals.get n = none ∧ wals' = wals.insert n []) ∨ wals' = wals

namespace WalsBeside

variable {n m : ℕ} {wals wals' : SortedMap ℕ Bytes}

theorem openWal (h : WalsBeside n wals wals') (m : ℕ) :
    WalsBeside n (wals.insert m ((wals.get m).getD []))
    (wals'.insert m ((wals'.get m).getD [])) := by
  rcases h with ⟨hnone, rfl⟩ | rfl
  · by_cases hm : m = n
    · subst hm
      right
      rw [hnone, SortedMap.get_insert, if_pos rfl, SortedMap.insert_insert]
      rfl
    · left
      rw [SortedMap.get_insert, if_neg (Ne.symm hm), SortedMap.get_insert, if_neg hm]
      exact ⟨hnone, SortedMap.insert_comm _ (Ne.symm hm) _ _⟩
  · exact Or.inr rfl

theorem modify (h : WalsBeside n wals wals') (hm : wals.get m ≠ none) (f : Bytes → Bytes) :
    WalsBeside n (wals.modify m f) (wals'.modify m f) := by
  rcases h with ⟨hnone, rfl⟩ | rfl
  · have hne : n ≠ m := fun heq => hm (heq ▸ hnone)
    left
    rw [SortedMap.get_modify, if_neg hne]
    exact ⟨hnone, SortedMap.insert_modify_comm _ hne _ _⟩
  · exact Or.inr rfl

theorem erase (h : WalsBeside n wals wals') (hm : wals.get n = none → m ≠ n) :
    WalsBeside n (wals.erase m) (wals'.erase m) := by
  rcases h with ⟨hnone, rfl⟩ | rfl
  · left
    rw [SortedMap.get_erase, if_neg (hm hnone).symm]
    exact ⟨hnone, SortedMap.insert_erase_comm _ (hm hnone).symm _⟩
  · exact Or.inr rfl

theorem mem (h : WalsBeside n wals wals') {a : ℕ × Bytes} (ha : a ∈ wals.entries) :
    a ∈ wals'.entries := by
  rcases h with ⟨hnone, rfl⟩ | rfl
  · have hget := SortedMap.mem_entries.mp ha
    have hne : a.1 ≠ n := by
      rintro rfl
      rw [hnone] at hget
      cases hget
    exact SortedMap.mem_entries.mpr (by rw [SortedMap.get_insert, if_neg hne]; exact hget)
  · exact ha

end WalsBeside

/-- `σ'` has the files of a restore that did not succeed, and is otherwise `σ`. -/
structure Twin (n : ℕ) (o : Option Table) (σ σ' : Store) : Prop where
  eng : σ'.eng = σ.eng
  jobs : σ'.jobs = σ.jobs
  truth : σ'.truth = σ.truth
  marker : σ'.disk.marker = σ.disk.marker
  minValid : σ.disk.minValidSeq ≤ n
  wals : WalsBeside n σ.disk.wals σ'.disk.wals
  ssts : (σ.Unflushed n ∧ σ'.disk.ssts = σ.disk.ssts.insert n o) ∨
    (¬σ.Unflushed n ∧ σ'.disk.ssts = σ.disk.ssts)

namespace Store

variable {threshold n : ℕ} {σ σ' τ' : Store} {a : StoreAction} {e : Engine}

theorem unflushed_iff (hup : σ.eng = some e) :
    σ.Unflushed n ↔ e.nextFlushSeq ≤ n ∨ ∃ j ∈ σ.jobs, j.phase = .create ∧ j.flushSeq = n := by
  unfold Unflushed
  rw [hup]
  simp

theorem unflushed_congr {τ : Store} {e' : Engine} (hup : σ.eng = some e) (hup' : τ.eng = some e')
    (hnext : e'.nextFlushSeq = e.nextFlushSeq) (hjobs : τ.jobs = σ.jobs) : τ.Unflushed n ↔
      σ.Unflushed n := by
  rw [unflushed_iff hup', unflushed_iff hup, hnext, hjobs]

/-- The number of the flush that is started is now the goroutine's. -/
theorem unflushed_startFlush {τ : Store} {e₀ : Engine} (hup : σ.eng = some e)
    (hup' : τ.eng = some e₀.startFlushLocked.1) (hnext : e₀.nextFlushSeq = e.nextFlushSeq)
    (hjobs : τ.jobs = σ.jobs ++ e₀.startFlushLocked.2.1) : τ.Unflushed n ↔ σ.Unflushed n := by
  rw [unflushed_iff hup', unflushed_iff hup, hjobs, ← hnext]
  simp only [Engine.startFlushLocked, List.mem_append, List.mem_singleton]
  constructor
  · rintro (hle | ⟨j, hj | rfl, hphase, hseq⟩)
    · exact Or.inl (Nat.le_of_succ_le hle)
    · exact Or.inr ⟨j, hj, hphase, hseq⟩
    · exact Or.inl hseq.le
  · rintro (hle | ⟨j, hj, hphase, hseq⟩)
    · rcases Nat.eq_or_lt_of_le hle with heq | hlt
      · exact Or.inr ⟨_, Or.inr rfl, rfl, heq⟩
      · exact Or.inl hlt
    · exact Or.inr ⟨j, Or.inl hj, hphase, hseq⟩

end Store

/-- The goroutines next to one that is not done are. -/
theorem Tracks.others_done {e : Engine} {js js' : List FlushJob} {job : FlushJob}
    (h : Tracks e (js ++ job :: js')) (hbusy : job.busy) :
    (∀ j ∈ js, j.phase = .remove) ∧ ∀ j ∈ js', j.phase = .remove := by
  obtain ⟨-, hjs, hjs'⟩ := h.busy hbusy
  rw [List.filter_eq_nil_iff] at hjs hjs'
  exact ⟨fun j hj => by simpa [FlushJob.busy] using hjs j hj,
    fun j hj => by simpa [FlushJob.busy] using hjs' j hj⟩

/-- A log that is to be removed is there, or is not valid any more. -/
theorem Running.frozenWAL_ne {d : Dir} {e : Engine} {old pend act : List FlushJob}
    {job : FlushJob} {n : ℕ} (h : Running d e old pend act) (hjob : job ∈ old ++ (pend ++ act))
    (hphase : job.phase = .remove) (hmin : d.minValidSeq ≤ n) (hnone : d.wals.get n = none) :
    job.frozenWAL ≠ n := by
  rintro rfl
  rcases List.mem_append.mp hjob with hold | hjob
  · exact absurd (h.old_done job hold).2 (not_lt.mpr hmin)
  · rcases List.mem_append.mp hjob with hpend | hact
    · obtain ⟨b, hb⟩ := h.wal_of_pend hpend
      rw [SortedMap.mem_entries.mp (SortedMap.mem_within.mp hb).1] at hnone
      cases hnone
    · exact absurd hphase (h.act_busy job hact).1

/-- As long as no flush has come to the number, all tables are below it. -/
theorem Running.lt_of_unflushed {σ : Store} {e : Engine} {old pend act : List FlushJob} {n : ℕ}
    (h : Running σ.disk e old pend act) (hup : σ.eng = some e)
    (hjobs : σ.jobs = old ++ (pend ++ act)) (hu : σ.Unflushed n) :
    ∀ a ∈ σ.disk.ssts.entries, a.1 < n := by
  obtain ⟨rs, hlaid, -⟩ := h.laid
  refine fun a ha => lt_of_lt_of_le (hlaid.ssts_lt a ha) ?_
  rcases (Store.unflushed_iff hup).mp hu with hle | ⟨j, hj, hphase, rfl⟩
  · exact h.next_sst.trans hle
  · rw [hjobs, ← List.append_assoc] at hj
    rcases List.mem_append.mp hj with hj | hj
    · rcases List.mem_append.mp hj with hj | hj
      · exact FlushPhase.noConfusion ((h.old_done j hj).1.symm.trans hphase)
      · exact FlushPhase.noConfusion ((h.pend_done j hj).symm.trans hphase)
    · exact h.act_create j hj hphase

namespace Twin

open Store

variable {threshold n : ℕ} {o : Option Table} {σ σ' τ' : Store} {a : StoreAction} {e : Engine}

theorem guarded (h : Twin n o σ σ') (ha : a.Writes) (hg : σ'.Guarded a) : σ.Guarded a := by
  have hwithin : σ'.Within → σ.Within := fun hw e he => hw e (h.eng ▸ he)
  cases a with
  | batch ops => exact ⟨hwithin hg.1, hg.2⟩
  | flush => exact hwithin hg
  | job i =>
    refine ⟨hwithin hg.1, fun job hjob hphase hmin b hb => ?_⟩
    have hminValid : σ'.disk.minValidSeq = σ.disk.minValidSeq := congrArg (Option.getD · 0) h.marker
    refine hg.2 job (h.jobs ▸ hjob) hphase (hminValid ▸ hmin) b ?_
    obtain ⟨hmem, hvalid⟩ := SortedMap.mem_within.mp hb
    exact SortedMap.mem_within.mpr ⟨h.wals.mem hmem, by rw [Dir.Valid, hminValid]; exact hvalid⟩
  | openOk | openCut | restore | restoreErr | crash | crashIn | restoreCut => cases ha

/-- The same call on both stores, if it makes no table file. -/
theorem returned (h : Twin n o σ σ') {e' : Engine} {jobs : List FlushJob} {fs : List FsOp}
    {c c' : Content} (hc : c' = c) (honWal : ∀ op ∈ fs, op.OnWal)
    (hwals : WalsBeside n (σ.disk.run fs).wals (σ'.disk.run fs).wals)
    (hunflushed : ({ σ.returned e' jobs fs with truth := c } : Store).Unflushed n ↔ σ.Unflushed n) :
    Twin n o { σ.returned e' jobs fs with truth := c }
    { σ'.returned e' jobs fs with truth := c' } := by
  obtain ⟨hssts, hmarker⟩ := Dir.run_of_onWal (d := σ.disk) honWal
  obtain ⟨hssts', hmarker'⟩ := Dir.run_of_onWal (d := σ'.disk) honWal
  refine ⟨rfl, congrArg (· ++ jobs) h.jobs, hc, ?_, ?_, hwals, ?_⟩
  · exact hmarker'.trans (h.marker.trans hmarker.symm)
  · show (σ.disk.run fs).minValidSeq ≤ n
    rw [Dir.minValidSeq, hmarker]
    exact h.minValid
  · rw [hunflushed]
    show _ ∧ (σ'.disk.run fs).ssts = (σ.disk.run fs).ssts.insert n o ∨
      _ ∧ (σ'.disk.run fs).ssts = (σ.disk.run fs).ssts
    rw [hssts, hssts']
    exact h.ssts

theorem unflushed_of_done {js js' : List FlushJob} {job : FlushJob} (hup : σ.eng = some e)
    (hjobs : σ.jobs = js ++ job :: js') (hjs : ∀ j ∈ js, j.phase = .remove)
    (hjs' : ∀ j ∈ js', j.phase = .remove) :
    σ.Unflushed n ↔ e.nextFlushSeq ≤ n ∨ job.phase = .create ∧ job.flushSeq = n := by
  have hcreate : ∀ j : FlushJob, j.phase = .remove → ¬(j.phase = .create ∧ j.flushSeq = n) := by
    rintro j hremove ⟨hphase, -⟩
    exact FlushPhase.noConfusion (hremove.symm.trans hphase)
  rw [unflushed_iff hup, hjobs]
  refine or_congr Iff.rfl ⟨?_, fun hjob => ⟨job, by simp, hjob⟩⟩
  rintro ⟨j, hj, hjob⟩
  rcases List.mem_append.mp hj with hj | hj
  · exact absurd hjob (hcreate j (hjs j hj))
  · rcases List.mem_cons.mp hj with rfl | hj
    · exact hjob
    · exact absurd hjob (hcreate j (hjs' j hj))

/-- The same step of a goroutine on both stores. -/
theorem worked (h : Twin n o σ σ') {js js' : List FlushJob} {job : FlushJob} (hup : σ.eng = some e)
    (htracks : Tracks e (js ++ job :: js')) (hjobs : σ.jobs = js ++ job :: js')
    (hremove : job.phase = .remove → σ.disk.wals.get n = none → job.frozenWAL ≠ n) :
    Twin n o
      { σ with
        disk := σ.disk.run (job.step e).2.2
        eng := some (job.step e).1
        jobs := js ++ ((job.step e).2.1 ++ js') }
      { σ' with
        disk := σ'.disk.run (job.step e).2.2
        eng := some (job.step e).1
        jobs := js ++ ((job.step e).2.1 ++ js') } := by
  by_cases hphase : job.phase = .remove
  · have hsame : ({ σ with
        disk := σ.disk.apply (.removeWal job.frozenWAL)
        eng := some e
        jobs := js ++ js' } : Store).Unflushed n ↔ σ.Unflushed n := by
      rw [unflushed_iff rfl, unflushed_iff hup, hjobs]
      refine or_congr Iff.rfl ⟨fun ⟨j, hj, hcreate⟩ => ⟨j, ?_, hcreate⟩, fun ⟨j, hj, hcreate⟩ =>
        ⟨j, ?_, hcreate⟩⟩
      · exact (List.mem_append.mp hj).elim (List.mem_append_left _) fun hj => by simp [hj]
      · have hne : j ≠ job := by
          rintro rfl
          exact FlushPhase.noConfusion (hphase.symm.trans hcreate.1)
        simpa [hne] using hj
    simp only [FlushJob.step, hphase]
    refine ⟨rfl, rfl, h.truth, h.marker, h.minValid, h.wals.erase (hremove hphase), ?_⟩
    exact h.ssts.imp (fun hl => ⟨hsame.mpr hl.1, hl.2⟩) fun hr =>
      ⟨fun hu => hr.1 (hsame.mp hu), hr.2⟩
  have hbusy : job.busy := by simpa [FlushJob.busy] using hphase
  obtain ⟨hjs, hjs'⟩ := htracks.others_done hbusy
  have hlt := (htracks.next job (by simp) hbusy).1
  have hssts := h.ssts
  rw [unflushed_of_done hup hjobs hjs hjs'] at hssts
  cases hp : job.phase with
  | create =>
    simp only [hp, true_and] at hssts
    simp only [FlushJob.step, hp]
    refine ⟨rfl, rfl, h.truth, h.marker, h.minValid, h.wals, ?_⟩
    rw [unflushed_of_done (e := e) rfl rfl hjs hjs']
    simp only [reduceCtorEq, false_and, or_false]
    by_cases hn : job.flushSeq = n
    · -- the flush makes its file where the table of the restore is
      refine Or.inr ⟨by omega, ?_⟩
      rcases hssts with ⟨-, heq⟩ | ⟨hnot, -⟩
      · show σ'.disk.ssts.insert job.flushSeq none = σ.disk.ssts.insert job.flushSeq none
        rw [heq, hn, SortedMap.insert_insert]
      · exact absurd (Or.inr hn) hnot
    · rcases hssts with ⟨hle | heq, heq'⟩ | ⟨hnot, heq'⟩
      · refine Or.inl ⟨hle, ?_⟩
        show σ'.disk.ssts.insert job.flushSeq none =
          (σ.disk.ssts.insert job.flushSeq none).insert n o
        rw [heq', SortedMap.insert_comm _ (Ne.symm hn)]
      · exact absurd heq hn
      · exact Or.inr ⟨fun hle => hnot (Or.inl hle), congrArg (SortedMap.insert · _ _) heq'⟩
  | finish =>
    simp only [hp, reduceCtorEq, false_and, or_false] at hssts
    have hwrite : Table.write job.frozen.entries = some job.frozen := SortedMap.ofList_entries _
    simp only [FlushJob.step, hp, hwrite]
    refine ⟨rfl, rfl, h.truth, h.marker, h.minValid, h.wals, ?_⟩
    rw [unflushed_of_done (e := e) rfl rfl hjs hjs']
    simp only [reduceCtorEq, false_and, or_false]
    rcases hssts with ⟨hle, heq⟩ | ⟨hnot, heq⟩
    · refine Or.inl ⟨hle, ?_⟩
      show σ'.disk.ssts.modify job.flushSeq _ = (σ.disk.ssts.modify job.flushSeq _).insert n o
      rw [heq, SortedMap.insert_modify_comm _ (by omega)]
    · refine Or.inr ⟨hnot, ?_⟩
      show σ'.disk.ssts.modify job.flushSeq _ = σ.disk.ssts.modify job.flushSeq _
      rw [heq]
  | install =>
    simp only [hp, reduceCtorEq, false_and, or_false] at hssts
    simp only [FlushJob.step, hp]
    refine ⟨rfl, rfl, h.truth, h.marker, h.minValid, h.wals, ?_⟩
    rw [unflushed_of_done rfl rfl hjs hjs']
    simp only [reduceCtorEq, false_and, or_false]
    exact hssts
  | remove => exact absurd hp hphase

/-- **The same step on both stores.** -/
theorem step (h : Twin n o σ σ') (hcur : σ.Current) (hc : σ.Consistent) (ha : a.Writes)
    (hstep : Store.Stepped threshold σ' a τ') : ∃ τ, Store.Stepped threshold σ a τ ∧
      Twin n o τ τ' := by
  cases hstep with
  | opened | openCut | restored | refused | crashed | crashedIn | restoreCut => cases ha
  | @batched e e' ops jobs fs up idle run =>
    have hup : σ.eng = some e := h.eng ▸ up
    refine ⟨_, .batched hup idle run, ?_⟩
    cases hc with
    | down down => cases down.symm.trans hup
    | @up e₀ old pend act up₀ running =>
      cases up₀.symm.trans hup
      obtain ⟨rs, hlaid, -⟩ := running.laid
      have hw : σ.disk.wals.get e.w ≠ none := by
        obtain ⟨files, hvalid, -⟩ := hlaid.wals
        have hmem : (e.w, Wal.encode rs) ∈ σ.disk.validWals := by rw [hvalid]; simp
        rw [SortedMap.mem_entries.mp (SortedMap.mem_within.mp hmem).1]
        exact Option.some_ne_none _
      have htruth := congrArg (applyOps · ops) h.truth
      obtain ⟨-, ⟨rfl, rfl, rfl, rfl⟩ | ⟨-, rfl, rfl, rfl⟩ | ⟨-, rfl, rfl, rfl⟩⟩ :=
        Engine.applyBatch_cases run
      · exact h.returned htruth (by simp) h.wals (unflushed_congr hup rfl rfl (List.append_nil _))
      · exact h.returned htruth (by simp [FsOp.OnWal]) (h.wals.modify hw _)
          (unflushed_congr hup rfl rfl (List.append_nil _))
      · exact h.returned htruth (by simp [FsOp.OnWal, Engine.startFlushLocked])
          ((h.wals.modify hw _).openWal e.nextWALSeq) (unflushed_startFlush hup rfl rfl rfl)
  | @flushed e e' jobs fs up idle run =>
    have hup : σ.eng = some e := h.eng ▸ up
    refine ⟨_, .flushed hup idle run, ?_⟩
    show Twin n o { σ.returned e' jobs fs with truth := σ.truth }
      { σ'.returned e' jobs fs with truth := σ'.truth }
    obtain ⟨-, ⟨rfl, rfl, rfl⟩ | hstart⟩ := Engine.flush_cases run
    · exact h.returned h.truth (by simp) h.wals (unflushed_congr hup rfl rfl (List.append_nil _))
    · cases hstart
      exact h.returned h.truth (by simp [FsOp.OnWal]) (h.wals.openWal e.nextWALSeq)
        (unflushed_startFlush hup rfl rfl rfl)
  | @worked e job js js' i up split pos =>
    have hup : σ.eng = some e := h.eng ▸ up
    have hjobs : σ.jobs = js ++ job :: js' := h.jobs ▸ split
    refine ⟨_, .worked hup hjobs pos, h.worked hup (hjobs ▸ (hcur e hup).1) hjobs fun hphase
      hnone => ?_⟩
    cases hc with
    | down down => cases down.symm.trans hup
    | @up e₀ old pend act up₀ running jobs₀ =>
      exact running.frozenWAL_ne (by rw [← jobs₀, hjobs]; simp) hphase h.minValid hnone

/-- So do whole runs. -/
theorem exec {as : List StoreAction} (h : Twin n o σ σ') (hcur : σ.Current) (hc : σ.Consistent)
    (hg : Along (Store.step threshold) (fun σ a => a.Writes ∧ σ.Guarded a) σ' as)
    (hrun : Machine.exec (Store.step threshold) σ' as = some τ') :
    ∃ τ, Twin n o τ τ' ∧ τ.Current ∧ τ.Consistent := by
  refine exec_induct (I := fun τ' => ∃ τ, Twin n o τ τ' ∧ τ.Current ∧ τ.Consistent)
    (fun σ' a τ' => ?_) ⟨σ, h, hcur, hc⟩ hg hrun
  rintro ⟨σ, h, hcur, hc⟩ ⟨ha, hg⟩ hstep
  obtain ⟨τ, hstepped, htwin⟩ := h.step hcur hc ha (step_cases hstep)
  exact ⟨τ, htwin, hstepped.current hcur, hstepped.consistent (h.guarded ha hg) hcur hc⟩

/-! ## What `Open` shows -/

theorem minValidSeq_eq (h : Twin n o σ σ') : σ'.disk.minValidSeq = σ.disk.minValidSeq :=
  congrArg (Option.getD · 0) h.marker

theorem valid_eq (h : Twin n o σ σ') : σ'.disk.Valid = σ.disk.Valid := by
  funext i
  rw [Dir.Valid, h.minValidSeq_eq, Dir.Valid]

theorem within_eq (h : Twin n o σ σ') {α : Type} (m : SortedMap ℕ α) :
    m.within σ'.disk.Valid = m.within σ.disk.Valid := by
  unfold SortedMap.within
  simp only [h.valid_eq]

/-- The log of a restore is empty. -/
theorem logRecords_eq (h : Twin n o σ σ') : σ'.disk.logRecords = σ.disk.logRecords := by
  unfold Dir.logRecords Dir.validWals
  rw [h.within_eq]
  rcases h.wals with ⟨hnone, heq⟩ | heq
  · rw [heq]
    obtain ⟨l, l', hl, hins | hins⟩ :=
      SortedMap.within_insert_of_none (p := σ.disk.Valid) hnone ([] : Bytes)
    · rw [hins, hl]
    · rw [hins, hl, List.flatMap_append, List.flatMap_append, List.flatMap_cons,
        Wal.holds_nil.replay_eq]
      rfl
  · rw [heq]

theorem validSsts_eq (h : Twin n o σ σ') {old pend act : List FlushJob}
    (hr : Running σ.disk e old pend act) (hup : σ.eng = some e)
    (hjobs : σ.jobs = old ++ (pend ++ act)) (hn : n < Dir.fileLimit) :
    (σ.Unflushed n ∧ σ'.disk.validSsts = σ.disk.validSsts ++ [(n, o)]) ∨
      (¬σ.Unflushed n ∧ σ'.disk.validSsts = σ.disk.validSsts) := by
  unfold Dir.validSsts
  rw [h.within_eq]
  refine h.ssts.imp (fun ⟨hu, heq⟩ => ⟨hu, ?_⟩) fun ⟨hnot, heq⟩ => ⟨hnot, by rw [heq]⟩
  rw [heq]
  exact SortedMap.within_insert_of_lt (hr.lt_of_unflushed hup hjobs hu) ⟨h.minValid, hn⟩ o

/-- **What is left of the restore shows, unless the logs cover it or it agrees.** -/
theorem shows_iff (h : Twin n o σ σ') (hcur : σ.Current) (hc : σ.Consistent) (hup : σ.eng = some e)
    (hn : n < Dir.fileLimit) (hfin : σ'.disk.Finished) : σ'.disk.Shows σ'.truth ↔
      (σ'.Unflushed n → ∃ t, o = some t ∧ ∀ k v, t.layer k = some v →
        (∃ r ∈ σ'.disk.logRecords, r.key = k) ∨ σ'.truth k = v) := by
  cases hc with
  | down down => cases down.symm.trans hup
  | @up e₀ old pend act up₀ running jobs₀ =>
    cases up₀.symm.trans hup
    have htruth : σ.disk.content = σ.truth := by
      rw [running.recoverable.content, (hcur e hup).2]
    have hu : σ'.Unflushed n ↔ σ.Unflushed n := by
      unfold Unflushed
      rw [h.eng, h.jobs]
    have hlog : ∀ k, (∃ r ∈ σ'.disk.logRecords, r.key = k) ↔ σ.disk.logLayer k ≠ none := by
      intro k
      rw [h.logRecords_eq]
      constructor
      · rintro ⟨r, hr, rfl⟩
        exact recordsLayer_ne_none hr
      · intro hne
        obtain ⟨x, hx⟩ := Option.ne_none_iff_exists'.mp hne
        obtain ⟨r, hr, hk, -⟩ := exists_of_recordsLayer hx
        exact ⟨r, hr, hk⟩
    have hlayer : σ'.disk.logLayer = σ.disk.logLayer := congrArg recordsLayer h.logRecords_eq
    rw [Dir.shows_iff, and_iff_right hfin, h.truth, hu]
    rcases h.validSsts_eq running hup jobs₀ hn with ⟨hyes, hssts⟩ | ⟨hnot, hssts⟩
    · cases o with
      | none =>
        exact absurd rfl (hfin (n, none) (hssts ▸ List.mem_append_right _ List.mem_cons_self))
      | some t =>
        have hcontent : σ'.disk.content =
            resolve (atop σ.disk.logLayer (atop t.layer σ.disk.tablesLayer)) := by
          unfold Dir.content Dir.tablesLayer
          rw [hlayer, hssts, List.reverse_append]
          rfl
        rw [hcontent, ← htruth, Dir.content, resolve_between]
        simp [hyes, hlog]
    · have hcontent : σ'.disk.content = σ.disk.content := by
        unfold Dir.content Dir.tablesLayer
        rw [hlayer, hssts]
      simp [hcontent, hnot, htruth]

/-- Where a restore has left its table, and perhaps its log. -/
theorem stopped {old pend act : List FlushJob} (hr : Running σ.disk e old pend act)
    (hup : σ.eng = some e) {fs : List FsOp} (hmarker : (σ.disk.run fs).marker = σ.disk.marker)
    (hssts : (σ.disk.run fs).ssts = σ.disk.ssts.insert e.newSeq o)
    (hwals : WalsBeside e.newSeq σ.disk.wals (σ.disk.run fs).wals) :
    Twin e.newSeq o σ (σ.returned e [] fs) := by
  obtain ⟨rs, hlaid, -⟩ := hr.laid
  refine ⟨hup.symm, List.append_nil _, rfl, hmarker, ?_, hwals, Or.inl ⟨?_, hssts⟩⟩
  · exact hlaid.valid_w.1.trans (hr.next_wal.le.trans (le_max_right _ _))
  · exact (unflushed_iff hup).mpr (Or.inl (le_max_left _ _))

end Twin

/-- A restore that has created its table, and not renamed the marker. -/
theorem Running.restoring {σ : Store} {e : Engine} {old pend act : List FlushJob}
    {data : Bytes} {k : ℕ} (hr : Running σ.disk e old pend act) (hup : σ.eng = some e)
    (hk : k ≤ ((e.restoreSnapshot data).1.take 3).length) (hpos : k ≠ 0) :
    ∃ kvs o, decodeSnapshotEntries data = some kvs ∧
      Twin e.newSeq o σ (σ.returned e [] ((e.restoreSnapshot data).1.take k)) ∧
      (2 ≤ k ↔ o ≠ none) ∧ ∀ t, o = some t → Table.write (Engine.snapshotEntries kvs) = some t := by
  have hget : σ.disk.wals.get e.newSeq = none :=
    SortedMap.get_eq_none.mpr fun a ha => (hr.lt_newSeq.1 a ha).ne
  have hcreate : Twin e.newSeq none σ (σ.returned e [] [.createSst e.newSeq]) :=
    .stopped hr hup rfl rfl (Or.inr rfl)
  unfold Engine.restoreSnapshot at hk ⊢
  split_ifs at hk ⊢ with himm
  · simp at hk
    exact absurd hk hpos
  cases hkvs : decodeSnapshotEntries data with
  | none =>
    simp [hkvs] at hk
    exact absurd hk hpos
  | some kvs =>
    refine ⟨kvs, ?_⟩
    cases ht : Table.write (Engine.snapshotEntries kvs) with
    | none =>
      simp only [hkvs, ht] at hk ⊢
      obtain rfl : k = 1 := by
        simp at hk
        omega
      exact ⟨none, trivial, hcreate, by simp, by simp⟩
    | some t =>
      simp only [hkvs, ht] at hk ⊢
      have hinsert : (σ.disk.ssts.insert e.newSeq none).modify e.newSeq (fun _ => some t) =
          σ.disk.ssts.insert e.newSeq (some t) := SortedMap.insert_modify _ _ _ _
      simp [Engine.restoreBefore] at hk
      match k, hpos, hk with
      | 1, _, _ => exact ⟨none, trivial, hcreate, by simp, by simp⟩
      | 2, _, _ =>
        refine ⟨some t, trivial, .stopped hr hup rfl hinsert (Or.inr rfl), by simp, ?_⟩
        rintro _ ⟨⟩
        rfl
      | 3, _, _ =>
        refine ⟨some t, trivial, .stopped hr hup rfl hinsert (Or.inl ⟨hget, ?_⟩), by simp, ?_⟩
        · show σ.disk.wals.insert e.newSeq ((σ.disk.wals.get e.newSeq).getD []) = _
          rw [hget]
          rfl
        · rintro _ ⟨⟩
          rfl

theorem Store.Consistent.shows {σ : Store} {e : Engine} (hc : σ.Consistent) (hcur : σ.Current)
    (hup : σ.eng = some e) (hfin : σ.disk.Finished) : σ.disk.Shows σ.truth := by
  cases hc with
  | down down => cases down.symm.trans hup
  | @up e₀ old pend act up₀ running jobs₀ =>
    cases up₀.symm.trans hup
    exact Dir.shows_iff.mpr ⟨hfin, running.recoverable.content.trans (hcur e hup).2⟩

theorem Store.exec_up {threshold : ℕ} {as : List StoreAction} {σ σ' : Store}
    (hg : Along (step threshold) (fun σ a => a.Writes ∧ σ.Guarded a) σ as)
    (hup : ∃ e, σ.eng = some e) (hrun : exec (step threshold) σ as = some σ') :
    ∃ e, σ'.eng = some e := by
  refine exec_induct (I := fun σ => ∃ e, σ.eng = some e) (fun σ a σ' _ ha hstep => ?_) hup hg hrun
  cases step_cases hstep with
  | opened | openCut | restored | refused | crashed | crashedIn | restoreCut => cases ha.1
  | batched | flushed | worked => exact ⟨_, rfl⟩

theorem Store.returned_nil {σ : Store} {e : Engine} (hup : σ.eng = some e) :
    σ = σ.returned e [] [] := by
  unfold returned
  rw [List.append_nil, ← hup]
  rfl

/-! ## All or nothing -/

/-- **A restore shows its snapshot after the rename, and before it only by accident.** Let
`RestoreSnapshot` stop after its first `k` file operations, before the rename, in a state that a run
of guarded steps has reached, and let writes and flushes follow. If every table that `Open` then
finds is finished, it shows the old content with these writes exactly if

* the call has not created its table yet, or
* a flush has come to its number, or
* its table is complete, and each of its pairs was there before or is hidden by a log.

From the rename on, `Open` shows the snapshot, wherever the call stops. -/
theorem restore_all_or_nothing {threshold : ℕ} {as : List StoreAction} {σ₁ : Store} {e : Engine}
    (hrun : Store.Runs threshold as σ₁) (hg : Along (Store.step threshold) Store.Guarded {} as)
    (hup : σ₁.eng = some e) (hlim : e.Within) (data : Bytes) :
    (∀ k post σ, exec (Store.step threshold) σ₁ (.restoreErr data k :: post) = some σ →
      Along (Store.step threshold) (fun σ a => a.Writes ∧ σ.Guarded a)
        (σ₁.returned e [] ((e.restoreSnapshot data).1.take k)) post →
      σ.disk.Finished →
      (σ.disk.Shows σ.truth ↔ k = 0 ∨ ¬σ.Unflushed e.newSeq ∨
        2 ≤ k ∧ ∀ kvs ∈ decodeSnapshotEntries data, ∀ kv ∈ kvs,
          (∃ r ∈ σ.disk.logRecords, r.key = kv.1) ∨ σ.truth kv.1 = some kv.2)) ∧
    ∀ k kvs fs e', decodeSnapshotEntries data = some kvs →
      e.restoreSnapshot data = (fs, .ok e') → 4 ≤ k →
    (σ₁.disk.run (fs.take k)).Shows (contentOf kvs) := by
  obtain ⟨hcur, hc⟩ := Store.consistent hrun hg
  have hc' := hc
  cases hc' with
  | down down => cases down.symm.trans hup
  | @up e₀ old pend act up₀ running jobs₀ =>
    cases up₀.symm.trans hup
    refine ⟨fun k post σ hpost hgpost hfin => ?_, fun k kvs fs e' hkvs hok hk => ?_⟩
    · obtain ⟨σ₂, hstep, hrest⟩ := exec_cons.mp hpost
      cases Store.step_cases hstep with
      | @refused _ _ _ up early =>
        cases hup.symm.trans up
        obtain ⟨eσ, hupσ⟩ := Store.exec_up hgpost ⟨e, rfl⟩ hrest
        by_cases hk : k = 0
        · obtain ⟨hcur', hcons'⟩ := Store.exec_consistent (Store.returned_nil hup ▸ hcur)
            (Store.returned_nil hup ▸ hc) (hk ▸ hrest)
              (along_of_imp (fun _ _ h => h.2) (hk ▸ hgpost))
          exact iff_of_true (hcons'.shows hcur' hupσ hfin) (Or.inl hk)
        · obtain ⟨kvs, o, hkvs, htwin, ho, ht⟩ := running.restoring hup early hk
          obtain ⟨τ, htwin', hcur', hcons'⟩ := htwin.exec hcur hc hgpost hrest
          rw [htwin'.shows_iff hcur' hcons' (htwin'.eng ▸ hupσ) (max_lt hlim.2 hlim.1) hfin,
            or_iff_right hk, ← imp_iff_not_or, ho]
          refine imp_congr Iff.rfl ?_
          cases o with
          | none => simp
          | some t =>
            simp only [hkvs, Option.some.injEq, exists_eq_left', ne_eq, reduceCtorEq,
              not_false_eq_true, true_and, Option.mem_def, forall_eq']
            exact Engine.forall_layer_snapshot (ht t rfl) _
    · obtain ⟨-, kvs', t, hkvs', ht, rfl, -⟩ := Engine.restoreSnapshot_ok hok
      cases hkvs.symm.trans hkvs'
      obtain ⟨m, rfl⟩ := Nat.exists_eq_add_of_le hk
      have hrestored := running.renamed hlim t m
      have htake : (e.restoreBefore t ++ FsOp.renameMarker e.newSeq :: e.restoreAfter).take
          (4 + m) = e.restoreBefore t ++ FsOp.renameMarker e.newSeq :: e.restoreAfter.take m := by
        rw [Nat.add_comm]
        rfl
      rw [htake, Dir.shows_iff, Dir.Finished, hrestored.recoverable.content, hrestored.ssts]
      exact ⟨by simp, Engine.resolve_snapshot ht⟩

/-- A snapshot of one pair. -/
def onePair (k v : UInt8) : Bytes := encodeSnapshotEntries [([k], [v])]

/-- The snapshot's only key has a record in the log, and so the table that is left does not show. -/
theorem restore_all_or_nothing_hidden : ∃ σ₁ σ, Store.Runs 4194304 [.openOk, .batch [putK 1]] σ₁ ∧
    exec (Store.step 4194304) σ₁ [.restoreErr (onePair 107 9) 3] = some σ ∧
      σ.disk.Shows σ.truth := by
  have hrun : ((exec (Store.step 4194304) {} [.openOk, .batch [putK 1]]).bind fun σ₁ =>
      σ₁.eng.bind fun e => (exec (Store.step 4194304) σ₁ [.restoreErr (onePair 107 9) 3]).map
        fun σ =>
        decide (e.Within ∧ σ.disk.Finished ∧
          decodeSnapshotEntries (onePair 107 9) = some [([107], [9])] ∧
            ∃ r ∈ σ.disk.logRecords, r.key = [107])) = some true := by decide +kernel
  have hg : Along (Store.step 4194304) Store.Guarded {} [.openOk, .batch [putK 1]] := by
    decide +kernel
  obtain ⟨σ₁, hσ₁, hrun⟩ := Option.bind_eq_some_iff.mp hrun
  obtain ⟨e, hup, hrun⟩ := Option.bind_eq_some_iff.mp hrun
  obtain ⟨σ, hσ, hall⟩ := Option.map_eq_some_iff.mp hrun
  obtain ⟨hlim, hfin, hkvs, hlog⟩ := of_decide_eq_true hall
  refine ⟨σ₁, σ, hσ₁, hσ, ((restore_all_or_nothing hσ₁ hg hup hlim _).1 3 [] σ hσ trivial hfin).mpr
    ?_⟩
  refine Or.inr (Or.inr ⟨by decide, ?_⟩)
  rintro kvs hmem kv hkv
  cases hkvs.symm.trans hmem
  rw [List.mem_singleton.mp hkv]
  exact Or.inl hlog

/-- The rename fails, `RestoreSnapshot` returns its error, and the process stops. `Open` then shows
a key that only the snapshot had. -/
theorem rejected_snapshot_shows : ∃ σ e fs, Store.Runs 4194304
      [.openOk, .batch [putK 1], .restoreErr (onePair 98 9) 3, .crash] σ ∧
    σ.truth [98] = none ∧ openEngine σ.disk = some (e, fs) ∧ e.get [98] = some [9] := by
  have hrun : ((exec (Store.step 4194304) {}
      [.openOk, .batch [putK 1], .restoreErr (onePair 98 9) 3, .crash]).bind fun σ =>
        (openEngine σ.disk).map fun p => decide (σ.truth [98] = none ∧ p.1.get [98] = some [9])) =
      some true := by decide +kernel
  obtain ⟨σ, hσ, hopen⟩ := Option.bind_eq_some_iff.mp hrun
  obtain ⟨⟨e, fs⟩, hopen, hall⟩ := Option.map_eq_some_iff.mp hopen
  obtain ⟨htruth, hget⟩ := of_decide_eq_true hall
  exact ⟨σ, e, fs, hσ, htruth, hopen, hget⟩

end KvStore
