import KvStore.Engine.MapRefinement

/-!
# When a store opens

`Open` opens every valid table and returns the first error. A table file gets its final name when it
is created and its footer when it is finished, so that a crash between the two leaves a store that
does not open.

* `Dir.CutShort`: a table file without a footer.
* `Store.Careful`: no crash comes while a table is being written, and no restore fails there.
* `Store.Owned`: a table that is cut short belongs to a goroutine that is writing it.
* `always_opens`: after a run of such steps `Open` returns an engine, wherever logs were cut.
* `crash_in_flush_unopenable`: a crash during a flush.
-/

namespace KvStore

open Layered Machine

namespace Dir

variable {d : Dir} {n m : ℕ}

/-- The table file has no footer. -/
def CutShort (d : Dir) (n : ℕ) : Prop := d.ssts.get n = some none

theorem cutShort_createSst (h : (d.apply (.createSst m)).CutShort n) : n = m ∨ d.CutShort n := by
  unfold CutShort apply at h
  rw [SortedMap.get_insert] at h
  split_ifs at h with hn
  · exact Or.inl hn
  · exact Or.inr h

theorem cutShort_finishSst {t : Table} (h : (d.apply (.finishSst m t)).CutShort n) :
    n ≠ m ∧ d.CutShort n := by
  unfold CutShort apply at h
  rw [SortedMap.get_modify] at h
  split_ifs at h with hn
  · obtain ⟨x, -, hx⟩ := Option.map_eq_some_iff.mp h
    cases hx
  · exact ⟨hn, h⟩

/-- The other operations complete or remove tables, or are not on tables. -/
theorem cutShort_run {ops : List FsOp} (hops : ∀ op ∈ ops, ∀ i, op ≠ .createSst i)
    (h : (d.run ops).CutShort n) : d.CutShort n := by
  induction ops generalizing d with
  | nil => exact h
  | cons op ops ih =>
    obtain ⟨hop, hrest⟩ := List.forall_mem_cons.mp hops
    have h' := ih hrest (by rwa [run_cons] at h)
    cases op with
    | createSst i => exact absurd rfl (hop i)
    | finishSst i t => exact (cutShort_finishSst h').2
    | removeSst i =>
      unfold CutShort apply at h'
      rw [SortedMap.get_erase] at h'
      split_ifs at h'
      exact h'
    | openWal | appendWal | truncateWal | removeWal | renameMarker => exact h'

theorem cutShort_cut {ops : List FsOp} (hops : ∀ op ∈ ops, ∀ i, op ≠ .createSst i) {k j : ℕ}
    (h : (d.cut ops k j).CutShort n) : d.CutShort n := by
  unfold cut at h
  cases hk : ops[k]? with
  | none =>
    rw [hk] at h
    exact cutShort_run hops h
  | some op =>
    rw [hk] at h
    have htaken : ∀ op ∈ ops.take k, ∀ i, op ≠ .createSst i :=
      fun op hop => hops op (List.mem_of_mem_take hop)
    refine cutShort_run htaken ?_
    cases op <;> exact h

end Dir

namespace Engine

variable {threshold : ℕ} {e e' : Engine} {ops : List BatchOp} {jobs : List FlushJob}
    {fs : List FsOp}

theorem applyBatch_onWal (h : e.applyBatch threshold ops = .ok (e', jobs, fs)) :
    ∀ op ∈ fs, ∀ i, op ≠ .createSst i := by
  obtain ⟨-, ⟨-, -, -, rfl⟩ | ⟨-, -, -, rfl⟩ | ⟨-, -, -, rfl⟩⟩ := applyBatch_cases h <;>
    simp [startFlushLocked]

theorem flush_onWal (h : e.flush = .ok (e', jobs, fs)) : ∀ op ∈ fs, ∀ i, op ≠ .createSst i := by
  obtain ⟨-, ⟨-, -, rfl⟩ | hstart⟩ := flush_cases h
  · simp
  · cases hstart
    simp

end Engine

theorem Opened.onWal {d : Dir} {e : Engine} {fs : List FsOp} (h : Opened d e fs) :
    ∀ op ∈ fs, ∀ i, op ≠ .createSst i := by
  rw [h.ops_eq]
  intro op hop i
  simp only [List.mem_append, List.mem_cons, List.mem_map] at hop
  rcases hop with ⟨a, -, rfl⟩ | rfl | hop | ⟨a, -, rfl⟩
  · exact FsOp.noConfusion
  · exact FsOp.noConfusion
  · split_ifs at hop
    · cases hop
    · rw [List.mem_singleton.mp hop]
      exact FsOp.noConfusion
  · exact FsOp.noConfusion

/-- A restore that does not stop between creating its table and finishing it leaves none cut
short. -/
theorem Engine.cutShort_restore {d : Dir} {e : Engine} {data : Bytes} {k n : ℕ}
    (hk : ((e.restoreSnapshot data).1.take k).length ≠ 1)
    (h : (d.run ((e.restoreSnapshot data).1.take k)).CutShort n) : d.CutShort n := by
  have hrefused : ∀ i, ([FsOp.createSst i].take k).length ≠ 1 → [FsOp.createSst i].take k = [] := by
    intro i hlen
    cases k with
    | zero => rfl
    | succ k => exact absurd (by simp) hlen
  unfold Engine.restoreSnapshot at h hk
  split_ifs at h hk
  · exact Dir.cutShort_run (by simp) h
  cases hkvs : decodeSnapshotEntries data with
  | none =>
    simp only [hkvs] at h
    exact Dir.cutShort_run (by simp) h
  | some kvs =>
    cases ht : Table.write (Engine.snapshotEntries kvs) with
    | none =>
      simp only [hkvs, ht] at h hk
      rw [hrefused _ hk] at h
      exact h
    | some t =>
      simp only [hkvs, ht] at h hk
      match k with
      | 0 => exact h
      | 1 => exact absurd rfl hk
      | k + 2 =>
        -- the table is finished, and what follows creates none
        have hrest :
            ∀ op ∈ ([FsOp.openWal e.newSeq] ++ .renameMarker e.newSeq :: e.restoreAfter).take k,
              ∀ i, op ≠ .createSst i := by
          intro op hop i
          have hmem := List.mem_of_mem_take hop
          simp only [Engine.restoreAfter, List.singleton_append, List.mem_cons, List.mem_append,
            List.mem_map, List.not_mem_nil, or_false] at hmem
          rcases hmem with rfl | rfl | ⟨a, -, rfl⟩ | rfl <;> exact FsOp.noConfusion
        have hfinish := Dir.cutShort_finishSst (Dir.cutShort_run hrest h)
        exact (Dir.cutShort_createSst hfinish.2).resolve_left hfinish.1

/-! ## The condition and the invariant -/

namespace Store

/-- No crash comes while a table is being written, by a flush or by a restore, and no restore
returns an error there. -/
def Careful (σ : Store) : StoreAction → Prop
  | .crash | .crashIn _ _ _ => ∀ j ∈ σ.jobs, j.phase ≠ .finish
  | .restoreErr data k => ∀ e ∈ σ.eng, ((e.restoreSnapshot data).1.take k).length ≠ 1
  | .restoreCut data k =>
    (∀ j ∈ σ.jobs, j.phase ≠ .finish) ∧ ∀ e ∈ σ.eng, ((e.restoreSnapshot data).1.take k).length ≠ 1
  | _ => True

instance (σ : Store) : DecidablePred σ.Careful
  | .crash | .crashIn _ _ _ => inferInstanceAs (Decidable (∀ j ∈ σ.jobs, j.phase ≠ .finish))
  | .restoreErr _ _ => inferInstanceAs (Decidable (∀ e ∈ σ.eng, _ ≠ _))
  | .restoreCut _ _ =>
    inferInstanceAs (Decidable ((∀ j ∈ σ.jobs, j.phase ≠ .finish) ∧ ∀ e ∈ σ.eng, _ ≠ _))
  | .openOk | .openCut _ _ | .batch _ | .flush | .job _ | .restore _ => isTrue trivial

/-- A table that is cut short is being written. -/
structure Owned (σ : Store) : Prop where
  down : σ.eng = none → σ.jobs = []
  writer : ∀ n, σ.disk.CutShort n → ∃ j ∈ σ.jobs, j.phase = .finish ∧ j.flushSeq = n

variable {threshold : ℕ} {σ σ' : Store} {a : StoreAction}

theorem owned_init : Owned {} := ⟨fun _ => rfl, by rintro n ⟨⟩⟩

theorem Owned.complete (h : σ.Owned) (hjobs : ∀ j ∈ σ.jobs, j.phase ≠ .finish) (n : ℕ) :
    ¬σ.disk.CutShort n := by
  intro hcut
  obtain ⟨j, hj, hphase, -⟩ := h.writer n hcut
  exact hjobs j hj hphase

/-- The process dies when no table is being written. -/
theorem Owned.died (h : σ.Owned) (hjobs : ∀ j ∈ σ.jobs, j.phase ≠ .finish) {d : Dir}
    {ops : List BatchOp} (hd : ∀ n, d.CutShort n → σ.disk.CutShort n) : (σ.died d ops).Owned :=
  ⟨fun _ => rfl, fun n hcut => absurd (hd n hcut) (h.complete hjobs n)⟩

theorem Owned.returned (h : σ.Owned) {e : Engine} {jobs : List FlushJob} {fs : List FsOp}
    {c : Content} (hd : ∀ n, (σ.disk.run fs).CutShort n → σ.disk.CutShort n) :
    ({ σ.returned e jobs fs with truth := c } : Store).Owned := by
  refine ⟨nofun, fun n hcut => ?_⟩
  obtain ⟨j, hj, hrest⟩ := h.writer n (hd n hcut)
  exact ⟨j, List.mem_append_left _ hj, hrest⟩

theorem Owned.worked (h : σ.Owned) {e : Engine} {job : FlushJob} {js js' : List FlushJob}
    (hjobs : σ.jobs = js ++ job :: js') :
    ({ σ with
      disk := σ.disk.run (job.step e).2.2
      eng := some (job.step e).1
      jobs := js ++ ((job.step e).2.1 ++ js') } : Store).Owned := by
  refine ⟨nofun, fun n hcut => ?_⟩
  -- a goroutine that is writing another table is still there
  have hother : σ.disk.CutShort n → (job.phase = .finish → job.flushSeq ≠ n) →
      ∃ j ∈ js ++ ((job.step e).2.1 ++ js'), j.phase = .finish ∧ j.flushSeq = n := by
    intro hn hne
    obtain ⟨j, hj, hphase, hseq⟩ := h.writer n hn
    refine ⟨j, ?_, hphase, hseq⟩
    rw [hjobs] at hj
    rcases List.mem_append.mp hj with hj | hj
    · exact List.mem_append_left _ hj
    · rcases List.mem_cons.mp hj with rfl | hj
      · exact absurd hseq (hne hphase)
      · exact List.mem_append_right _ (List.mem_append_right _ hj)
  cases hphase : job.phase with
  | create =>
    have hstep : job.step e = (e, [{ job with phase := .finish }], [.createSst job.flushSeq]) := by
      simp only [FlushJob.step, hphase]
    rw [hstep] at hcut hother ⊢
    rcases Dir.cutShort_createSst hcut with rfl | hn
    · exact ⟨{ job with phase := .finish }, by simp, rfl, rfl⟩
    · exact hother hn fun hfinish => FlushPhase.noConfusion (hphase.symm.trans hfinish)
  | finish =>
    have hwrite : Table.write job.frozen.entries = some job.frozen := SortedMap.ofList_entries _
    have hstep : job.step e =
        (e, [{ job with phase := .install }], [.finishSst job.flushSeq job.frozen]) := by
      simp only [FlushJob.step, hphase, hwrite]
    rw [hstep] at hcut hother ⊢
    obtain ⟨hne, hn⟩ := Dir.cutShort_finishSst hcut
    exact hother hn fun _ => hne.symm
  | install | remove =>
    refine hother ?_ fun hfinish => FlushPhase.noConfusion (hphase.symm.trans hfinish)
    simp only [FlushJob.step, hphase] at hcut
    exact hcut

/-- **One step leaves no table cut short without a goroutine that is writing it.** -/
theorem Stepped.owned (h : Stepped threshold σ a σ') (hcareful : σ.Careful a) (ho : σ.Owned) :
    σ'.Owned := by
  cases h with
  | @opened e fs down run =>
    have hjobs := ho.down down
    refine ⟨nofun, fun n hcut => ?_⟩
    have hn := Dir.cutShort_run (KvStore.opened run).onWal hcut
    exact absurd hn (ho.complete (by rw [hjobs]; simp) n)
  | @openCut e fs k j down run =>
    exact ho.died (by rw [ho.down down]; simp) fun n => Dir.cutShort_cut (KvStore.opened run).onWal
  | batched up idle run => exact ho.returned fun n => Dir.cutShort_run (Engine.applyBatch_onWal run)
  | flushed up idle run =>
    exact ho.returned (c := σ.truth) fun n => Dir.cutShort_run (Engine.flush_onWal run)
  | worked up split => exact ho.worked split
  | @restored e e' data kvs fs up decoded run =>
    refine ho.returned fun n hcut => ?_
    obtain ⟨-, kvs', t, -, -, hfs, -⟩ := Engine.restoreSnapshot_ok run
    have hlen : ((e.restoreSnapshot data).1.take fs.length).length ≠ 1 := by
      rw [run, List.take_length, hfs]
      simp [Engine.restoreBefore]
    refine Engine.cutShort_restore hlen ?_
    rwa [run, List.take_length]
  | refused up => exact ho.returned (c := σ.truth) fun n => Engine.cutShort_restore (hcareful _ up)
  | crashed => exact ho.died hcareful fun n => id
  | crashedIn up idle run =>
    exact ho.died hcareful fun n => Dir.cutShort_cut (Engine.applyBatch_onWal run)
  | restoreCut up => exact ho.died hcareful.1 fun n => Engine.cutShort_restore (hcareful.2 _ up)

end Store

/-! ## Opening -/

/-- **A store opens after every crash, except one that comes while a table is being written.** -/
theorem always_opens {threshold : ℕ} {as : List StoreAction} {σ : Store}
    (hrun : Store.Runs threshold as σ) (hcareful : Along (Store.step threshold) Store.Careful {} as)
    (hdown : σ.eng = none) : ∃ e fs, openEngine σ.disk = some (e, fs) := by
  have howned : σ.Owned :=
    exec_induct (fun σ a σ' ho hc hstep => (Store.step_cases hstep).owned hc ho) Store.owned_init
      hcareful hrun
  refine exists_openEngine_iff.mpr fun a ha hnone => ?_
  refine howned.complete (by rw [howned.down hdown]; simp) a.1 ?_
  have hmem := SortedMap.mem_entries.mp (SortedMap.mem_within.mp ha).1
  rwa [hnone] at hmem

/-- The process dies when a flush is started and has not created its table. -/
theorem always_opens_flushed :
    ∃ σ e fs, Store.Runs 50 [.openOk, .batch [⟨[107], [1], false⟩], .crash] σ ∧
      openEngine σ.disk = some (e, fs) := by
  have hrun :
    ((exec (Store.step 50) {} [.openOk, .batch [⟨[107], [1], false⟩], .crash]).map fun σ =>
      decide (σ.eng.isNone)) = some true := by decide +kernel
  have hcareful : Along (Store.step 50) Store.Careful {}
      [.openOk, .batch [⟨[107], [1], false⟩], .crash] := by decide +kernel
  obtain ⟨σ, hσ, hdown⟩ := Option.map_eq_some_iff.mp hrun
  obtain ⟨e, fs, hopen⟩ :=
    always_opens hσ hcareful (Option.isNone_iff_eq_none.mp (of_decide_eq_true hdown))
  exact ⟨σ, e, fs, hσ, hopen⟩

/-- The process dies when a flush has created its table file and not finished it. -/
theorem crash_in_flush_unopenable : ∃ σ, Store.Runs 50
      [.openOk, .batch [⟨[107], [1], false⟩], .job 0, .crash] σ ∧ openEngine σ.disk = none := by
  have hrun :
    ((exec (Store.step 50) {} [.openOk, .batch [⟨[107], [1], false⟩], .job 0, .crash]).map fun σ =>
      decide ((openEngine σ.disk).isNone)) = some true := by decide +kernel
  obtain ⟨σ, hσ, hopen⟩ := Option.map_eq_some_iff.mp hrun
  exact ⟨σ, hσ, Option.isNone_iff_eq_none.mp (of_decide_eq_true hopen)⟩

end KvStore
