import KvStore.Engine.Restore

/-!
# Crash recovery

What `Open` finds after a crash. A goroutine of `runFlush` installs its table, and with that lets
the next flush start, before it removes its log; nothing keeps the goroutine of the next flush from
being the first to remove. The older log is then replayed over a newer table.

* `Store.Guarded`: a step that keeps to the order. A log is removed when no older one is left, every
  record fits its length field, the files' numbers have six digits, and `Open` finds no table that
  is not finished.
* `Store.Consistent`: the files agree with the engine's memory, or, when there is no process, hold
  what was acknowledged and a part of the batch that was interrupted.
* `recovered_content`: after a run of such steps `Open` shows what was acknowledged.
* `recovery_resurrects`: with the removals in the other order an overwritten value comes back.
-/

namespace KvStore

open Layered Machine

namespace Running

variable {d : Dir} {e : Engine} {old pend act : List FlushJob}

/-- A batch may be interrupted anywhere: some of its operations are there. -/
theorem batch (h : Running d e old pend []) (himm : e.immutable = none) (hlim : e.Within)
    {threshold : ℕ} {ops : List BatchOp} (hfits : ∀ op ∈ ops, op.Fits) {e' : Engine}
    {jobs : List FlushJob} {fs : List FsOp}
    (hrun : e.applyBatch threshold ops = .ok (e', jobs, fs)) :
    Dir.Throughout (fun d' => ∃ ops', ops' <+: ops ∧ Recoverable d' (applyOps e.get ops')) d fs ∧
      Running (d.run fs) e' old pend jobs := by
  have hnone : ∃ ops', ops' <+: ops ∧ Recoverable d (applyOps e.get ops') :=
    ⟨[], List.nil_prefix, h.recoverable⟩
  have hwritten := h.written hfits
  have hall : ∃ ops', ops' <+: ops ∧ Recoverable
      (d.apply (.appendWal e.w (Wal.encode (batchRecords e.nextSeq ops)))) (applyOps e.get ops') :=
    ⟨ops, List.prefix_refl _, e.get_written ops ▸ hwritten.recoverable⟩
  obtain ⟨-, ⟨rfl, rfl, rfl, rfl⟩ | ⟨-, rfl, rfl, rfl⟩ | ⟨-, rfl, rfl, rfl⟩⟩ :=
    Engine.applyBatch_cases hrun
  · exact ⟨Dir.throughout_nil hnone, h⟩
  · exact ⟨Dir.throughout_cons (h.torn hfits) (Dir.throughout_nil hall), hwritten⟩
  · have hstarted := hwritten.startFlush hlim
    have hget := ((e.written ops).get_startFlushLocked himm).trans (e.get_written ops)
    exact ⟨Dir.throughout_cons (h.torn hfits) (Dir.throughout_cons (fun _ => hall)
      (Dir.throughout_nil ⟨ops, List.prefix_refl _, hget ▸ hstarted.recoverable⟩)), hstarted⟩

/-- The goroutine with the oldest log is the first one. -/
theorem head_of_least {job : FlushJob} {l l' : List FlushJob}
    (h : Running d e old (l ++ job :: l') act) (hleast : ∀ a ∈ d.validWals, job.frozenWAL ≤ a.1) :
    l = [] := by
  cases l with
  | nil => rfl
  | cons j l =>
    obtain ⟨rs, hlaid, -⟩ := h.laid
    obtain ⟨files, hw, hfiles⟩ := hlaid.wals
    cases hfiles with
    | @cons a _ files _ hhead htail =>
      have hsorted : d.validWals.Pairwise (fun a b => a.1 < b.1) := SortedMap.within_sorted _ _
      obtain ⟨b, hb, hjob⟩ := logged_mem htail job (by simp)
      rw [hw] at hsorted hleast
      have hlt := (List.pairwise_cons.mp hsorted).1 b (List.mem_append_left _ hb)
      exact absurd (hleast a List.mem_cons_self) (not_le.mpr (hjob ▸ hlt))

end Running

/-! ## The condition -/

namespace Store

/-- The numbers that the engine will use are within the limit. -/
def Within (σ : Store) : Prop := ∀ e ∈ σ.eng, e.Within

instance (σ : Store) : Decidable σ.Within :=
  match h : σ.eng with
  | none => isTrue fun e he => by rw [h] at he; cases he
  | some e =>
    decidable_of_iff e.Within
      ⟨fun he e' he' => by rw [h] at he'; cases he'; exact he, fun hall => hall e h⟩

/-- No log that `Open` would replay is older than the one that the goroutine is about to remove,
unless that one is not replayed either. -/
def InOrder (σ : Store) (job : FlushJob) : Prop :=
  job.phase = .remove → σ.disk.minValidSeq ≤ job.frozenWAL →
    ∀ a ∈ σ.disk.validWals, job.frozenWAL ≤ a.1

instance (σ : Store) (job : FlushJob) : Decidable (σ.InOrder job) :=
  inferInstanceAs (Decidable (_ → _ → _))

/-- The condition on a step. -/
def Guarded (σ : Store) : StoreAction → Prop
  | .openOk | .openCut _ _ => Dir.nextNumber σ.disk.validWals < Dir.fileLimit ∧ σ.disk.Finished
  | .batch ops | .crashIn ops _ _ => σ.Within ∧ ∀ op ∈ ops, op.Fits
  | .flush | .restore _ => σ.Within
  | .job i => σ.Within ∧ ∀ job ∈ σ.jobs[i]?, σ.InOrder job
  | .crash => True
  -- a restore that is not completed is the subject of another theorem
  | .restoreErr _ k | .restoreCut _ k => k = 0

instance (σ : Store) : DecidablePred σ.Guarded
  | .openOk | .openCut _ _ => inferInstanceAs (Decidable (_ ∧ _))
  | .batch _ | .crashIn _ _ _ => inferInstanceAs (Decidable (_ ∧ _))
  | .flush | .restore _ => inferInstanceAs (Decidable σ.Within)
  | .job i => inferInstanceAs (Decidable (_ ∧ ∀ job ∈ σ.jobs[i]?, σ.InOrder job))
  | .crash => isTrue trivial
  | .restoreErr _ k | .restoreCut _ k => inferInstanceAs (Decidable (k = 0))

/-! ## The invariant -/

/-- The files hold what was acknowledged. -/
inductive Consistent (σ : Store) : Prop
  | up {e : Engine} {old pend act : List FlushJob} (up : σ.eng = some e)
      (running : Running σ.disk e old pend act) (jobs : σ.jobs = old ++ (pend ++ act))
  | down {ops : List BatchOp} (down : σ.eng = none) (inflight : ops <+: σ.inflight)
      (recoverable : Recoverable σ.disk (applyOps σ.truth ops))

theorem consistent_init : Consistent {} :=
  .down rfl (List.prefix_refl _) ⟨fun _ h => absurd h List.not_mem_nil, rfl, le_rfl, le_rfl,
    fun _ h => absurd h List.not_mem_nil, fun _ h => absurd h List.not_mem_nil⟩

variable {threshold : ℕ} {σ σ' : Store} {a : StoreAction} {e : Engine}

/-- An element of a concatenation is in the one or the other. -/
theorem append_eq_append_cons {α : Type} {xs ys js js' : List α} {j : α}
    (h : xs ++ ys = js ++ j :: js') : (∃ l, xs = js ++ j :: l ∧ js' = l ++ ys) ∨ ∃ l, js = xs ++ l ∧
      ys = l ++ j :: js' := by
  rcases List.append_eq_append_iff.mp h with ⟨l, hjs, hys⟩ | ⟨l, hxs, hcons⟩
  · exact Or.inr ⟨l, hjs, hys⟩
  · cases l with
    | nil => exact Or.inr ⟨[], by simpa using hxs.symm, hcons.symm⟩
    | cons b l =>
      obtain ⟨rfl, rfl⟩ := List.cons.inj hcons
      exact Or.inl ⟨l, hxs, rfl⟩

/-- One step of a goroutine. -/
theorem running_worked {d : Dir} {old pend act js js' : List FlushJob} {job : FlushJob}
    (h : Running d e old pend act) (hlim : e.Within)
    (hsplit : old ++ (pend ++ act) = js ++ job :: js')
    (horder : job.phase = .remove → d.minValidSeq ≤ job.frozenWAL →
      ∀ a ∈ d.validWals, job.frozenWAL ≤ a.1) :
    ∃ old' pend' act', Running (d.run (job.step e).2.2) (job.step e).1 old' pend' act' ∧
      js ++ ((job.step e).2.1 ++ js') = old' ++ (pend' ++ act') := by
  rcases append_eq_append_cons hsplit with ⟨l, rfl, rfl⟩ | ⟨l, rfl, hrest⟩
  · -- a log that a restore has made invalid
    have hphase := (h.old_done job (by simp)).1
    refine ⟨js ++ l, pend, act, ?_, ?_⟩
    · simp only [FlushJob.step, hphase]
      exact h.remove_old
    · simp [FlushJob.step, hphase]
  rcases append_eq_append_cons hrest with ⟨l', rfl, rfl⟩ | ⟨l', rfl, hact⟩
  · -- a log whose table is installed
    have hphase := h.pend_done job (by simp)
    obtain ⟨b, hb⟩ := h.wal_of_pend (j := job) (by simp)
    obtain rfl := h.head_of_least (horder hphase (SortedMap.mem_within.mp hb).2.1)
    refine ⟨old, l', act, ?_, ?_⟩
    · simp only [FlushJob.step, hphase]
      exact h.remove_pend
    · simp [FlushJob.step, hphase]
  · -- the flush in progress
    obtain ⟨rs, hlaid, -⟩ := h.laid
    obtain ⟨hnil, -⟩ | ⟨job', hone, -⟩ := hlaid.active_cases
    · rw [hnil] at hact
      exact absurd hact (by simp)
    rw [hone] at hact h
    obtain ⟨rfl, hcons⟩ | ⟨-, hcons⟩ := List.append_eq_singleton_iff.mp hact.symm
    · obtain ⟨rfl, rfl⟩ := List.cons.inj hcons
      cases hphase : job.phase with
      | create =>
        refine ⟨old, pend, [{ job with phase := .finish }], ?_, by simp [FlushJob.step, hphase]⟩
        simp only [FlushJob.step, hphase]
        exact h.create hphase hlim
      | finish =>
        have hwrite : Table.write job.frozen.entries = some job.frozen := SortedMap.ofList_entries _
        refine ⟨old, pend, [{ job with phase := .install }],
          ?_, by simp [FlushJob.step, hphase, hwrite]⟩
        simp only [FlushJob.step, hphase, hwrite]
        exact h.finish hphase
      | install =>
        refine ⟨old, pend ++ [{ job with phase := .remove }], [],
          ?_, by simp [FlushJob.step, hphase]⟩
        simp only [FlushJob.step, hphase]
        exact h.install hphase
      | remove => exact absurd hphase (h.act_busy job (List.mem_singleton_self _)).1
    · cases hcons

/-- **One step keeps the files consistent.** -/
theorem Stepped.consistent (h : Stepped threshold σ a σ') (hg : σ.Guarded a) (hcur : σ.Current)
    (hc : σ.Consistent) : σ'.Consistent := by
  cases hc with
  | @down ops down inflight recoverable =>
    cases h with
    | @opened e fs _ run =>
      exact .up rfl (.opened recoverable (KvStore.opened run) hg.1) rfl
    | @openCut e fs k j _ run =>
      exact .down rfl inflight ((recoverable.throughout_open (KvStore.opened run) hg.1).1 k j)
    | batched up | flushed up | worked up | restored up | refused up | crashed up | crashedIn up
    | restoreCut up => cases down.symm.trans up
  | @up e old pend act up running jobs =>
    obtain ⟨rs, hlaid, -⟩ := running.laid
    have htruth := (hcur e up).2
    cases h with
    | opened down | openCut down => cases down.symm.trans up
    | @batched _ e' ops jobs' fs up' idle run =>
      cases up.symm.trans up'
      obtain rfl := hlaid.act_nil idle
      exact .up rfl (running.batch idle (hg.1 e up) hg.2 run).2 (by simp [returned, jobs])
    | @flushed _ e' jobs' fs up' idle run =>
      cases up.symm.trans up'
      obtain rfl := hlaid.act_nil idle
      obtain ⟨-, ⟨rfl, rfl, rfl⟩ | hstart⟩ := Engine.flush_cases run
      · exact .up rfl running (by simp [returned, jobs])
      · cases hstart
        exact .up rfl (running.startFlush (hg e up))
          (by simp [returned, jobs, Engine.startFlushLocked])
    | @worked _ job js js' i up' split pos =>
      cases up.symm.trans up'
      have hjob : job ∈ σ.jobs[i]? := by
        rw [split, ← pos, List.getElem?_append_right le_rfl, Nat.sub_self]
        rfl
      obtain ⟨old', pend', act', hrunning, hjobs⟩ :=
        running_worked running (hg.1 e up) (jobs.symm.trans split) (hg.2 job hjob)
      exact .up rfl hrunning hjobs
    | @restored _ e' data kvs fs up' decoded run =>
      cases up.symm.trans up'
      obtain rfl := hlaid.act_nil (Engine.restoreSnapshot_ok run).1
      exact .up rfl (running.restored (hg e up) run) (by simp [returned, jobs])
    | @refused _ data k up' early =>
      cases up.symm.trans up'
      obtain rfl : k = 0 := hg
      exact .up rfl running (by simp [returned, jobs])
    | crashed =>
      exact .down rfl (List.prefix_refl _) (htruth ▸ running.recoverable)
    | @crashedIn _ e' ops k j jobs' fs up' idle run =>
      cases up.symm.trans up'
      obtain rfl := hlaid.act_nil idle
      obtain ⟨ops', hops, hrec⟩ := (running.batch idle (hg.1 e up) hg.2 run).1 k j
      exact .down rfl hops (htruth ▸ hrec)
    | @restoreCut _ data k up' =>
      obtain rfl : k = 0 := hg
      exact .down rfl (List.prefix_refl _) (htruth ▸ running.recoverable)

theorem exec_consistent {as : List StoreAction} (hcur : σ.Current) (hc : σ.Consistent)
    (hrun : exec (step threshold) σ as = some σ') (hg : Along (step threshold) Guarded σ as) :
    σ'.Current ∧ σ'.Consistent := by
  refine exec_induct (I := fun σ => σ.Current ∧ σ.Consistent) (fun σ a σ' hI hG hstep => ?_)
    ⟨hcur, hc⟩ hg hrun
  have hstepped := step_cases hstep
  exact ⟨hstepped.current hI.1, hstepped.consistent hG hI.1 hI.2⟩

theorem consistent {as : List StoreAction} (hrun : Runs threshold as σ)
    (hg : Along (step threshold) Guarded {} as) : σ.Current ∧ σ.Consistent :=
  exec_consistent current_init consistent_init hrun hg

end Store

/-! ## What `Open` shows -/

/-- **Recovery loses and resurrects nothing, if logs are removed in their order.** After a run of
such steps, with crashes and interrupted recoveries, `Open` shows what was acknowledged and then
some first operations of the batch that the last crash interrupted, unless the crash left a table
that is not finished. -/
theorem recovered_content {threshold : ℕ} {as : List StoreAction} {σ : Store}
    (hrun : Store.Runs threshold as σ) (hg : Along (Store.step threshold) Store.Guarded {} as)
    (hdown : σ.eng = none) (hfin : σ.disk.Finished) :
    ∃ e fs ops, openEngine σ.disk = some (e, fs) ∧ ops <+: σ.inflight ∧
      e.get = applyOps σ.truth ops := by
  obtain ⟨e, fs, hopen⟩ := exists_openEngine_iff.mpr hfin
  cases (Store.consistent hrun hg).2 with
  | up up => cases hdown.symm.trans up
  | @down ops _ inflight recoverable =>
    exact ⟨e, fs, ops, hopen, inflight, by rw [(opened hopen).get_eq, recoverable.content]⟩

/-- A write of one byte under the key `k`. -/
def putK (v : UInt8) : BatchOp := ⟨[107], [v], false⟩

/-- Every write starts a flush. The first one is still running when the third write is cut in its
log. -/
def tornRun : List StoreAction :=
  [.openOk, .batch [putK 1], .job 0, .job 0, .job 0, .job 0, .batch [putK 2], .job 0,
    .job 0, .job 0, .crashIn [putK 3] 0 7]

theorem recovered_content_torn : ∃ σ e fs ops, Store.Runs 50 tornRun σ ∧
    openEngine σ.disk = some (e, fs) ∧ ops <+: σ.inflight ∧ e.get = applyOps σ.truth ops := by
  have hrun : (exec (Store.step 50) {} tornRun).map
      (fun σ => decide (σ.eng.isNone ∧ σ.disk.Finished)) = some true := by decide +kernel
  have hg : Along (Store.step 50) Store.Guarded {} tornRun := by decide +kernel
  obtain ⟨σ, hσ, hall⟩ := Option.map_eq_some_iff.mp hrun
  obtain ⟨hdown, hfin⟩ := of_decide_eq_true hall
  obtain ⟨e, fs, ops, hopen, hops, hget⟩ :=
    recovered_content hσ hg (Option.isNone_iff_eq_none.mp hdown) hfin
  exact ⟨σ, e, fs, ops, hσ, hopen, hops, hget⟩

/-- The second flush removes its log before the first one has. -/
def overtakenRun : List StoreAction :=
  [.openOk, .batch [putK 1], .job 0, .job 0, .job 0, .batch [putK 2], .job 1, .job 1, .job 1,
    .job 1, .crash]

/-- A value that was overwritten by an acknowledged write is back after a crash: the log of the
first flush is replayed over the table of the second. -/
theorem recovery_resurrects : ∃ σ e fs, Store.Runs 50 overtakenRun σ ∧ σ.eng = none ∧
    σ.inflight = [] ∧ openEngine σ.disk = some (e, fs) ∧ σ.truth [107] = some [2] ∧
      e.get [107] = some [1] := by
  have hrun : ((exec (Store.step 50) {} overtakenRun).bind fun σ => (openEngine σ.disk).map fun p =>
      decide (σ.eng.isNone ∧ σ.inflight = [] ∧ σ.truth [107] = some [2] ∧ p.1.get [107] = some [1]))
        = some true := by decide +kernel
  obtain ⟨σ, hσ, hopen⟩ := Option.bind_eq_some_iff.mp hrun
  obtain ⟨⟨e, fs⟩, hopen, hall⟩ := Option.map_eq_some_iff.mp hopen
  obtain ⟨hdown, hidle, htruth, hget⟩ := of_decide_eq_true hall
  exact ⟨σ, e, fs, hσ, Option.isNone_iff_eq_none.mp hdown, hidle, hopen, htruth, hget⟩

end KvStore
