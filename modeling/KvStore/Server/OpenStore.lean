import KvStore.Engine.CrashRecovery
import KvStore.Engine.FlushFailure
import KvStore.Server.SnapshotContent

/-!
# The store as a server's engine

The server's model asks of its engine only that a call has its effect or none (`LawfulEngine`,
`LawfulSnapshot`). Here the store of `System.lean`, with its files and the goroutines of its
flushes, is such an engine.

* `OpenStore`: a store whose process runs, with the run of steps that has led to it. Before each
  call to come the goroutines make the steps that `turns` names; `order` is the order in which
  `Snapshot` visits its keys.
* `OpenStore.applyBatch`: waits for a flush in progress first. `awaitFlush_idle`: three steps of the
  goroutine are enough for that; `applyBatch_ok`: as long as no file operation fails the call then
  succeeds.
* `OpenStore.restoreSnapshot`: does not wait, and fails while a flush is in progress.
* `Reboots`: the process dies outside of any call and the directory is opened again.
  `Reboots.content`: what it shows then is what it showed before.
-/

namespace KvStore

open Layered Machine StorageEngine

namespace Store

variable {threshold : ℕ} {σ σ' : Store} {a : StoreAction} {as : List StoreAction}

/-- The engine shows what was acknowledged, whatever has happened. -/
theorem Runs.current (h : Runs threshold as σ) : σ.Current :=
  exec_induct (P := fun _ _ => True) (I := Current)
    (fun _ _ _ hc _ hstep => (step_cases hstep).current hc) current_init
      (along_of_all (fun _ _ => trivial) _ as) h

/-- No flush has failed. -/
def Healthy (σ : Store) : Prop := ∀ e, σ.eng = some e → e.flushErr = false

theorem Stepped.healthy (h : Stepped threshold σ a σ') (hσ : σ.Healthy) : σ'.Healthy := by
  cases h with
  | @opened e fs _ run =>
    rintro e' ⟨⟩
    exact (KvStore.opened run).flushErr_eq
  | openCut | crashed | crashedIn | restoreCut => rintro e' ⟨⟩
  | @batched e e' ops jobs fs up idle run =>
    rintro e₁ ⟨⟩
    obtain ⟨herr, ⟨-, rfl, -⟩ | ⟨-, rfl, -⟩ | ⟨-, rfl, -⟩⟩ := Engine.applyBatch_cases run
    · exact herr
    · exact herr
    · exact herr
  | @flushed e e' jobs fs up idle run =>
    rintro e₁ ⟨⟩
    obtain ⟨herr, ⟨rfl, -⟩ | hstart⟩ := Engine.flush_cases run
    · exact herr
    · obtain ⟨rfl, -⟩ := Prod.mk.inj hstart
      exact herr
  | @worked e job js js' i up split pos =>
    rintro e₁ ⟨⟩
    unfold FlushJob.step
    cases job.phase with
    | create | install | remove => exact hσ e up
    | finish =>
      rw [show Table.write job.frozen.entries = some job.frozen from SortedMap.ofList_entries _]
      exact hσ e up
  | @restored e e' data kvs fs up decoded run =>
    rintro e₁ ⟨⟩
    obtain ⟨-, -, -, -, -, -, rfl⟩ := Engine.restoreSnapshot_ok run
    rfl
  | @refused e data k up early =>
    rintro e₁ ⟨⟩
    exact hσ e up

theorem Runs.healthy (h : Runs threshold as σ) : σ.Healthy :=
  exec_induct (P := fun _ _ => True) (I := Healthy)
    (fun _ _ _ hc _ hstep => (step_cases hstep).healthy hc) (fun e he => by cases he)
      (along_of_all (fun _ _ => trivial) _ as) h

end Store

/-- How many steps of `runFlush` are left until the table is installed. -/
def FlushPhase.left : FlushPhase → ℕ
  | .create => 3
  | .finish => 2
  | .install => 1
  | .remove => 0

/-- A store whose process runs. -/
structure OpenStore where
  threshold : ℕ
  /-- What has happened to the directory, from the time when it was empty. -/
  history : List StoreAction
  store : Store
  eng : Engine
  run : Store.Runs threshold history store
  up : store.eng = some eng
  /-- For each of the calls to come, the positions of the goroutines that make a step before it. -/
  turns : List (List ℕ) := []
  order : List Bytes → List Bytes := id
  order_perm : ∀ keys, (order keys).Perm keys

namespace OpenStore

/-- The store after a step, if it can be made and leaves the process running. -/
def advance (o : OpenStore) (a : StoreAction) : Option OpenStore :=
  match h : o.store.step o.threshold a with
  | none => none
  | some σ =>
    match up : σ.eng with
    | none => none
    | some e => some { o with
        history := o.history ++ [a]
        store := σ
        eng := e
        run := exec_append.mpr ⟨o.store, o.run, exec_singleton.mpr h⟩
        up := up }

/-- The goroutine at the position makes a step, if there is one. -/
def work (o : OpenStore) (i : ℕ) : OpenStore := (o.advance (.job i)).getD o

/-- What happens between the last call and the next one. -/
def elapse (o : OpenStore) : OpenStore :=
  (o.turns.headD []).foldl work { o with turns := o.turns.tail }

/-- `waitForAnyFlushLocked`: the goroutine of the flush in progress goes on, for at most so many
steps. -/
def awaitFlush : ℕ → OpenStore → OpenStore
  | 0, o => o
  | fuel + 1, o =>
    match o.store.jobs.findIdx? FlushJob.busy with
    | none => o
    | some i => awaitFlush fuel (o.work i)

/-- `ApplyBatch`. -/
def applyBatch (o : OpenStore) (ops : List BatchOp) : OpenStore × Option EngineError :=
  let o := o.elapse.awaitFlush 3
  match o.advance (.batch ops) with
  | some o => (o, none)
  | none => (o, some .flushFailed)

/-- `RestoreSnapshot`. -/
def restoreSnapshot (o : OpenStore) (data : Bytes) : OpenStore × Option EngineError :=
  let o := o.elapse
  if o.eng.immutable.isSome then (o, some .flushInProgress)
  else match decodeSnapshotEntries data with
    | none => (o, some .malformedSnapshot)
    | some _ =>
      match o.advance (.restore data) with
      | some o => (o, none)
      -- the table cannot be written, and its file stays
      | none => ((o.advance (.restoreErr data 1)).getD o, some .restoreFailed)

instance : StorageEngine OpenStore where
  get o := o.eng.get
  applyBatch := applyBatch
  restoreSnapshot := restoreSnapshot
  snapshot o := .ok (o.eng.snapshot (o.order o.eng.knownKeys))

/-! ## What a call does to the content -/

variable {o o' : OpenStore} {a : StoreAction}

theorem advance_cases (h : o.advance a = some o') : Store.Stepped o.threshold o.store a o'.store ∧
    o'.history = o.history ++ [a] ∧ o'.threshold = o.threshold := by
  unfold advance at h
  split at h
  · cases h
  · next σ hstep =>
    split at h
    · cases h
    · obtain rfl := Option.some.inj h
      exact ⟨Store.step_cases hstep, rfl, rfl⟩

theorem exists_advance {σ : Store} (hstep : o.store.step o.threshold a = some σ)
    (hup : σ.eng.isSome) : ∃ o', o.advance a = some o' ∧ o'.store = σ := by
  unfold advance
  split
  · next hnone => cases hnone.symm.trans hstep
  · next σ' hσ' =>
    obtain rfl : σ' = σ := Option.some.inj (hσ'.symm.trans hstep)
    split
    · next hdown =>
      rw [hdown] at hup
      cases hup
    · exact ⟨_, rfl, rfl⟩

theorem tracks (o : OpenStore) : Tracks o.eng o.store.jobs := (o.run.current o.eng o.up).1

theorem get_eq_truth (o : OpenStore) : o.eng.get = o.store.truth := (o.run.current o.eng o.up).2

/-- A step that an engine goes on with is one of the map. -/
theorem advance_get (h : o.advance a = some o') (ha : a.Live) : o'.eng.get = a.acked o.eng.get := by
  obtain ⟨e, hup, -, hget⟩ := (advance_cases h).1.refines ha o.up o.tracks
  obtain rfl : o'.eng = e := Option.some.inj (o'.up.symm.trans hup)
  exact hget

theorem work_get (o : OpenStore) (i : ℕ) : (o.work i).eng.get = o.eng.get := by
  unfold work
  cases h : o.advance (.job i) with
  | none => rfl
  | some o' => exact advance_get h trivial

theorem foldl_work_get (is : List ℕ) (o : OpenStore) : (is.foldl work o).eng.get = o.eng.get := by
  induction is generalizing o with
  | nil => rfl
  | cons i is ih => exact (ih (o.work i)).trans (o.work_get i)

theorem elapse_get (o : OpenStore) : o.elapse.eng.get = o.eng.get := foldl_work_get _ _

theorem awaitFlush_get (fuel : ℕ) (o : OpenStore) : (o.awaitFlush fuel).eng.get = o.eng.get := by
  induction fuel generalizing o with
  | zero => rfl
  | succ fuel ih =>
    unfold awaitFlush
    split
    · rfl
    · next i _ => exact (ih (o.work i)).trans (o.work_get i)

/-! ## Waiting -/

/-- The steps that the goroutines still have to make before no flush is in progress. -/
def left (o : OpenStore) : ℕ := ((o.store.jobs.filter FlushJob.busy).map fun j => j.phase.left).sum

theorem left_of_busy {js js' : List FlushJob} {job : FlushJob}
    (hsplit : o.store.jobs = js ++ job :: js') (hbusy : job.busy) : o.left = job.phase.left := by
  have htracks := o.tracks
  rw [hsplit] at htracks
  obtain ⟨-, hjs, hjs'⟩ := htracks.busy hbusy
  rw [left, hsplit, List.filter_append, List.filter_cons_of_pos hbusy, hjs, hjs']
  rfl

/-- A step of the goroutine of the flush in progress. -/
theorem left_work {i : ℕ} (hi : o.store.jobs.findIdx? FlushJob.busy = some i) :
    (o.work i).left + 1 = o.left := by
  obtain ⟨hlt, hbusy, -⟩ := List.findIdx?_eq_some_iff_getElem.mp hi
  have hjob : o.store.jobs[i]? = some o.store.jobs[i] := List.getElem?_eq_getElem hlt
  have hsplit : o.store.jobs = o.store.jobs.take i ++ o.store.jobs[i] :: o.store.jobs.drop
      (i + 1) := by
    rw [List.cons_getElem_drop_succ, List.take_append_drop]
  generalize o.store.jobs[i] = job at hbusy hjob hsplit
  obtain ⟨o', ho', hstore⟩ := exists_advance (o := o) (a := .job i) (σ := { o.store with
      disk := o.store.disk.run (job.step o.eng).2.2
      eng := some (job.step o.eng).1
      jobs := o.store.jobs.take i ++ ((job.step o.eng).2.1 ++ o.store.jobs.drop (i + 1)) })
    (by simp only [Store.step, o.up, hjob]; rfl) rfl
  have hwork : o.work i = o' := by rw [work, ho']; rfl
  have hold : o.left = job.phase.left := left_of_busy hsplit hbusy
  have htracks := o.tracks
  rw [hsplit] at htracks
  obtain ⟨-, hjs, hjs'⟩ := htracks.busy hbusy
  -- the other goroutines are done, so that only this one counts
  have hnew : o'.left = (((job.step o.eng).2.1.filter FlushJob.busy).map fun j =>
      j.phase.left).sum := by
    rw [left, hstore]
    dsimp only
    rw [List.filter_append, List.filter_append, hjs, hjs', List.nil_append, List.append_nil]
  rw [hwork, hnew, hold]
  unfold FlushJob.step
  cases hphase : job.phase with
  | create => rfl
  | finish =>
    rw [show Table.write job.frozen.entries = some job.frozen from SortedMap.ofList_entries _]
    rfl
  | install => rfl
  | remove =>
    rw [FlushJob.busy, hphase] at hbusy
    cases hbusy

/-- Once no goroutine has anything left to do, no table is frozen. -/
theorem immutable_of_left (h : o.left = 0) : o.eng.immutable = none := by
  have hnil : o.store.jobs.filter FlushJob.busy = [] := by
    by_contra hne
    obtain ⟨job, hmem⟩ := List.exists_mem_of_ne_nil _ hne
    obtain ⟨hjob, hbusy⟩ := List.mem_filter.mp hmem
    obtain ⟨js, js', hsplit⟩ := List.append_of_mem hjob
    rw [left_of_busy hsplit hbusy] at h
    unfold FlushJob.busy at hbusy
    cases hphase : job.phase with
    | create | finish | install =>
      rw [hphase] at h
      cases h
    | remove => simp [hphase] at hbusy
  have hfrozen := o.tracks.frozen
  rw [hnil] at hfrozen
  cases himm : o.eng.immutable with
  | none => rfl
  | some t =>
    rw [himm] at hfrozen
    cases hfrozen

theorem left_of_none (hi : o.store.jobs.findIdx? FlushJob.busy = none) : o.left = 0 := by
  have hnil : o.store.jobs.filter FlushJob.busy = [] :=
    List.filter_eq_nil_iff.mpr fun job hjob => by simp [List.findIdx?_eq_none_iff.mp hi job hjob]
  rw [left, hnil]
  rfl

theorem left_le (o : OpenStore) : o.left ≤ 3 := by
  cases hi : o.store.jobs.findIdx? FlushJob.busy with
  | none =>
    rw [left_of_none hi]
    exact Nat.zero_le _
  | some i =>
    obtain ⟨hlt, hbusy, -⟩ := List.findIdx?_eq_some_iff_getElem.mp hi
    have hsplit : o.store.jobs = o.store.jobs.take i ++ o.store.jobs[i] :: o.store.jobs.drop
        (i + 1) := by
      rw [List.cons_getElem_drop_succ, List.take_append_drop]
    rw [left_of_busy hsplit hbusy]
    cases o.store.jobs[i].phase <;> decide

theorem left_awaitFlush {fuel : ℕ} (h : o.left ≤ fuel) : (o.awaitFlush fuel).left = 0 := by
  induction fuel generalizing o with
  | zero => exact Nat.le_zero.mp h
  | succ fuel ih =>
    unfold awaitFlush
    split
    · next hi => exact left_of_none hi
    · next i hi =>
      have := left_work hi
      exact ih (by omega)

/-- **The wait ends**: three steps of the goroutine are enough. -/
theorem awaitFlush_idle (o : OpenStore) : (o.awaitFlush 3).eng.immutable = none :=
  immutable_of_left (left_awaitFlush o.left_le)

/-! ## The laws -/

theorem exists_batch (ops : List BatchOp) (hidle : o.eng.immutable = none) :
    ∃ o', o.advance (.batch ops) = some o' := by
  have herr : o.eng.flushErr = false := o.run.healthy o.eng o.up
  obtain ⟨e', jobs, fs, hrun⟩ : ∃ e' jobs fs, o.eng.applyBatch o.threshold ops =
      .ok (e', jobs, fs) := by
    rw [Engine.applyBatch, if_neg (by rw [herr]; exact Bool.false_ne_true)]
    by_cases hops : ops = []
    · exact ⟨_, _, _, if_pos hops⟩
    · rw [if_neg hops]
      dsimp only
      split_ifs
      · exact ⟨_, _, _, rfl⟩
      · exact ⟨_, _, _, rfl⟩
  have hσ : o.store.idle = some o.eng := by
    rw [Store.idle, o.up, Option.filter_some, hidle]
    rfl
  obtain ⟨o', ho', -⟩ := exists_advance (o := o) (a := .batch ops)
    (σ := { o.store.returned e' jobs fs with truth := applyOps o.store.truth ops })
    (by simp only [Store.step, hσ, Option.bind_eq_bind, Option.bind_some, hrun]) rfl
  exact ⟨o', ho'⟩

/-- As long as no file operation fails, `ApplyBatch` succeeds. -/
theorem applyBatch_ok (o : OpenStore) (ops : List BatchOp) : (o.applyBatch ops).2 = none := by
  obtain ⟨o', ho'⟩ := exists_batch ops (awaitFlush_idle o.elapse)
  unfold applyBatch
  dsimp only
  rw [ho']

theorem applyBatch_get (o : OpenStore) (ops : List BatchOp) :
    (o.applyBatch ops).1.eng.get = applyOps o.eng.get ops := by
  obtain ⟨o', ho'⟩ := exists_batch ops (awaitFlush_idle o.elapse)
  unfold applyBatch
  dsimp only
  rw [ho']
  dsimp only
  rw [advance_get ho' trivial, awaitFlush_get, elapse_get]
  rfl

theorem restoreSnapshot_cases (o : OpenStore) (data : Bytes) :
    ((o.restoreSnapshot data).2 = none ∧ ∃ kvs, decodeSnapshotEntries data = some kvs ∧
      (o.restoreSnapshot data).1.eng.get = contentOf kvs) ∨
    ((o.restoreSnapshot data).2 ≠ none ∧ (o.restoreSnapshot data).1.eng.get = o.eng.get) := by
  unfold restoreSnapshot
  dsimp only
  split_ifs
  · exact Or.inr ⟨Option.some_ne_none _, o.elapse_get⟩
  split
  · exact Or.inr ⟨Option.some_ne_none _, o.elapse_get⟩
  · next kvs hkvs =>
    split
    · next o' ho' =>
      refine Or.inl ⟨rfl, kvs, hkvs, ?_⟩
      rw [advance_get ho' trivial, StoreAction.acked, hkvs]
      rfl
    · refine Or.inr ⟨Option.some_ne_none _, ?_⟩
      cases h : o.elapse.advance (.restoreErr data 1) with
      | none => exact o.elapse_get
      | some o' => exact (advance_get h trivial).trans o.elapse_get

instance : LawfulEngine OpenStore where
  apply_ok o ops _ := o.applyBatch_get ops
  apply_err o ops h := absurd (o.applyBatch_ok ops) h
  restore_ok o data h := by
    rcases o.restoreSnapshot_cases data with ⟨-, hok⟩ | ⟨hne, -⟩
    · exact hok
    · exact absurd h hne
  restore_err o data h := by
    rcases o.restoreSnapshot_cases data with ⟨hok, -⟩ | ⟨-, hget⟩
    · exact absurd hok h
    · exact hget

instance : LawfulSnapshot OpenStore where
  snapshot_ok o _ h := ⟨_, (Except.ok.inj h).symm, Engine.contentOf_livePairs (o.order_perm _)⟩

/-! ## Opening again -/

/-- The process of `o` dies outside of any call, and in the end the directory is opened. The
goroutines may have made steps since the last call, and the process may have died inside `Open`
before. -/
structure Reboots (o o' : OpenStore) : Prop where
  threshold : o'.threshold = o.threshold
  history : ∃ (steps : List ℕ) (cuts : List (ℕ × ℕ)), o'.history = o.history ++
    (steps.map StoreAction.job ++ .crash :: (cuts.map (fun c => .openCut c.1 c.2) ++ [.openOk]))
  guarded : Along (Store.step o'.threshold) Store.Guarded {} o'.history

/-- Steps of goroutines acknowledge nothing. -/
theorem exec_jobs_truth {threshold : ℕ} {steps : List ℕ} {σ σ' : Store}
    (h : exec (Store.step threshold) σ (steps.map StoreAction.job) = some σ') :
    σ'.truth = σ.truth := by
  refine exec_induct (P := fun _ a => ∃ i, a = StoreAction.job i)
    (I := fun τ : Store => τ.truth = σ.truth) ?_ rfl (along_of_forall (fun a ha => ?_) σ) h
  · rintro τ a τ' htruth ⟨i, rfl⟩ hstep
    cases Store.step_cases hstep with
    | worked => exact htruth
  · obtain ⟨i, -, rfl⟩ := List.mem_map.mp ha
    exact ⟨i, rfl⟩

/-- Nor does an `Open` in which the process dies. -/
theorem exec_cuts {threshold : ℕ} {cuts : List (ℕ × ℕ)} {σ σ' : Store} (hdown : σ.eng = none)
    (h : exec (Store.step threshold) σ (cuts.map fun c => .openCut c.1 c.2) = some σ') :
    σ'.eng = none ∧ σ'.truth = σ.truth ∧ σ'.inflight = σ.inflight := by
  refine exec_induct (P := fun _ a => ∃ k j, a = StoreAction.openCut k j)
    (I := fun τ : Store => τ.eng = none ∧ τ.truth = σ.truth ∧ τ.inflight = σ.inflight) ?_
      ⟨hdown, rfl, rfl⟩
    (along_of_forall (fun a ha => ?_) σ) h
  · rintro τ a τ' ⟨-, htruth, hinfl⟩ ⟨k, j, rfl⟩ hstep
    cases Store.step_cases hstep with
    | openCut => exact ⟨rfl, htruth, hinfl⟩
  · obtain ⟨c, -, rfl⟩ := List.mem_map.mp ha
    exact ⟨c.1, c.2, rfl⟩

/-- **The store comes back as it was.** -/
theorem Reboots.content (h : Reboots o o') : o'.eng.get = o.eng.get := by
  obtain ⟨hthr, ⟨steps, cuts, hhist⟩, hguard⟩ := h
  have hrun := o'.run
  have hup := o'.up
  rw [hhist, ← List.cons_append, ← List.append_assoc, ← List.append_assoc] at hrun hguard
  obtain ⟨σ, hσ, hopen⟩ := exec_append.mp hrun
  have hcons := (Store.consistent hσ ((along_append hσ).mp hguard).1).2
  -- up to the last `Open` the store is down, with nothing in flight
  obtain ⟨hdown, htruth, hinfl⟩ : σ.eng = none ∧ σ.truth = o.store.truth ∧ σ.inflight = [] := by
    rw [hthr] at hσ
    obtain ⟨σ₁, hσ₁, hdie⟩ := exec_append.mp hσ
    obtain ⟨σ₀, hσ₀, hjobs⟩ := exec_append.mp hσ₁
    obtain rfl : σ₀ = o.store := Option.some.inj (hσ₀.symm.trans o.run)
    obtain ⟨σ₂, hcrash, hcuts⟩ := exec_cons.mp hdie
    cases Store.step_cases hcrash with
    | crashed =>
      obtain ⟨hdown, htruth, hinfl⟩ := exec_cuts rfl hcuts
      have hjobs' := exec_jobs_truth hjobs
      exact ⟨hdown, htruth.trans hjobs', hinfl⟩
  cases hcons with
  | up up => cases hdown.symm.trans up
  | @down ops _ inflight recoverable =>
    rw [hinfl] at inflight
    obtain rfl := List.prefix_nil.mp inflight
    have hstep := exec_singleton.mp hopen
    generalize o'.store = τ at hstep hup
    cases Store.step_cases hstep with
    | @opened e fs _ run =>
      obtain rfl : e = o'.eng := Option.some.inj hup
      rw [(opened run).get_eq, recoverable.content, o.get_eq_truth, ← htruth]
      rfl

end OpenStore

end KvStore
