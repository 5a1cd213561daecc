import KvStore.Engine.Engine
import KvStore.Machine.Run

/-!
# A store's process and its crashes

One directory, and on it one process after the other: the engine's callers, the flushes in the
background and the crashes, interleaved in any way.

* A call holds the engine's lock for its whole length, except where it waits for a flush, so that a
  step is a whole call. The goroutines of `runFlush` make their steps one by one.
* A crash inside a call or inside `Open` leaves the first of its file operations, an append cut at
  any byte. A `RestoreSnapshot` that returns an error before its rename leaves the first of them
  too.
* `truth` is the content that the acknowledged operations make; `Open` sets it to what it shows.
  `inflight` is the batch the last crash interrupted.

`Close` is a crash with nothing in flight, after the goroutines are done. `Store.Stepped` lists what
a step can be.
-/

namespace KvStore

open Machine

/-- A directory and its process, if there is one. -/
structure Store where
  disk : Dir := {}
  eng : Option Engine := none
  jobs : List FlushJob := []
  truth : Content := fun _ => none
  inflight : List BatchOp := []

/-- What happens to a store. -/
inductive StoreAction
  /-- `Open` returns an engine. -/
  | openOk
  /-- The process dies inside `Open`. -/
  | openCut (k j : ℕ)
  /-- `ApplyBatch` returns nil. `Put` and `Delete` are batches of one. -/
  | batch (ops : List BatchOp)
  /-- `Flush` starts its flush, or finds nothing to do. -/
  | flush
  /-- The goroutine at the position makes a step. -/
  | job (i : ℕ)
  /-- `RestoreSnapshot` returns nil. -/
  | restore (data : Bytes)
  /-- `RestoreSnapshot` returns an error after its first `k` file operations. -/
  | restoreErr (data : Bytes) (k : ℕ)
  /-- The process dies outside of any call. -/
  | crash
  /-- The process dies inside `ApplyBatch`. -/
  | crashIn (ops : List BatchOp) (k j : ℕ)
  /-- The process dies inside `RestoreSnapshot`, after its first `k` file operations. -/
  | restoreCut (data : Bytes) (k : ℕ)
  deriving DecidableEq

namespace Store

/-- The store after a call that returned the engine `e`, started the goroutines `jobs` and made the
file operations `fs`. -/
def returned (σ : Store) (e : Engine) (jobs : List FlushJob) (fs : List FsOp) : Store :=
  { σ with disk := σ.disk.run fs, eng := some e, jobs := σ.jobs ++ jobs }

/-- The store after its process has died and left the directory `d`. -/
def died (σ : Store) (d : Dir) (inflight : List BatchOp) : Store :=
  { σ with disk := d, eng := none, jobs := [], inflight := inflight }

/-- The store after `Open` has returned the engine `e` and made the file operations `fs`. -/
def opened (σ : Store) (e : Engine) (fs : List FsOp) : Store :=
  { disk := σ.disk.run fs, eng := some e, truth := e.get }

/-- The engine, if no flush is in progress. -/
def idle (σ : Store) : Option Engine := σ.eng.filter fun e => e.immutable.isNone

/-- One step. -/
def step (threshold : ℕ) (σ : Store) : StoreAction → Option Store
  | .openOk =>
    if σ.eng.isSome then none else (openEngine σ.disk).map fun p => σ.opened p.1 p.2
  | .openCut k j =>
    if σ.eng.isSome then none
    else (openEngine σ.disk).map fun p => σ.died (σ.disk.cut p.2 k j) σ.inflight
  | .batch ops => do
    let e ← σ.idle
    match e.applyBatch threshold ops with
    | .error _ => none
    | .ok (e, jobs, fs) => some { σ.returned e jobs fs with truth := applyOps σ.truth ops }
  | .flush => do
    let e ← σ.idle
    match e.flush with
    | .error _ => none
    | .ok (e, jobs, fs) => some (σ.returned e jobs fs)
  | .job i => do
    let e ← σ.eng
    let job ← σ.jobs[i]?
    return { σ with
      disk := σ.disk.run (job.step e).2.2
      eng := some (job.step e).1
      jobs := σ.jobs.take i ++ ((job.step e).2.1 ++ σ.jobs.drop (i + 1)) }
  | .restore data => do
    let e ← σ.eng
    let kvs ← decodeSnapshotEntries data
    match e.restoreSnapshot data with
    | (_, .error _) => none
    | (fs, .ok e) => some { σ.returned e [] fs with truth := contentOf kvs }
  | .restoreErr data k => do
    let e ← σ.eng
    -- the rename and what follows it do not fail
    if k ≤ ((e.restoreSnapshot data).1.take 3).length then
      some (σ.returned e [] ((e.restoreSnapshot data).1.take k))
    else none
  | .crash => if σ.eng.isSome then some (σ.died σ.disk []) else none
  | .crashIn ops k j => do
    let e ← σ.idle
    match e.applyBatch threshold ops with
    | .error _ => none
    | .ok (_, _, fs) => some (σ.died (σ.disk.cut fs k j) ops)
  | .restoreCut data k => do
    let e ← σ.eng
    return σ.died (σ.disk.run ((e.restoreSnapshot data).1.take k)) []

/-- The store that the run leads to, from an empty directory. -/
abbrev Runs (threshold : ℕ) (as : List StoreAction) (σ : Store) : Prop :=
  exec (step threshold) {} as = some σ

/-! ## The steps -/

/-- What a step can be. -/
inductive Stepped (threshold : ℕ) (σ : Store) : StoreAction → Store → Prop
  | opened {e : Engine} {fs : List FsOp} (down : σ.eng = none)
      (run : openEngine σ.disk = some (e, fs)) : Stepped threshold σ .openOk (σ.opened e fs)
  | openCut {e : Engine} {fs : List FsOp} {k j : ℕ} (down : σ.eng = none)
      (run : openEngine σ.disk = some (e, fs)) :
      Stepped threshold σ (.openCut k j) (σ.died (σ.disk.cut fs k j) σ.inflight)
  | batched {e e' : Engine} {ops : List BatchOp} {jobs : List FlushJob} {fs : List FsOp}
      (up : σ.eng = some e) (idle : e.immutable = none)
      (run : e.applyBatch threshold ops = .ok (e', jobs, fs)) :
      Stepped threshold σ (.batch ops) { σ.returned e' jobs fs with truth := applyOps σ.truth ops }
  | flushed {e e' : Engine} {jobs : List FlushJob} {fs : List FsOp} (up : σ.eng = some e)
      (idle : e.immutable = none) (run : e.flush = .ok (e', jobs, fs)) :
      Stepped threshold σ .flush (σ.returned e' jobs fs)
  | worked {e : Engine} {job : FlushJob} {js js' : List FlushJob} {i : ℕ} (up : σ.eng = some e)
      (split : σ.jobs = js ++ job :: js') (pos : js.length = i) :
      Stepped threshold σ (.job i) { σ with
        disk := σ.disk.run (job.step e).2.2
        eng := some (job.step e).1
        jobs := js ++ ((job.step e).2.1 ++ js') }
  | restored {e e' : Engine} {data : Bytes} {kvs : List (Bytes × Bytes)} {fs : List FsOp}
      (up : σ.eng = some e) (decoded : decodeSnapshotEntries data = some kvs)
      (run : e.restoreSnapshot data = (fs, .ok e')) :
      Stepped threshold σ (.restore data) { σ.returned e' [] fs with truth := contentOf kvs }
  | refused {e : Engine} {data : Bytes} {k : ℕ} (up : σ.eng = some e)
      (early : k ≤ ((e.restoreSnapshot data).1.take 3).length) :
      Stepped threshold σ (.restoreErr data k)
        (σ.returned e [] ((e.restoreSnapshot data).1.take k))
  | crashed {e : Engine} (up : σ.eng = some e) : Stepped threshold σ .crash (σ.died σ.disk [])
  | crashedIn {e e' : Engine} {ops : List BatchOp} {k j : ℕ} {jobs : List FlushJob} {fs : List FsOp}
      (up : σ.eng = some e) (idle : e.immutable = none)
      (run : e.applyBatch threshold ops = .ok (e', jobs, fs)) :
      Stepped threshold σ (.crashIn ops k j) (σ.died (σ.disk.cut fs k j) ops)
  | restoreCut {e : Engine} {data : Bytes} {k : ℕ} (up : σ.eng = some e) :
      Stepped threshold σ (.restoreCut data k)
        (σ.died (σ.disk.run ((e.restoreSnapshot data).1.take k)) [])

variable {threshold : ℕ} {σ σ' : Store} {a : StoreAction}

theorem idle_eq_some {e : Engine} (h : σ.idle = some e) : σ.eng = some e ∧ e.immutable = none := by
  unfold idle at h
  obtain ⟨heng, hidle⟩ := Option.filter_eq_some_iff.mp h
  exact ⟨heng, Option.isNone_iff_eq_none.mp hidle⟩

theorem step_cases (h : σ.step threshold a = some σ') : Stepped threshold σ a σ' := by
  cases a with
  | openOk =>
    simp only [step] at h
    split_ifs at h with hdown
    obtain ⟨⟨e, fs⟩, hrun, rfl⟩ := Option.map_eq_some_iff.mp h
    exact .opened (by simpa using hdown) hrun
  | openCut k j =>
    simp only [step] at h
    split_ifs at h with hdown
    obtain ⟨⟨e, fs⟩, hrun, rfl⟩ := Option.map_eq_some_iff.mp h
    exact .openCut (by simpa using hdown) hrun
  | batch ops =>
    simp only [step, Option.bind_eq_bind, Option.bind_eq_some_iff] at h
    obtain ⟨e, he, h⟩ := h
    obtain ⟨hup, hidle⟩ := idle_eq_some he
    split at h
    · cases h
    · next e' jobs fs hrun =>
      cases h
      exact .batched hup hidle hrun
  | flush =>
    simp only [step, Option.bind_eq_bind, Option.bind_eq_some_iff] at h
    obtain ⟨e, he, h⟩ := h
    obtain ⟨hup, hidle⟩ := idle_eq_some he
    split at h
    · cases h
    · next e' jobs fs hrun =>
      cases h
      exact .flushed hup hidle hrun
  | job i =>
    simp only [step, Option.bind_eq_bind, Option.bind_eq_some_iff, pure, Option.some.injEq] at h
    obtain ⟨e, hup, job, hjob, rfl⟩ := h
    obtain ⟨hi, rfl⟩ := List.getElem?_eq_some_iff.mp hjob
    refine .worked hup ?_ (List.length_take_of_le hi.le)
    rw [List.cons_getElem_drop_succ, List.take_append_drop]
  | restore data =>
    simp only [step, Option.bind_eq_bind, Option.bind_eq_some_iff] at h
    obtain ⟨e, hup, kvs, hkvs, h⟩ := h
    split at h
    · cases h
    · next fs e' hrun =>
      cases h
      exact .restored hup hkvs hrun
  | restoreErr data k =>
    simp only [step, Option.bind_eq_bind, Option.bind_eq_some_iff] at h
    obtain ⟨e, hup, h⟩ := h
    split_ifs at h with hk
    cases h
    exact .refused hup hk
  | crash =>
    simp only [step] at h
    split_ifs at h with hup
    cases h
    obtain ⟨e, he⟩ := Option.isSome_iff_exists.mp hup
    exact .crashed he
  | crashIn ops k j =>
    simp only [step, Option.bind_eq_bind, Option.bind_eq_some_iff] at h
    obtain ⟨e, he, h⟩ := h
    obtain ⟨hup, hidle⟩ := idle_eq_some he
    split at h
    · cases h
    · next e' jobs fs hrun =>
      cases h
      exact .crashedIn hup hidle hrun
  | restoreCut data k =>
    simp only [step, Option.bind_eq_bind, Option.bind_eq_some_iff, pure, Option.some.injEq] at h
    obtain ⟨e, hup, rfl⟩ := h
    exact .restoreCut hup

end Store

namespace Engine

variable {threshold : ℕ} {e e' : Engine} {ops : List BatchOp} {jobs : List FlushJob}
    {fs : List FsOp}

/-- The engine with a batch in its memtable. -/
def written (e : Engine) (ops : List BatchOp) : Engine :=
  { e with
    mem := e.mem.applyRecords (batchRecords e.nextSeq ops)
    nextSeq := e.nextSeq + UInt64.ofNat ops.length }

/-- A batch is written to the log and the memtable, and may start a flush. -/
theorem applyBatch_cases (h : e.applyBatch threshold ops = .ok (e', jobs, fs)) :
    e.flushErr = false ∧ ((ops = [] ∧ e' = e ∧ jobs = [] ∧ fs = []) ∨
    (ops ≠ [] ∧ e' = e.written ops ∧ jobs = [] ∧
      fs = [.appendWal e.w (Wal.encode (batchRecords e.nextSeq ops))]) ∨
    (ops ≠ [] ∧ e' = (e.written ops).startFlushLocked.1 ∧
      jobs = (e.written ops).startFlushLocked.2.1 ∧
        fs = .appendWal e.w (Wal.encode (batchRecords e.nextSeq ops)) ::
          (e.written ops).startFlushLocked.2.2)) := by
  unfold applyBatch at h
  by_cases herr : e.flushErr
  · rw [if_pos herr] at h
    cases h
  rw [if_neg herr] at h
  refine ⟨by simpa using herr, ?_⟩
  by_cases hops : ops = []
  · rw [if_pos hops] at h
    cases h
    exact Or.inl ⟨hops, rfl, rfl, rfl⟩
  rw [if_neg hops] at h
  dsimp only at h
  split_ifs at h
  · cases h
    exact Or.inr (Or.inr ⟨hops, rfl, rfl, rfl⟩)
  · cases h
    exact Or.inr (Or.inl ⟨hops, rfl, rfl, rfl⟩)

theorem flush_cases (h : e.flush = .ok (e', jobs, fs)) : e.flushErr = false ∧
    ((e' = e ∧ jobs = [] ∧ fs = []) ∨ (e', jobs, fs) = e.startFlushLocked) := by
  unfold flush at h
  by_cases herr : e.flushErr
  · rw [if_pos herr] at h
    cases h
  rw [if_neg herr] at h
  refine ⟨by simpa using herr, ?_⟩
  split_ifs at h
  · cases h
    exact Or.inl ⟨rfl, rfl, rfl⟩
  · exact Or.inr (Except.ok.inj h).symm

/-- A snapshot that is restored is one table, in new files, that the marker makes the first valid
ones. -/
theorem restoreSnapshot_ok {data : Bytes} (h : e.restoreSnapshot data = (fs, .ok e')) :
    e.immutable = none ∧ ∃ kvs t, decodeSnapshotEntries data = some kvs ∧
      Table.write (snapshotEntries kvs) = some t ∧
      fs = e.restoreBefore t ++ .renameMarker e.newSeq :: e.restoreAfter ∧
      e' = { e with
        sstables := [(e.newSeq, t)]
        w := e.newSeq
        mem := .empty
        nextFlushSeq := e.newSeq + 1
        nextWALSeq := e.newSeq + 1
        flushErr := false } := by
  unfold restoreSnapshot at h
  split_ifs at h with himm
  · cases h
  refine ⟨by simpa using himm, ?_⟩
  split at h
  · cases h
  · next kvs hkvs =>
    split at h
    · cases h
    · next t ht =>
      cases h
      exact ⟨kvs, t, hkvs, ht, rfl, rfl⟩

end Engine

end KvStore
