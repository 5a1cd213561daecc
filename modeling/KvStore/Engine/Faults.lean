import KvStore.Engine.FlushFailure

/-!
# A store whose file operations fail

`Store.step` has the calls that succeed, the crashes and a `RestoreSnapshot` that fails at any point
before its rename. Here the other calls may fail too, at every place where the code returns an
error.

* An append to the log fails after any bytes have reached the file; the sequence numbers of the
  batch are used up. A log whose append has failed may still take later batches here, which is more
  than the code's buffered writer lets it.
* The log for the flush that a batch starts cannot be opened: the batch is in the log and the
  memtable.
* `runFlush` fails in any of its phases, after any of the phase's file operations.
* The removals at the end of `RestoreSnapshot`, whose errors are ignored, fail at any of the files.
* A call that only returns an error leaves everything as it was.

`Store.Faulted` lists what a step can be. An `Open` that fails is `openCut`: it leaves the first of
its file operations and no engine.
-/

namespace KvStore

open Machine

/-- What happens to a store whose file operations may fail. -/
inductive FaultAction
  | step (a : StoreAction)
  /-- `ApplyBatch` returns the error of `AppendBatch`; the log's file has got the bytes. -/
  | appendFails (ops : List BatchOp) (data : Bytes)
  /-- `ApplyBatch` returns the error of `startFlushLocked`. -/
  | flushStartFails (ops : List BatchOp)
  /-- A call returns an error and has done nothing: a write or a flush after a failed flush, or a
  `Flush` whose log cannot be opened. -/
  | refused
  /-- The goroutine at the position ends with an error, after the first `k` file operations of its
  step. -/
  | jobFails (i k : ℕ)
  /-- `RestoreSnapshot` returns nil, and the removals at the positions have failed. -/
  | restoreLeaves (data : Bytes) (left : List ℕ)
  deriving DecidableEq

namespace Store

/-- The engine after an append that failed. -/
def skipped (e : Engine) (ops : List BatchOp) : Engine :=
  { e with nextSeq := e.nextSeq + UInt64.ofNat ops.length }

/-- The file operations of a `RestoreSnapshot` in which some of the removals, those after the
rename, fail. -/
def leaving (left : List ℕ) (fs : List FsOp) : List FsOp :=
  fs.take 4 ++ ((fs.drop 4).zipIdx.filter fun a => a.2 ∉ left).map Prod.fst

/-- One step. -/
def faultStep (threshold : ℕ) (σ : Store) : FaultAction → Option Store
  | .step a => σ.step threshold a
  | .appendFails ops data => do
    let e ← σ.idle
    if e.flushErr ∨ ops = [] then none
    else some (σ.returned (skipped e ops) [] [.appendWal e.w data])
  | .flushStartFails ops => do
    let e ← σ.idle
    if e.flushErr ∨ ops = [] ∨ (e.written ops).mem.approxSize < threshold then none
    else some (σ.returned (e.written ops) []
      [.appendWal e.w (Wal.encode (batchRecords e.nextSeq ops))])
  | .refused => if σ.eng.isSome then some σ else none
  | .jobFails i k => do
    let e ← σ.eng
    let job ← σ.jobs[i]?
    return { σ with
      disk := σ.disk.run ((job.step e).2.2.take k)
      eng := some (job.fail e)
      jobs := σ.jobs.take i ++ σ.jobs.drop (i + 1) }
  | .restoreLeaves data left => do
    let e ← σ.eng
    let kvs ← decodeSnapshotEntries data
    match e.restoreSnapshot data with
    | (_, .error _) => none
    | (fs, .ok e) => some { σ.returned e [] (leaving left fs) with truth := contentOf kvs }

/-- The store that the run leads to, from an empty directory. -/
abbrev FaultRuns (threshold : ℕ) (as : List FaultAction) (σ : Store) : Prop :=
  exec (faultStep threshold) {} as = some σ

/-- What a step can be. -/
inductive Faulted (threshold : ℕ) (σ : Store) : FaultAction → Store → Prop
  | stepped {a : StoreAction} {σ' : Store} (run : Stepped threshold σ a σ') :
      Faulted threshold σ (.step a) σ'
  | appendFailed {e : Engine} {ops : List BatchOp} {data : Bytes} (up : σ.eng = some e) :
      Faulted threshold σ (.appendFails ops data)
    (σ.returned (skipped e ops) [] [.appendWal e.w data])
  | flushStartFailed {e : Engine} {ops : List BatchOp} (up : σ.eng = some e) :
      Faulted threshold σ (.flushStartFails ops)
        (σ.returned (e.written ops) [] [.appendWal e.w (Wal.encode (batchRecords e.nextSeq ops))])
  | refused : Faulted threshold σ .refused σ
  | jobFailed {e : Engine} {job : FlushJob} {js js' : List FlushJob} {i k : ℕ} (up : σ.eng = some e)
      (split : σ.jobs = js ++ job :: js') : Faulted threshold σ (.jobFails i k) { σ with
        disk := σ.disk.run ((job.step e).2.2.take k)
        eng := some (job.fail e)
        jobs := js ++ js' }
  | restored {e e' : Engine} {data : Bytes} {kvs : List (Bytes × Bytes)} {fs : List FsOp}
      {left : List ℕ} (up : σ.eng = some e) (run : e.restoreSnapshot data = (fs, .ok e')) :
      Faulted threshold σ (.restoreLeaves data left)
        { σ.returned e' [] (leaving left fs) with truth := contentOf kvs }

theorem faultStep_cases {threshold : ℕ} {σ σ' : Store} {a : FaultAction}
    (h : σ.faultStep threshold a = some σ') : Faulted threshold σ a σ' := by
  cases a with
  | step a => exact .stepped (step_cases h)
  | appendFails ops data =>
    obtain ⟨e, he, h⟩ := Option.bind_eq_some_iff.mp h
    split_ifs at h
    cases h
    exact .appendFailed (idle_eq_some he).1
  | flushStartFails ops =>
    obtain ⟨e, he, h⟩ := Option.bind_eq_some_iff.mp h
    split_ifs at h
    cases h
    exact .flushStartFailed (idle_eq_some he).1
  | refused =>
    simp only [faultStep] at h
    split_ifs at h
    cases h
    exact .refused
  | jobFails i k =>
    obtain ⟨e, hup, h⟩ := Option.bind_eq_some_iff.mp h
    obtain ⟨job, hjob, h⟩ := Option.bind_eq_some_iff.mp h
    cases h
    obtain ⟨hi, rfl⟩ := List.getElem?_eq_some_iff.mp hjob
    refine .jobFailed hup ?_
    rw [List.cons_getElem_drop_succ, List.take_append_drop]
  | restoreLeaves data left =>
    obtain ⟨e, hup, h⟩ := Option.bind_eq_some_iff.mp h
    obtain ⟨kvs, hkvs, h⟩ := Option.bind_eq_some_iff.mp h
    split at h
    · cases h
    · next hrun =>
      cases h
      exact .restored hup hrun

end Store

end KvStore
