import KvStore.Engine.MapRefinement
import KvStore.Wal.Append

/-!
# Where `ApplyBatch` can fail

`ApplyBatch` can return an error at four places: the engine is closed while it waits for a flush, an
earlier flush has failed, the batch cannot be appended to the log, and the log for the flush that
the batch starts cannot be opened. At the last one the batch is in the log and in the memtable
already.

* `LiveEngine`: an engine with its open log, how the next `openWAL` calls end, and whether it is
  closed.
* `waitForAnyFlush`: the wait, after which the engine is what other goroutines have made of it.
* `LiveEngine.applyBatch`: the whole call. Where nothing fails, `applyLocked_ok` says that it does
  to the engine what `Engine.applyBatch` does.
* `applyBatch_honest_iff`: a call's result tells what it did unless the batch changes the content,
  starts a flush, and the log for it cannot be opened.
* `failed_apply_is_visible`: such a batch.
-/

namespace KvStore

open Layered

/-- An engine that is open, with what its calls depend on outside of it. -/
structure LiveEngine where
  eng : Engine
  /-- The log that `e.w` is a handle of. -/
  log : Wal.Log
  /-- The logs that the next `openWAL` calls return; `none` is an error. -/
  opens : List (Option Wal.Log) := []
  closed : Bool := false

namespace LiveEngine

/-- `Get`, for every key; `none` is its error on a closed engine. -/
def get (l : LiveEngine) : Option Content := if l.closed then none else some l.eng.get

/-- A log that was just created and does not fail. -/
def newLog : Wal.Log := Wal.openLog [] 4096 true [] [] false

/-- `startFlushLocked` with the `openWAL` call at its start. -/
def startFlush (l : LiveEngine) : Option EngineError × LiveEngine :=
  match l.opens with
  | none :: opens => (some .flushStart, { l with opens := opens })
  | some log :: opens =>
    (none, { l with eng := l.eng.startFlushLocked.1, log := log, opens := opens })
  | [] => (none, { l with eng := l.eng.startFlushLocked.1, log := newLog })

/-- `ApplyBatch` from where it no longer waits. -/
def applyLocked (threshold : ℕ) (l : LiveEngine) (ops : List BatchOp) :
    Option EngineError × LiveEngine :=
  if l.eng.flushErr then (some .flushFailed, l)
  else if ops = [] then (none, l)
  else
    match l.log.appendBatch (batchRecords l.eng.nextSeq ops) with
    | (some _, log) =>
      -- the sequence numbers are used up
      (some .walAppend,
        { l with eng := { l.eng with nextSeq := l.eng.nextSeq + UInt64.ofNat ops.length },
                 log := log })
    | (none, log) =>
      let l := { l with eng := l.eng.written ops, log := log }
      if threshold ≤ l.eng.mem.approxSize then l.startFlush else (none, l)

/-- `waitForAnyFlushLocked`. Every time the lock is taken again the engine is the next one of
`found`; with `false` it is closed. There is no value as long as the call waits. -/
def waitForAnyFlush (l : LiveEngine) : List LiveEngine → Option (Bool × LiveEngine)
  | [] => if l.eng.immutable.isNone then some (true, l) else none
  | l' :: found =>
    if l.eng.immutable.isNone then some (true, l)
    else if l'.closed then some (false, l')
    else waitForAnyFlush l' found

/-- `ApplyBatch`. -/
def applyBatch (threshold : ℕ) (l : LiveEngine) (found : List LiveEngine) (ops : List BatchOp) :
    Option (Option EngineError × LiveEngine) :=
  (l.waitForAnyFlush found).map fun w =>
    if w.1 then w.2.applyLocked threshold ops else (some .closed, w.2)

/-! ## What a call does -/

section

variable {threshold : ℕ} {l l' : LiveEngine} {found : List LiveEngine} {ops : List BatchOp}
  {err : Option EngineError}

theorem waitForAnyFlush_idle (h : l.waitForAnyFlush found = some (true, l')) :
    l'.eng.immutable = none := by
  induction found generalizing l with
  | nil =>
    unfold waitForAnyFlush at h
    split_ifs at h with himm
    obtain ⟨-, rfl⟩ := Prod.mk.inj (Option.some.inj h)
    exact Option.isNone_iff_eq_none.mp himm
  | cons l₁ found ih =>
    unfold waitForAnyFlush at h
    split_ifs at h with himm hclosed
    · obtain ⟨-, rfl⟩ := Prod.mk.inj (Option.some.inj h)
      exact Option.isNone_iff_eq_none.mp himm
    · exact absurd (Prod.mk.inj (Option.some.inj h)).1 nofun
    · exact ih h

/-- The batch is in the log and the memtable, and the flush it starts cannot begin. -/
structure Misreports (threshold : ℕ) (l : LiveEngine) (ops : List BatchOp) : Prop where
  healthy : l.eng.flushErr = false
  nonempty : ops ≠ []
  appends : (l.log.appendBatch (batchRecords l.eng.nextSeq ops)).1 = none
  full : threshold ≤ (l.eng.written ops).mem.approxSize
  refused : l.opens.head? = some none

/-- What the locked part of a call can do. -/
inductive Applied (threshold : ℕ) (l : LiveEngine) (ops : List BatchOp) :
    Option EngineError → LiveEngine → Prop
  /-- The call has done what it was asked for. -/
  | ok {l' : LiveEngine} (hclosed : l'.closed = l.closed)
      (hget : l'.eng.get = applyOps l.eng.get ops) (hnot : ¬l.Misreports threshold ops) :
      Applied threshold l ops none l'
  /-- Nothing has happened to the tables. -/
  | refused {e : EngineError} {l' : LiveEngine} (hclosed : l'.closed = l.closed)
      (hget : l'.eng.get = l.eng.get) (hnot : ¬l.Misreports threshold ops) :
      Applied threshold l ops (some e) l'
  /-- The batch is there, and the call returns an error. -/
  | misreported {e : EngineError} {l' : LiveEngine} (hclosed : l'.closed = l.closed)
      (hget : l'.eng.get = applyOps l.eng.get ops) (h : l.Misreports threshold ops) :
      Applied threshold l ops (some e) l'

theorem startFlush_cases (himm : l.eng.immutable = none) :
    (l.startFlush.1 = none ∧ l.startFlush.2.closed = l.closed ∧ l.startFlush.2.eng.get = l.eng.get ∧
      l.opens.head? ≠ some none) ∨
    (∃ opens, l.startFlush = (some .flushStart, { l with opens := opens }) ∧
      l.opens.head? = some none) := by
  unfold startFlush
  match l.opens with
  | none :: opens => exact .inr ⟨opens, rfl, rfl⟩
  | some log :: opens => exact .inl ⟨rfl, rfl, l.eng.get_startFlushLocked himm, nofun⟩
  | [] => exact .inl ⟨rfl, rfl, l.eng.get_startFlushLocked himm, nofun⟩

theorem startFlush_eng (h : l.startFlush.1 = none) :
    l.startFlush.2.eng = l.eng.startFlushLocked.1 := by
  unfold startFlush at h ⊢
  match l.opens, h with
  | some _ :: _, _ | [], _ => rfl

theorem applyLocked_cases (threshold : ℕ) (ops : List BatchOp) (himm : l.eng.immutable = none) :
    Applied threshold l ops (l.applyLocked threshold ops).1 (l.applyLocked threshold ops).2 := by
  unfold applyLocked
  by_cases herr : l.eng.flushErr
  · rw [if_pos herr]
    exact .refused rfl rfl fun h => by simp [h.healthy] at herr
  rw [if_neg herr]
  by_cases hops : ops = []
  · rw [if_pos hops]
    exact .ok rfl (by rw [hops]; rfl) fun h => h.nonempty hops
  rw [if_neg hops]
  cases happ : l.log.appendBatch (batchRecords l.eng.nextSeq ops) with
  | mk aerr log =>
  cases aerr with
  | some aerr => exact .refused rfl rfl fun h => by simpa [happ] using h.appends
  | none =>
    dsimp only
    have hget := l.eng.get_written ops
    split_ifs with hfull
    · rcases startFlush_cases (l := { l with eng := l.eng.written ops, log := log }) himm with
        ⟨hnone, hclosed, hsame, hopens⟩ | ⟨opens, hstart, hrefused⟩
      · rw [hnone]
        exact .ok hclosed (hsame.trans hget) fun h => hopens h.refused
      · rw [hstart]
        exact .misreported rfl hget ⟨by simpa using herr, hops, by rw [happ], hfull, hrefused⟩
    · exact .ok rfl hget fun h => hfull h.full

/-- Where nothing fails the engine becomes what `Engine.applyBatch` says. -/
theorem applyLocked_ok (h : (l.applyLocked threshold ops).1 = none) :
    ∃ jobs fs, l.eng.applyBatch threshold ops =
      .ok ((l.applyLocked threshold ops).2.eng, jobs, fs) := by
  unfold applyLocked at h ⊢
  unfold Engine.applyBatch
  by_cases herr : l.eng.flushErr
  · rw [if_pos herr] at h
    cases h
  simp only [if_neg herr] at h ⊢
  by_cases hops : ops = []
  · simp only [if_pos hops]
    exact ⟨[], [], rfl⟩
  simp only [if_neg hops] at h ⊢
  cases happ : l.log.appendBatch (batchRecords l.eng.nextSeq ops) with
  | mk aerr log =>
  rw [happ] at h
  cases aerr with
  | some aerr => cases h
  | none =>
    dsimp only at h ⊢
    by_cases hfull : threshold ≤ (l.eng.written ops).mem.approxSize
    · rw [if_pos hfull] at h ⊢
      rw [startFlush_eng h]
      exact ⟨_, _, if_pos hfull⟩
    · rw [if_neg hfull] at h ⊢
      exact ⟨_, _, if_neg hfull⟩

theorem get_of_eng (hclosed : l'.closed = l.closed) {f : Content → Content}
    (h : l'.eng.get = f l.eng.get) : l'.get = l.get.map f := by
  unfold LiveEngine.get
  rw [hclosed, h]
  split_ifs <;> rfl

/-- A call that returns nil has applied its batch to what was there when it no longer waited. -/
theorem applyLocked_get (himm : l.eng.immutable = none)
    (h : (l.applyLocked threshold ops).1 = none) :
    (l.applyLocked threshold ops).2.get = l.get.map (applyOps · ops) := by
  have hcases := applyLocked_cases threshold ops himm
  rw [h] at hcases
  cases hcases with
  | ok hclosed hget hnot => exact get_of_eng hclosed hget

/-- A call that does not wait. -/
theorem applyBatch_nil_get (h : l.applyBatch threshold [] ops = some (none, l')) :
    l'.get = l.get.map (applyOps · ops) := by
  obtain ⟨⟨ok, l₀⟩, hwait, hcall⟩ := Option.map_eq_some_iff.mp h
  unfold waitForAnyFlush at hwait
  split_ifs at hwait with himm
  obtain ⟨rfl, rfl⟩ := Prod.mk.inj (Option.some.inj hwait)
  rw [if_pos rfl] at hcall
  have hget := applyLocked_get (Option.isNone_iff_eq_none.mp himm) (congrArg Prod.fst hcall)
  rwa [hcall] at hget

/-- The result of a call tells what it did to the engine: its batch is visible if it returned nil,
and nothing has changed if it returned an error, neither for reads nor for a batch that is applied
next. -/
structure Honest (threshold : ℕ) (ops : List BatchOp) (before : LiveEngine)
    (err : Option EngineError) (after : LiveEngine) : Prop where
  ok : err = none → after.get = before.get.map (applyOps · ops)
  failed : err ≠ none → after.get = before.get
  next : err ≠ none → ∀ ops' after', after.applyBatch threshold [] ops' = some (none, after') →
    after'.get = before.get.map (applyOps · ops')

theorem Honest.of_unchanged {e : EngineError} (h : l'.get = l.get) :
    Honest threshold ops l (some e) l' :=
  ⟨nofun, fun _ => h, fun _ _ _ hnext => by rw [applyBatch_nil_get hnext, h]⟩

/-- **A call's result tells what it did if and only if it does not come to open the log for a flush
in vain**, with a batch that changes the content. `w` is what the call finds when it no longer
waits. -/
theorem applyBatch_honest_iff (threshold : ℕ) (l l' : LiveEngine) (found : List LiveEngine)
    (ops : List BatchOp) (err : Option EngineError) (w : Bool × LiveEngine)
    (hwait : l.waitForAnyFlush found = some w)
    (hcall : l.applyBatch threshold found ops = some (err, l')) : Honest threshold ops w.2 err l' ↔
      ¬(w.1 = true ∧ w.2.closed = false ∧ w.2.Misreports threshold ops ∧
        applyOps w.2.eng.get ops ≠ w.2.eng.get) := by
  obtain ⟨ok, l₀⟩ := w
  unfold applyBatch at hcall
  rw [hwait, Option.map_some] at hcall
  cases ok with
  | false =>
    obtain ⟨rfl, rfl⟩ := Prod.mk.inj (Option.some.inj hcall)
    exact iff_of_true (.of_unchanged rfl) (by simp)
  | true =>
    have hcases := applyLocked_cases threshold ops (waitForAnyFlush_idle hwait)
    have hlocked : l₀.applyLocked threshold ops = (err, l') := Option.some.inj hcall
    rw [hlocked] at hcases
    dsimp only at hcases ⊢
    cases hcases with
    | ok hclosed hget hnot =>
      exact iff_of_true ⟨fun _ => get_of_eng hclosed hget, fun h => absurd rfl h, fun h =>
        absurd rfl h⟩ fun h => hnot h.2.2.1
    | refused hclosed hget hnot =>
      refine iff_of_true (.of_unchanged ?_) fun h => hnot h.2.2.1
      unfold LiveEngine.get
      rw [hclosed, hget]
    | misreported hclosed hget h =>
      by_cases hcl : l₀.closed
      · refine iff_of_true (.of_unchanged ?_) fun h => by simp [hcl] at h
        unfold LiveEngine.get
        rw [hclosed, if_pos hcl, if_pos hcl]
      have hopen : l₀.closed = false := by simpa using hcl
      have hsame : l'.get = l₀.get ↔ applyOps l₀.eng.get ops = l₀.eng.get := by
        unfold LiveEngine.get
        rw [hclosed, hopen, hget]
        exact Option.some_inj
      constructor
      · rintro hon ⟨-, -, -, hne⟩
        exact hne (hsame.mp (hon.failed nofun))
      · intro hnot
        refine .of_unchanged (hsame.mpr ?_)
        by_contra hne
        exact hnot ⟨rfl, hopen, h, hne⟩

end

/-- An engine on an empty directory, where the next log cannot be opened. -/
def withoutNextLog : LiveEngine := { eng := newEngine, log := newLog, opens := [none] }

/-- A batch that does not fill the memtable. -/
theorem applyBatch_honest_iff_small : ∃ l',
    withoutNextLog.applyBatch 4096 [] [⟨[107], [118], false⟩] = some (none, l') ∧
    Honest 4096 [⟨[107], [118], false⟩] withoutNextLog none l' := by
  have hrun : ((withoutNextLog.applyBatch 4096 [] [⟨[107], [118], false⟩]).map fun r => r.1) =
      some none := by
    decide +kernel
  obtain ⟨⟨err, l'⟩, h, rfl⟩ := Option.map_eq_some_iff.mp hrun
  refine ⟨l', h,
    (applyBatch_honest_iff 4096 withoutNextLog l' [] _ none (true, withoutNextLog) rfl h).mpr ?_⟩
  rintro ⟨-, -, hmis, -⟩
  exact absurd hmis.full (by decide +kernel)

/-- **A batch that was reported as failed is visible.** The log and the memtable take the batch, it
fills the memtable, and the log for the flush cannot be opened. -/
theorem failed_apply_is_visible : ∃ l', withoutNextLog.applyBatch 10 [] [⟨[107], [118], false⟩] =
      some (some .flushStart, l') ∧
    withoutNextLog.get.map (· [107]) = some none ∧ l'.get.map (· [107]) = some (some [118]) := by
  have hrun : ((withoutNextLog.applyBatch 10 [] [⟨[107], [118], false⟩]).map fun r =>
      decide (r.1 = some .flushStart ∧ withoutNextLog.get.map (· [107]) = some none ∧
        r.2.get.map (· [107]) = some (some [118]))) = some true := by decide +kernel
  obtain ⟨⟨err, l'⟩, h, hrun⟩ := Option.map_eq_some_iff.mp hrun
  obtain ⟨rfl, hall⟩ := of_decide_eq_true hrun
  exact ⟨l', h, hall⟩

end LiveEngine

end KvStore
