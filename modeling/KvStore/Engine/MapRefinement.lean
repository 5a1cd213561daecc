import KvStore.Engine.Recovery
import KvStore.Engine.System

/-!
# The engine as a map

A running engine shows the map that the acknowledged operations make, whatever the flushes do
meanwhile.

* `StoreAction.acked`: the map's own step. Only writes and restores change it.
* `Tracks`: the frozen memtable belongs to the one goroutine that still has to install its table,
  and this table is going to be newer than the installed ones.
* `Store.Stepped.refines`: a step of the store is a step of the map.
* `engine_refines_map`: so is a run.

Nothing here is about files.
-/

namespace KvStore

open Layered Machine

/-! ## Content -/

namespace Engine

variable (e : Engine)

theorem get_written (ops : List BatchOp) : (e.written ops).get = applyOps e.get ops := by
  rw [get_eq, e.get_eq, ← resolve_batch e.nextSeq, ← atop_assoc (recordsLayer _),
    ← Table.layer_applyRecords]
  rfl

/-- A frozen memtable answers in the place of the one it was. -/
theorem get_startFlushLocked (h : e.immutable = none) : e.startFlushLocked.1.get = e.get := by
  rw [get_eq, e.get_eq, h]
  exact congrArg resolve (congrArg (atop · _) (atop_void _))

end Engine

/-- The goroutine still has to install its table. -/
def FlushJob.busy (job : FlushJob) : Bool := job.phase ≠ .remove

/-- A flush moves a table to another place in the order of reading, where nothing comes between. -/
theorem FlushJob.get_step {e : Engine} {job : FlushJob}
    (h : job.busy → e.immutable = some job.frozen) : (job.step e).1.get = e.get := by
  unfold FlushJob.step
  cases hphase : job.phase with
  | create => rfl
  | finish =>
    rw [show Table.write job.frozen.entries = some job.frozen from SortedMap.ofList_entries _]
  | install =>
    have himm := h (by rw [FlushJob.busy, hphase]; rfl)
    rw [Engine.get_eq, e.get_eq, himm]
    refine congrArg resolve (congrArg (atop e.mem.layer) ?_)
    exact (congrArg (atop · _) (atop_void job.frozen.layer)).symm
  | remove => rfl

namespace Engine

theorem mem_snapshotEntries {kvs : List (Bytes × Bytes)} {k v : Bytes} :
    (∃ en : Entry, (k, en) ∈ snapshotEntries kvs ∧ en.found = some v) ↔ (k, v) ∈ kvs := by
  unfold snapshotEntries
  rw [← (List.mergeSort_perm kvs fun a b => a.1 ≤ b.1).mem_iff]
  constructor
  · rintro ⟨en, hen, hv⟩
    obtain ⟨⟨⟨k', v'⟩, i⟩, ha, heq⟩ := List.mem_map.mp hen
    cases heq
    cases hv
    exact List.fst_mem_of_mem_zipIdx ha
  · intro hkv
    rw [← List.zipIdx_map_fst 1 (kvs.mergeSort _)] at hkv
    obtain ⟨⟨a, i⟩, ha, rfl⟩ := List.mem_map.mp hkv
    exact ⟨_, List.mem_map.mpr ⟨_, ha, rfl⟩, rfl⟩

/-- What holds of all pairs of a snapshot holds of its table. -/
theorem forall_layer_snapshot {kvs : List (Bytes × Bytes)} {t : Table}
    (h : Table.write (snapshotEntries kvs) = some t) (P : Bytes → Option Bytes → Prop) :
    (∀ k v, t.layer k = some v → P k v) ↔ ∀ kv ∈ kvs, P kv.1 (some kv.2) := by
  have hentries : t.entries = snapshotEntries kvs := SortedMap.entries_of_ofList h
  have hlayer : ∀ k v, t.layer k = some v ↔ ∃ en, (k, en) ∈ snapshotEntries kvs ∧ en.found = v := by
    intro k v
    simp only [Table.layer, Option.map_eq_some_iff, ← SortedMap.mem_entries, hentries]
  constructor
  · rintro hall ⟨k, x⟩ hkv
    exact hall k (some x) ((hlayer k (some x)).mpr (mem_snapshotEntries.mpr hkv))
  · intro hall k v hv
    obtain ⟨en, hen, rfl⟩ := (hlayer k v).mp hv
    have hfound : en.found = some en.value := by
      obtain ⟨a, -, heq⟩ := List.mem_map.mp hen
      cases heq
      rfl
    rw [hfound]
    exact hall (k, en.value) (mem_snapshotEntries.mp ⟨en, hen, hfound⟩)

/-- A snapshot's table says what the snapshot says. -/
theorem resolve_snapshot {kvs : List (Bytes × Bytes)} {t : Table}
    (h : Table.write (snapshotEntries kvs) = some t) : resolve t.layer = contentOf kvs := by
  have hentries : t.entries = snapshotEntries kvs := SortedMap.entries_of_ofList h
  -- the table has no repeated keys, and so neither have the pairs
  have hkeys : (t.entries.map Prod.fst) = (kvs.mergeSort fun a b => a.1 ≤ b.1).map Prod.fst := by
    rw [hentries, snapshotEntries, List.map_map]
    exact (List.map_map (f := Prod.fst) (g := Prod.fst)).symm.trans (by rw [List.zipIdx_map_fst])
  have hne : kvs.Pairwise (fun a b => a.1 ≠ b.1) := by
    refine List.Pairwise.perm ?_ (List.mergeSort_perm kvs fun a b => a.1 ≤ b.1) fun hab => hab.symm
    rw [← List.pairwise_map (R := (· ≠ ·)), ← hkeys, List.pairwise_map]
    exact t.sorted.imp fun hab => hab.ne
  funext k
  apply Option.ext
  intro v
  unfold contentOf
  rw [← SortedMap.mem_iff_lookup hne, ← mem_snapshotEntries, ← hentries]
  simp only [resolve, Table.layer, Option.join_eq_some_iff, Option.map_eq_some_iff,
    SortedMap.mem_entries]

end Engine

/-! ## The map -/

/-- What happens to a running engine. -/
def StoreAction.Live : StoreAction → Prop
  | .batch _ | .flush | .job _ | .restore _ | .restoreErr _ _ => True
  | _ => False

/-- What an acknowledged operation does to the map. -/
def StoreAction.acked (c : Content) : StoreAction → Content
  | .batch ops => applyOps c ops
  | .restore data => ((decodeSnapshotEntries data).map contentOf).getD c
  | _ => c

/-- The engine and its goroutines. -/
structure Tracks (e : Engine) (jobs : List FlushJob) : Prop where
  /-- The frozen memtable is the one that a goroutine still has to install. -/
  frozen : (jobs.filter FlushJob.busy).map FlushJob.frozen = e.immutable.toList
  newest : e.sstables.Pairwise fun a b => b.1 < a.1
  below : ∀ a ∈ e.sstables, a.1 < e.nextFlushSeq
  next : ∀ j ∈ jobs, j.busy → j.flushSeq < e.nextFlushSeq ∧ ∀ a ∈ e.sstables, a.1 < j.flushSeq

namespace Tracks

variable {e : Engine} {jobs js js' : List FlushJob} {job : FlushJob}

theorem opened {d : Dir} {fs : List FsOp} (h : Opened d e fs) : Tracks e [] := by
  have hrev : d.validSsts.reverse.Pairwise (fun a b => b.1 < a.1) :=
    List.pairwise_reverse.mpr (SortedMap.within_sorted _ _)
  rw [h.ssts_eq, List.pairwise_map] at hrev
  refine ⟨by rw [h.immutable_eq]; rfl, hrev, fun a ha => ?_, fun j hj => absurd hj List.not_mem_nil⟩
  have hmem : (a.1, some a.2) ∈ d.validSsts := by
    rw [← List.mem_reverse, h.ssts_eq]
    exact List.mem_map_of_mem ha
  rw [h.nextFlushSeq_eq]
  exact Dir.lt_nextNumber hmem

theorem append_nil (h : Tracks e jobs) : Tracks e (jobs ++ []) := by rwa [List.append_nil]

theorem written (h : Tracks e jobs) (ops : List BatchOp) : Tracks (e.written ops) jobs :=
  ⟨h.frozen, h.newest, h.below, h.next⟩

theorem startFlush (h : Tracks e jobs) (himm : e.immutable = none) :
    Tracks e.startFlushLocked.1 (jobs ++ e.startFlushLocked.2.1) := by
  have hidle := h.frozen
  rw [himm] at hidle
  refine ⟨?_, h.newest, fun a ha => Nat.lt_succ_of_lt (h.below a ha), fun j hj hbusy => ?_⟩
  · rw [List.filter_append, List.map_append, hidle]
    rfl
  · rcases List.mem_append.mp hj with hj | hj
    · obtain ⟨hlt, hbelow⟩ := h.next j hj hbusy
      exact ⟨Nat.lt_succ_of_lt hlt, hbelow⟩
    · cases List.mem_singleton.mp hj
      exact ⟨Nat.lt_succ_self _, h.below⟩

/-- A goroutine that is not done is the only one, and has the frozen memtable. -/
theorem busy (h : Tracks e (js ++ job :: js')) (hbusy : job.busy) :
    e.immutable = some job.frozen ∧ js.filter FlushJob.busy = [] ∧
      js'.filter FlushJob.busy = [] := by
  have hfrozen := h.frozen
  rw [List.filter_append, List.filter_cons_of_pos hbusy, List.map_append, List.map_cons] at hfrozen
  cases himm : e.immutable with
  | none =>
    rw [himm] at hfrozen
    exact absurd hfrozen (by simp)
  | some t =>
    rw [himm, Option.toList_some, List.append_eq_singleton_iff] at hfrozen
    rcases hfrozen with ⟨hjs, hrest⟩ | ⟨-, hrest⟩
    · obtain ⟨rfl, hjs'⟩ := List.cons.inj hrest
      exact ⟨rfl, List.map_eq_nil_iff.mp hjs, List.map_eq_nil_iff.mp hjs'⟩
    · cases hrest

/-- A goroutine goes on, in the same kind of state. -/
theorem replace (h : Tracks e (js ++ job :: js')) {job' : FlushJob} (hbusy : job'.busy = job.busy)
    (hfrozen : job'.frozen = job.frozen) (hseq : job'.flushSeq = job.flushSeq) :
    Tracks e (js ++ job' :: js') := by
  refine ⟨?_, h.newest, h.below, fun j hj hb => ?_⟩
  · rw [← h.frozen, List.filter_append, List.filter_append, List.filter_cons,
      List.filter_cons, hbusy]
    split_ifs
    · simp only [List.map_append, List.map_cons, hfrozen]
    · rfl
  · rcases List.mem_append.mp hj with hj | hj
    · exact h.next j (List.mem_append_left _ hj) hb
    · rcases List.mem_cons.mp hj with rfl | hj
      · rw [hseq]
        exact h.next job (by simp) (hbusy ▸ hb)
      · exact h.next j (by simp [hj]) hb

theorem install (h : Tracks e (js ++ job :: js')) (hbusy : job.busy) {job' : FlushJob}
    (hdone : job'.busy = false) :
    Tracks { e with sstables := (job.flushSeq, job.frozen) :: e.sstables, immutable := none }
      (js ++ job' :: js') := by
  obtain ⟨-, hjs, hjs'⟩ := h.busy hbusy
  obtain ⟨hlt, hbelow⟩ := h.next job (by simp) hbusy
  have hidle : (js ++ job' :: js').filter FlushJob.busy = [] := by
    rw [List.filter_append, List.filter_cons_of_neg (by rw [hdone]; exact Bool.false_ne_true),
      hjs, hjs', List.append_nil]
  refine ⟨by rw [hidle]; rfl, List.pairwise_cons.mpr ⟨hbelow, h.newest⟩,
    List.forall_mem_cons.mpr ⟨hlt, h.below⟩, fun j hj hb => ?_⟩
  have hmem := List.mem_filter.mpr ⟨hj, hb⟩
  rw [hidle] at hmem
  cases hmem

theorem remove (h : Tracks e (js ++ job :: js')) (hdone : job.busy = false) :
    Tracks e (js ++ js') := by
  refine ⟨?_, h.newest, h.below, fun j hj => h.next j ?_⟩
  · rw [← h.frozen, List.filter_append, List.filter_append,
      List.filter_cons_of_neg (by rw [hdone]; exact Bool.false_ne_true)]
  · rcases List.mem_append.mp hj with hj | hj
    · exact List.mem_append_left _ hj
    · exact List.mem_append_right _ (List.mem_cons_of_mem _ hj)

theorem worked (h : Tracks e (js ++ job :: js')) :
    Tracks (job.step e).1 (js ++ ((job.step e).2.1 ++ js')) := by
  unfold FlushJob.step
  cases hphase : job.phase with
  | create => exact h.replace (by simp [FlushJob.busy, hphase]) rfl rfl
  | finish =>
    rw [show Table.write job.frozen.entries = some job.frozen from SortedMap.ofList_entries _]
    exact h.replace (by simp [FlushJob.busy, hphase]) rfl rfl
  | install => exact h.install (by simp [FlushJob.busy, hphase]) (by simp [FlushJob.busy])
  | remove => exact h.remove (by simp [FlushJob.busy, hphase])

theorem restored (h : Tracks e jobs) {e' : Engine} {data : Bytes} {fs : List FsOp}
    (hrun : e.restoreSnapshot data = (fs, .ok e')) : Tracks e' jobs := by
  obtain ⟨himm, kvs, t, -, -, -, rfl⟩ := Engine.restoreSnapshot_ok hrun
  have hidle := h.frozen
  rw [himm] at hidle
  refine ⟨by rw [hidle, himm], List.pairwise_singleton _ _, ?_, fun j hj hb => ?_⟩
  · exact List.forall_mem_singleton.mpr (Nat.lt_succ_self _)
  · have hmem := List.mem_filter.mpr ⟨hj, hb⟩
    rw [List.map_eq_nil_iff.mp hidle] at hmem
    cases hmem

end Tracks

/-! ## Refinement -/

/-- **A step of the store is a step of the map.** -/
theorem Store.Stepped.refines {threshold : ℕ} {σ σ' : Store} {a : StoreAction} {e : Engine}
    (h : Stepped threshold σ a σ') (hlive : a.Live) (hup : σ.eng = some e)
    (htracks : Tracks e σ.jobs) : ∃ e', σ'.eng = some e' ∧ Tracks e' σ'.jobs ∧
      e'.get = a.acked e.get := by
  cases h with
  | opened | openCut | crashed | crashedIn | restoreCut => cases hlive
  | @batched e₀ e' ops jobs fs up idle run =>
    cases hup.symm.trans up
    refine ⟨e', rfl, ?_⟩
    obtain ⟨-, ⟨rfl, rfl, rfl, rfl⟩ | ⟨-, rfl, rfl, rfl⟩ | ⟨-, rfl, rfl, rfl⟩⟩ :=
      Engine.applyBatch_cases run
    · exact ⟨htracks.append_nil, rfl⟩
    · exact ⟨(htracks.written ops).append_nil, e.get_written ops⟩
    · exact ⟨(htracks.written ops).startFlush idle,
        ((e.written ops).get_startFlushLocked idle).trans (e.get_written ops)⟩
  | @flushed e₀ e' jobs fs up idle run =>
    cases hup.symm.trans up
    refine ⟨e', rfl, ?_⟩
    obtain ⟨-, ⟨rfl, rfl, rfl⟩ | hstart⟩ := Engine.flush_cases run
    · exact ⟨htracks.append_nil, rfl⟩
    · cases hstart
      exact ⟨htracks.startFlush idle, Engine.get_startFlushLocked e idle⟩
  | @worked e₀ job js js' i up split pos =>
    cases hup.symm.trans up
    rw [split] at htracks
    exact ⟨_, rfl, htracks.worked, FlushJob.get_step fun hbusy => (htracks.busy hbusy).1⟩
  | @restored e₀ e' data kvs fs up decoded run =>
    cases hup.symm.trans up
    refine ⟨e', rfl, (htracks.restored run).append_nil, ?_⟩
    obtain ⟨himm, kvs', t, hkvs', ht, -, rfl⟩ := Engine.restoreSnapshot_ok run
    cases decoded.symm.trans hkvs'
    simp only [StoreAction.acked, decoded, Option.map_some, Option.getD_some]
    rw [Engine.get_eq, himm, ← Engine.resolve_snapshot ht]
    exact congrArg resolve (atop_void t.layer)
  | refused up =>
    cases hup.symm.trans up
    exact ⟨e, rfl, htracks.append_nil, rfl⟩

/-- The engine shows what was acknowledged. -/
def Store.Current (σ : Store) : Prop := ∀ e, σ.eng = some e → Tracks e σ.jobs ∧ e.get = σ.truth

theorem Store.current_init : Current {} := by
  rintro e ⟨⟩

theorem Store.Stepped.current {threshold : ℕ} {σ σ' : Store} {a : StoreAction}
    (h : Stepped threshold σ a σ') (hc : σ.Current) : σ'.Current := by
  have hlive : ∀ e, σ.eng = some e → a.Live → σ'.truth = a.acked σ.truth → σ'.Current := by
    intro e hup hlive htruth e' he'
    obtain ⟨htracks, hget⟩ := hc e hup
    obtain ⟨e₁, hup₁, htracks₁, hget₁⟩ := h.refines hlive hup htracks
    cases hup₁.symm.trans he'
    exact ⟨htracks₁, by rw [hget₁, hget, htruth]⟩
  cases h with
  | @opened e fs _ run =>
    rintro e' ⟨⟩
    exact ⟨.opened (KvStore.opened run), rfl⟩
  | openCut | crashed | crashedIn | restoreCut => rintro e' ⟨⟩
  | batched up | flushed up | worked up | refused up => exact hlive _ up trivial rfl
  | restored up decoded =>
    exact hlive _ up trivial
      (by simp only [StoreAction.acked, decoded, Option.map_some, Option.getD_some])

/-- So is a run. -/
theorem Store.exec_refines {threshold : ℕ} {as : List StoreAction} (hlive : ∀ a ∈ as, a.Live)
    {σ σ' : Store} {e : Engine} (hup : σ.eng = some e) (htracks : Tracks e σ.jobs)
    (hrun : exec (step threshold) σ as = some σ') :
    ∃ e', σ'.eng = some e' ∧ Tracks e' σ'.jobs ∧ e'.get = as.foldl StoreAction.acked e.get := by
  induction as generalizing σ e with
  | nil =>
    obtain rfl := Option.some.inj hrun
    exact ⟨e, hup, htracks, rfl⟩
  | cons a as ih =>
    obtain ⟨τ, hstep, hrest⟩ := exec_cons.mp hrun
    obtain ⟨e₁, hup₁, htracks₁, hget⟩ :=
      (step_cases hstep).refines (hlive a List.mem_cons_self) hup htracks
    rw [List.foldl_cons, ← hget]
    exact ih (fun b hb => hlive b (List.mem_cons_of_mem _ hb)) hup₁ htracks₁ hrest

/-- **The engine is a map.** After every run of writes, flushes and restores on an engine that
`Open` returned, with the goroutines' steps anywhere between, `Get` shows what the acknowledged
operations have made of the content that `Open` showed. The frozen memtable is the one that a
goroutine still has to install, and the tables are in order, the newest first. -/
theorem engine_refines_map {threshold : ℕ} (σ₀ : Store) {σ : Store} {e : Engine} {fs : List FsOp}
    {as : List StoreAction} (hopen : openEngine σ₀.disk = some (e, fs)) (hlive : ∀ a ∈ as, a.Live)
    (hrun : exec (Store.step threshold) (σ₀.opened e fs) as = some σ) :
    ∃ e', σ.eng = some e' ∧ e'.get = as.foldl StoreAction.acked e.get ∧
      (σ.jobs.filter FlushJob.busy).map FlushJob.frozen = e'.immutable.toList ∧
      e'.sstables.Pairwise fun a b => b.1 < a.1 := by
  obtain ⟨e', hup, htracks, hget⟩ :=
    Store.exec_refines hlive (σ := σ₀.opened e fs) rfl (.opened (opened hopen)) hrun
  exact ⟨e', hup, hget, htracks.frozen, htracks.newest⟩

/-- What an engine on an empty directory is. -/
def newEngine : Engine := { w := 0, nextSeq := 1, nextFlushSeq := 0, nextWALSeq := 1 }

/-- A key is written, and written again while its first value is being flushed. -/
def flushedRun : List StoreAction :=
  [.batch [⟨[107], [1], false⟩], .job 0, .job 0, .job 0, .batch [⟨[107], [2], false⟩],
    .job 0, .job 0]

theorem engine_refines_map_flushed :
    ∃ σ e', exec (Store.step 1) (({} : Store).opened newEngine [.openWal 0]) flushedRun = some σ ∧
      σ.eng = some e' ∧ e'.get [107] = some [2] := by
  have hrun :
      (exec (Store.step 1) (({} : Store).opened newEngine [.openWal 0]) flushedRun).isSome := by
    decide +kernel
  obtain ⟨σ, hσ⟩ := Option.isSome_iff_exists.mp hrun
  obtain ⟨e', hup, hget, -⟩ := engine_refines_map {} rfl
    (by simp [flushedRun, StoreAction.Live]) hσ
  refine ⟨σ, e', hσ, hup, ?_⟩
  rw [hget]
  rfl

end KvStore
