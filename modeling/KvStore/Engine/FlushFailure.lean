import KvStore.Engine.MapRefinement

/-!
# A flush that fails

`runFlush` records its error under the lock. Where the table was not installed it also drops the
frozen memtable, the only place in memory where the writes since the last flush are.

* `FlushJob.fail`: what an error does, for each place where `runFlush` can meet one.
* `Engine.snapshot`: `Snapshot`, for any order in which the keys are visited.
* `contentOf_livePairs`: a snapshot's content is what `Get` shows.
* `failed_flush_reads_iff`: when reads and snapshots are as before.
-/

namespace KvStore

open Layered Machine

/-- The engine after an error of `runFlush`: of `writeSSTableFromMemtable` or the reopening in the
first three phases, of closing or removing the log in the last. -/
def FlushJob.fail (e : Engine) (job : FlushJob) : Engine :=
  match job.phase with
  | .create | .finish | .install => { e with flushErr := true, immutable := none }
  | .remove => { e with flushErr := true }

/-! ## Snapshots -/

section Pairs

variable {found : Bytes → Option Bytes} {keys : List Bytes} {k v : Bytes}

theorem mem_pairs : (k, v) ∈ keys.filterMap (fun k => (found k).map fun v => (k, v)) ↔ k ∈ keys ∧
    found k = some v := by
  simp only [List.mem_filterMap, Option.map_eq_some_iff, Prod.mk.injEq]
  constructor
  · rintro ⟨k', hk', v', hv, rfl, rfl⟩
    exact ⟨hk', hv⟩
  · rintro ⟨hk, hv⟩
    exact ⟨k, hk, v, hv, rfl, rfl⟩

/-- A key that is visited once is listed at most once. -/
theorem pairs_ne (h : keys.Nodup) :
    (keys.filterMap fun k => (found k).map fun v => (k, v)).Pairwise (fun a b => a.1 ≠ b.1) := by
  refine List.Pairwise.filterMap _ (fun k k' hk a ha b hb => ?_) h
  obtain ⟨v, -, rfl⟩ := Option.map_eq_some_iff.mp ha
  obtain ⟨v', -, rfl⟩ := Option.map_eq_some_iff.mp hb
  exact hk

theorem contentOf_pairs (h : keys.Nodup) (k : Bytes) :
    contentOf (keys.filterMap fun k => (found k).map fun v => (k, v)) k = if k ∈ keys then found k
      else none := by
  apply Option.ext
  intro v
  rw [contentOf, ← SortedMap.mem_iff_lookup (pairs_ne h), mem_pairs]
  split_ifs with hk <;> simp [hk]

end Pairs

namespace Engine

/-- The keys that `Snapshot` gathers. -/
def knownKeys (e : Engine) : List Bytes := (e.sources.flatMap fun t => t.entries.map Prod.fst).dedup

/-- The pairs that `Snapshot` writes if it visits the keys in the given order. -/
def livePairs (e : Engine) (keys : List Bytes) : List (Bytes × Bytes) :=
  keys.filterMap fun k => (e.get k).map fun v => (k, v)

/-- `Snapshot`; the order of the keys is that of a Go map. -/
def snapshot (e : Engine) (keys : List Bytes) : Bytes := encodeSnapshotEntries (e.livePairs keys)

theorem mem_of_getFrom {ts : List Table} {k v : Bytes} (h : getFrom ts k = some v) :
    ∃ t ∈ ts, k ∈ t.entries.map Prod.fst := by
  induction ts with
  | nil => cases h
  | cons t ts ih =>
    unfold getFrom at h
    cases ht : SortedMap.get t k with
    | none =>
      rw [ht] at h
      obtain ⟨t', ht', hk⟩ := ih h
      exact ⟨t', List.mem_cons_of_mem _ ht', hk⟩
    | some en =>
      exact ⟨t, List.mem_cons_self, List.mem_map.mpr ⟨(k, en), SortedMap.mem_entries.mpr ht, rfl⟩⟩

theorem mem_knownKeys {e : Engine} {k v : Bytes} (h : e.get k = some v) : k ∈ e.knownKeys :=
  List.mem_dedup.mpr (List.mem_flatMap.mpr (mem_of_getFrom h))

theorem mem_livePairs {e : Engine} {keys : List Bytes} (h : keys.Perm e.knownKeys) {k v : Bytes} :
    (k, v) ∈ e.livePairs keys ↔ e.get k = some v := by
  rw [livePairs, mem_pairs]
  exact and_iff_right_of_imp fun hv => h.mem_iff.mpr (mem_knownKeys hv)

/-- No key is written twice. -/
theorem livePairs_ne {e : Engine} {keys : List Bytes} (h : keys.Perm e.knownKeys) :
    (e.livePairs keys).Pairwise (fun a b => a.1 ≠ b.1) :=
  pairs_ne (h.nodup_iff.mpr (List.nodup_dedup _))

/-- **A snapshot's content is what `Get` shows**, whatever the order of the keys. -/
theorem contentOf_livePairs {e : Engine} {keys : List Bytes} (h : keys.Perm e.knownKeys) :
    contentOf (e.livePairs keys) = e.get := by
  funext k
  apply Option.ext
  intro v
  unfold contentOf
  rw [← SortedMap.mem_iff_lookup (livePairs_ne h), mem_livePairs h]

end Engine

/-! ## Reads after the error -/

/-- What is readable without the frozen memtable. -/
theorem FlushJob.fail_get {e : Engine} {job : FlushJob} (hbusy : job.busy)
    (himm : e.immutable = some job.frozen) : (job.fail e).get = e.get ↔ ∀ a ∈ job.frozen.entries,
      e.mem.get a.1 ≠ none ∨ Engine.getFrom (e.sstables.map Prod.snd) a.1 = a.2.found := by
  have hfail : (job.fail e).get = resolve
      (atop e.mem.layer (stack (e.sstables.map fun a => a.2.layer))) := by
    unfold FlushJob.fail
    unfold FlushJob.busy at hbusy
    cases hphase : job.phase with
    | create | finish | install => exact Engine.get_eq _
    | remove => simp [hphase] at hbusy
  have hbefore : e.get = resolve (atop e.mem.layer
      (atop job.frozen.layer (stack (e.sstables.map fun a => a.2.layer)))) := by
    rw [e.get_eq, himm]
    exact congrArg resolve (congrArg (atop _) (congrArg (atop · _) (atop_void _)))
  have htables : ∀ k, e.mem.get k = none →
      resolve (atop e.mem.layer (stack (e.sstables.map fun a => a.2.layer))) k =
        Engine.getFrom (e.sstables.map Prod.snd) k := by
    intro k hk
    rw [Engine.getFrom_eq, List.map_map]
    simp only [resolve, atop, Table.layer, hk]
    rfl
  rw [hfail, hbefore, eq_comm, resolve_between]
  constructor
  · rintro hall ⟨k, en⟩ hmem
    rcases hall k en.found (by simp [Table.layer, SortedMap.mem_entries.mp hmem]) with hne | hv
    · exact Or.inl fun hk => hne (by simp [Table.layer, hk])
    · by_cases hk : e.mem.get k = none
      · exact Or.inr (htables k hk ▸ hv)
      · exact Or.inl hk
  · intro hall k v hv
    obtain ⟨en, hen, rfl⟩ := Option.map_eq_some_iff.mp hv
    by_cases hk : e.mem.get k = none
    · refine Or.inr ?_
      rw [htables k hk]
      exact (hall (k, en) (SortedMap.mem_entries.mpr hen)).resolve_left fun hne => hne hk
    · exact Or.inl (by simpa [Table.layer] using hk)

/-- **After an error of a flush reads and snapshots are as before exactly if the table was
installed, or the newer memtable has all keys of the frozen one that the tables do not show alike.**
Writes are refused in any case. -/
theorem failed_flush_reads_iff (e : Engine) (job : FlushJob)
    (himm : job.busy → e.immutable = some job.frozen) :
    (((job.fail e).get = e.get ∧ ∀ keys keys', keys.Perm e.knownKeys →
        keys'.Perm (job.fail e).knownKeys →
          contentOf ((job.fail e).livePairs keys') = contentOf (e.livePairs keys)) ↔
      (job.busy → ∀ a ∈ job.frozen.entries,
        e.mem.get a.1 ≠ none ∨ Engine.getFrom (e.sstables.map Prod.snd) a.1 = a.2.found)) ∧
    ∀ threshold ops, (job.fail e).applyBatch threshold ops = .error .flushFailed := by
  have hsnapshot : ((job.fail e).get = e.get ∧ ∀ keys keys', keys.Perm e.knownKeys →
      keys'.Perm (job.fail e).knownKeys →
        contentOf ((job.fail e).livePairs keys') = contentOf (e.livePairs keys)) ↔
      (job.fail e).get = e.get := by
    refine and_iff_left_of_imp fun hget keys keys' hk hk' => ?_
    rw [Engine.contentOf_livePairs hk, Engine.contentOf_livePairs hk', hget]
  have herr : (job.fail e).flushErr = true := by
    unfold FlushJob.fail
    cases job.phase <;> rfl
  refine ⟨?_, fun threshold ops => by rw [Engine.applyBatch, if_pos herr]⟩
  rw [hsnapshot]
  by_cases hbusy : job.busy
  · rw [FlushJob.fail_get hbusy (himm hbusy)]
    exact ⟨fun h _ => h, fun h => h hbusy⟩
  · refine ⟨fun _ hb => absurd hb hbusy, fun _ => ?_⟩
    have hphase : job.phase = .remove := by simpa [FlushJob.busy] using hbusy
    unfold FlushJob.fail
    rw [hphase]
    rfl

/-- A key that is being flushed and has been written again. -/
def overwritten : Engine :=
  { newEngine with
    mem := Table.empty.put [107] [2] 2
    immutable := some (Table.empty.put [107] [1] 1) }

theorem failed_flush_reads_iff_overwritten :
    (FlushJob.fail overwritten
      { frozen := Table.empty.put [107] [1] 1, frozenWAL := 0, flushSeq := 0 }).get =
          overwritten.get :=
  (((failed_flush_reads_iff overwritten
    { frozen := Table.empty.put [107] [1] 1, frozenWAL := 0, flushSeq := 0 } fun _ => rfl).1).mpr
      (by decide +kernel)).1

/-- A key is written, which starts a flush; the flush cannot create its file; the key is gone. -/
theorem failed_flush_loses_write :
    ∃ σ e job, Store.Runs 50 [.openOk, .batch [⟨[107], [1], false⟩]] σ ∧ σ.eng = some e ∧
    job ∈ σ.jobs ∧ job.phase = .create ∧ e.get [107] = some [1] ∧
    (job.fail e).get [107] = none := by
  have hrun : ((exec (Store.step 50) {} [.openOk, .batch [⟨[107], [1], false⟩]]).bind fun σ =>
      σ.eng.bind fun e => σ.jobs[0]?.map fun job => decide (job.phase = .create ∧
        e.get [107] = some [1] ∧ (job.fail e).get [107] = none)) = some true := by decide +kernel
  obtain ⟨σ, hσ, hrun⟩ := Option.bind_eq_some_iff.mp hrun
  obtain ⟨e, hup, hrun⟩ := Option.bind_eq_some_iff.mp hrun
  obtain ⟨job, hjob, hall⟩ := Option.map_eq_some_iff.mp hrun
  obtain ⟨hphase, hbefore, hafter⟩ := of_decide_eq_true hall
  exact ⟨σ, e, job, hσ, hup, List.mem_of_getElem? hjob, hphase, hbefore, hafter⟩

end KvStore
