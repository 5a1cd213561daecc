import KvStore.Engine.MapRefinement
import KvStore.Engine.Running

/-!
# Restoring a snapshot

The files of `RestoreSnapshot`. Its table and its log have a number above all others, and the marker
makes them the first valid ones.

* `Restored d n t`: in `d`, the files with the number `n` are the only valid ones.
* `Engine.restored`: the rename leads there, and what follows it changes nothing.
* `Running.restored`: the engine that `RestoreSnapshot` returns agrees with its files.
-/

namespace KvStore

open Layered

/-- The valid files are a table and an empty log, both with the number `n`. -/
structure Restored (d : Dir) (n : ℕ) (t : Table) : Prop where
  minValid : d.minValidSeq = n
  wals : d.validWals = [(n, [])]
  ssts : d.validSsts = [(n, some t)]
  wals_lt : ∀ a ∈ d.wals.entries, a.1 < n + 1
  ssts_lt : ∀ a ∈ d.ssts.entries, a.1 < n + 1

namespace Restored

variable {d : Dir} {n : ℕ} {t : Table}

theorem recoverable (h : Restored d n t) : Recoverable d (resolve t.layer) := by
  have hwal : Dir.nextNumber d.validWals = n + 1 := by rw [h.wals]; rfl
  have hsst : Dir.nextNumber d.validSsts = n + 1 := by rw [h.ssts]; rfl
  refine ⟨?_, ?_, ?_, ?_, ?_, ?_⟩
  · rw [h.wals]
    exact List.forall_mem_singleton.mpr ⟨[], Wal.holds_nil⟩
  · unfold Dir.content Dir.logLayer Dir.tablesLayer
    rw [Dir.logRecords_eq h.wals, List.flatMap_singleton, Wal.holds_nil.replay_eq, h.ssts]
    exact congrArg resolve (atop_void t.layer)
  · rw [h.minValid, hwal]
    exact Nat.le_succ n
  · rw [h.minValid, hsst]
    exact Nat.le_succ n
  · rw [hwal]
    exact h.wals_lt
  · rw [hsst]
    exact h.ssts_lt

theorem removeWal (h : Restored d n t) {m : ℕ} (hm : m < n) :
    Restored (d.apply (.removeWal m)) n t :=
  ⟨h.minValid, (Dir.validWals_removeWal_of_lt (h.minValid ▸ hm)).trans h.wals, h.ssts,
    SortedMap.forall_erase (P := (· < n + 1)) h.wals_lt m, h.ssts_lt⟩

theorem removeSst (h : Restored d n t) {m : ℕ} (hm : m < n) :
    Restored (d.apply (.removeSst m)) n t :=
  ⟨h.minValid, h.wals, (Dir.validSsts_removeSst_of_lt (h.minValid ▸ hm)).trans h.ssts, h.wals_lt,
    SortedMap.forall_erase (P := (· < n + 1)) h.ssts_lt m⟩

/-- The old files go, one by one. -/
theorem run (h : Restored d n t) {ops : List FsOp}
    (hops : ∀ op ∈ ops, ∃ m < n, op = .removeWal m ∨ op = .removeSst m) :
    Restored (d.run ops) n t := by
  induction ops generalizing d with
  | nil => exact h
  | cons op ops ih =>
    obtain ⟨⟨m, hm, hop⟩, hrest⟩ := List.forall_mem_cons.mp hops
    rw [Dir.run_cons]
    rcases hop with rfl | rfl
    · exact ih (h.removeWal hm) hrest
    · exact ih (h.removeSst hm) hrest

end Restored

namespace Dir

variable {d : Dir} {n : ℕ}

/-- The files of a restore come last, before the rename. -/
theorem entries_restoreBefore (hwals : ∀ a ∈ d.wals.entries, a.1 < n)
    (hssts : ∀ a ∈ d.ssts.entries, a.1 < n) (t : Table) :
    (d.run [.createSst n, .finishSst n t, .openWal n]).wals.entries = d.wals.entries ++ [(n, [])] ∧
      (d.run [.createSst n, .finishSst n t, .openWal n]).ssts.entries =
        d.ssts.entries ++ [(n, some t)] := by
  have hget : d.wals.get n = none := SortedMap.get_eq_none.mpr fun a ha => (hwals a ha).ne
  constructor
  · show (d.wals.insert n ((d.wals.get n).getD [])).entries = _
    rw [hget]
    exact SortedMap.entries_insert_of_lt hwals []
  · show ((d.ssts.insert n none).modify n fun _ => some t).entries = _
    rw [SortedMap.entries_modify, SortedMap.entries_insert_of_lt hssts, List.map_append,
      SortedMap.map_ite_of_ne fun a ha => (hssts a ha).ne]
    simp

theorem within_last {α : Type} {m : SortedMap ℕ α} {l : List (ℕ × α)} {v : α}
    (h : m.entries = l ++ [(n, v)]) (hl : ∀ a ∈ l, a.1 < n) {p : ℕ → Prop} [DecidablePred p]
    (hn : p n) (hp : ∀ i < n, ¬p i) : m.within p = [(n, v)] := by
  unfold SortedMap.within
  rw [h, List.filter_append, List.filter_eq_nil_iff.mpr fun a ha => by simpa using hp _ (hl a ha)]
  simp [hn]

/-- **The rename makes the new files the only valid ones.** -/
theorem restored (hwals : ∀ a ∈ d.wals.entries, a.1 < n) (hssts : ∀ a ∈ d.ssts.entries, a.1 < n)
    (hn : n < fileLimit) (t : Table) :
    Restored (d.run [.createSst n, .finishSst n t, .openWal n, .renameMarker n]) n t := by
  obtain ⟨hw, hs⟩ := entries_restoreBefore hwals hssts t
  have hvalid : ∀ i < n, ¬(n ≤ i ∧ i < fileLimit) := fun i hi hle => absurd hle.1 (not_le.mpr hi)
  refine ⟨rfl, within_last hw hwals ⟨le_rfl, hn⟩ hvalid,
    within_last hs hssts ⟨le_rfl, hn⟩ hvalid, ?_, ?_⟩
  · show ∀ a ∈ (d.run [.createSst n, .finishSst n t, .openWal n]).wals.entries, _
    rw [hw]
    exact List.forall_mem_append.mpr ⟨fun a ha => Nat.lt_succ_of_lt (hwals a ha),
      List.forall_mem_singleton.mpr (Nat.lt_succ_self n)⟩
  · show ∀ a ∈ (d.run [.createSst n, .finishSst n t, .openWal n]).ssts.entries, _
    rw [hs]
    exact List.forall_mem_append.mpr ⟨fun a ha => Nat.lt_succ_of_lt (hssts a ha),
      List.forall_mem_singleton.mpr (Nat.lt_succ_self n)⟩

end Dir

namespace Running

variable {d : Dir} {e : Engine} {old pend act : List FlushJob}

/-- The number of a restore is above those of all files. -/
theorem lt_newSeq (h : Running d e old pend act) :
    (∀ a ∈ d.wals.entries, a.1 < e.newSeq) ∧ (∀ a ∈ d.ssts.entries, a.1 < e.newSeq) := by
  obtain ⟨rs, hlaid, -⟩ := h.laid
  constructor
  · intro a ha
    exact lt_of_lt_of_le (lt_of_lt_of_le (hlaid.wals_lt a ha) h.next_wal) (le_max_right _ _)
  · intro a ha
    exact lt_of_lt_of_le (lt_of_lt_of_le (hlaid.ssts_lt a ha) h.next_sst) (le_max_left _ _)

theorem sstables_lt (h : Running d e old pend act) : ∀ a ∈ e.sstables, a.1 < e.newSeq := by
  obtain ⟨rs, hlaid, -⟩ := h.laid
  intro a ha
  have hmem : (a.1, some a.2) ∈ d.validSsts := by
    rw [hlaid.ssts]
    exact List.mem_append_left _ (List.mem_map.mpr ⟨a, List.mem_reverse.mpr ha, rfl⟩)
  exact h.lt_newSeq.2 _ (SortedMap.mem_within.mp hmem).1

/-- **From the rename on, only the new files count.** -/
theorem renamed (h : Running d e old pend act) (hlim : e.Within) (t : Table) (k : ℕ) :
    Restored (d.run (e.restoreBefore t ++ .renameMarker e.newSeq :: e.restoreAfter.take k))
      e.newSeq t := by
  have hrename := Dir.restored h.lt_newSeq.1 h.lt_newSeq.2 (max_lt hlim.2 hlim.1) t
  have hafter : ∀ op ∈ e.restoreAfter, ∃ m < e.newSeq, op = .removeWal m ∨ op = .removeSst m := by
    intro op hop
    rcases List.mem_append.mp hop with hop | hop
    · obtain ⟨a, ha, rfl⟩ := List.mem_map.mp hop
      exact ⟨a.1, h.sstables_lt a ha, Or.inr rfl⟩
    · exact ⟨e.w, lt_of_lt_of_le h.next_wal (le_max_right _ _), Or.inl (List.mem_singleton.mp hop)⟩
  have hrun := hrename.run fun op hop => hafter op (List.mem_of_mem_take (i := k) hop)
  rwa [← Dir.run_append] at hrun

/-- The logs that a goroutine still has to remove are no longer valid. -/
theorem restored (h : Running d e old pend []) (hlim : e.Within) {data : Bytes} {fs : List FsOp}
    {e' : Engine} (hrun : e.restoreSnapshot data = (fs, .ok e')) :
    Running (d.run fs) e' (old ++ pend) [] [] := by
  obtain ⟨himm, kvs, t, -, -, rfl, rfl⟩ := Engine.restoreSnapshot_ok hrun
  have hrest : Restored (d.run (e.restoreBefore t ++ .renameMarker e.newSeq :: e.restoreAfter))
      e.newSeq t := by
    have hrenamed := h.renamed hlim t e.restoreAfter.length
    rwa [List.take_length] at hrenamed
  obtain ⟨rs, hlaid, -⟩ := h.laid
  have hnext : Dir.nextNumber
      (d.run (e.restoreBefore t ++ .renameMarker e.newSeq :: e.restoreAfter)).validSsts =
        e.newSeq + 1 := by
    rw [hrest.ssts]
    rfl
  refine ⟨⟨[], ⟨⟨[], hrest.wals, .nil⟩, Wal.holds_nil, hrest.ssts, List.nil_prefix, ?_,
    hrest.wals_lt, ?_, ?_⟩, rfl⟩, ?_, ?_, ?_, ?_, ?_, Nat.lt_succ_self _⟩
  · rw [himm]
    rfl
  · rw [hnext]
    exact hrest.ssts_lt
  · rw [hnext, hrest.minValid]
    exact Nat.le_succ _
  · rw [hrest.minValid]
    refine List.forall_mem_append.mpr ⟨fun j hj => ?_, fun j hj => ⟨h.pend_done j hj, ?_⟩⟩
    · obtain ⟨hphase, hlt⟩ := h.old_done j hj
      refine ⟨hphase, hlt.trans_le (hlaid.valid_w.1.trans ?_)⟩
      exact h.next_wal.le.trans (le_max_right _ _)
    · obtain ⟨b, hb⟩ := h.wal_of_pend hj
      exact h.lt_newSeq.1 _ (SortedMap.mem_within.mp hb).1
  · exact fun j hj => absurd hj List.not_mem_nil
  · exact fun j hj => absurd hj List.not_mem_nil
  · exact fun j hj => absurd hj List.not_mem_nil
  · exact hnext.le

end Running

end KvStore
