import KvStore.Engine.Engine

/-!
# Opening a directory

What `Open` shows of a directory, and that it does not matter how often and where it is interrupted.

* `Dir.content`: the logs, replayed in order, on top of the tables, the newest first.
* `Recoverable d c`: the logs of `d` hold records, its numbers are in order and its content is `c`.
* `Recoverable.opened`: `Open` shows this content, and leaves one log that holds its memtable.
* `Recoverable.throughout_open`: a crash inside `Open` leaves a directory with the same content.

The logs that `Open` rewrites and the old ones are there together for a while. This is harmless
because the rewritten ones say what the old ones say, on the same keys.
-/

namespace KvStore

open Layered

/-! ## The content of a directory -/

namespace Dir

/-- The records that `Open` replays. -/
def logRecords (d : Dir) : List Wal.Record := d.validWals.flatMap fun a => Wal.replay a.2

/-- What the logs say. -/
def logLayer (d : Dir) : Source := recordsLayer d.logRecords

/-- What a table file says; one without a footer says nothing. -/
def fileLayer (a : ℕ × Option Table) : Source := (a.2.map Table.layer).getD void

/-- What the table files say. -/
def tablesLayer (d : Dir) : Source := stack (d.validSsts.reverse.map fileLayer)

/-- What `Open` shows, if all table files open. -/
def content (d : Dir) : Content := resolve (atop d.logLayer d.tablesLayer)

end Dir

namespace Engine

theorem getFrom_eq (ts : List Table) : getFrom ts = resolve (stack (ts.map Table.layer)) := by
  funext k
  induction ts with
  | nil => rfl
  | cons t ts ih =>
    unfold getFrom
    rw [List.map_cons, stack_cons]
    cases ht : SortedMap.get t k with
    | none =>
      rw [ih]
      simp [resolve, atop, Table.layer, ht]
    | some e =>
      simp [resolve, atop, Table.layer, ht]

/-- What the engine's sources say. -/
theorem get_eq (e : Engine) : e.get = resolve (atop e.mem.layer
    (atop (stack (e.immutable.toList.map Table.layer))
      (stack (e.sstables.map fun a => a.2.layer)))) := by
  unfold get sources
  rw [getFrom_eq, List.map_cons, List.map_append, stack_cons, stack_append, List.map_map]
  rfl

end Engine

/-- The directory has the content `c`, and `Open` will use numbers that are new. -/
structure Recoverable (d : Dir) (c : Content) : Prop where
  logs : ∀ a ∈ d.validWals, ∃ rs, Wal.Holds a.2 rs
  content : d.content = c
  minValid_wal : d.minValidSeq ≤ Dir.nextNumber d.validWals
  minValid_sst : d.minValidSeq ≤ Dir.nextNumber d.validSsts
  wals_lt : ∀ a ∈ d.wals.entries, a.1 < Dir.nextNumber d.validWals
  ssts_lt : ∀ a ∈ d.ssts.entries, a.1 < Dir.nextNumber d.validSsts

/-! ## What `Open` returns -/

theorem mapM_tables {l : List (ℕ × Option Table)} {l' : List (ℕ × Table)}
    (h : l.mapM (fun a => a.2.map fun t => (a.1, t)) = some l') : l = l'.map fun a =>
    (a.1, some a.2) := by
  induction l generalizing l' with
  | nil =>
    cases h
    rfl
  | cons a l ih =>
    simp only [List.mapM_cons, Option.bind_eq_bind, Option.bind_eq_some_iff, Option.map_eq_some_iff,
      pure, Option.some.injEq] at h
    obtain ⟨b, ⟨t, ht, rfl⟩, bs, hbs, rfl⟩ := h
    rw [List.map_cons, ← ih hbs, ← ht]

/-- `Open` in parts. -/
structure Opened (d : Dir) (e : Engine) (ops : List FsOp) : Prop where
  w_eq : e.w = Dir.nextNumber d.validWals
  mem_eq : e.mem = Table.empty.applyRecords d.logRecords
  immutable_eq : e.immutable = none
  flushErr_eq : e.flushErr = false
  nextWALSeq_eq : e.nextWALSeq = e.w + 1
  nextFlushSeq_eq : e.nextFlushSeq = Dir.nextNumber d.validSsts
  ssts_eq : d.validSsts.reverse = e.sstables.map fun a => (a.1, some a.2)
  ops_eq : ops = d.validWals.map (fun a => .truncateWal a.1 (Wal.validLength a.2)) ++
    (.openWal e.w ::
      ((if e.mem.entries = [] then [] else [.appendWal e.w (Wal.encode e.mem.records)]) ++
        d.validWals.map fun a => .removeWal a.1))

theorem opened {d : Dir} {e : Engine} {ops : List FsOp} (h : openEngine d = some (e, ops)) :
    Opened d e ops := by
  simp only [openEngine, Dir.discoverSSTables, Dir.discoverWALs, Option.bind_eq_bind,
    Option.bind_eq_some_iff, pure, Option.some.injEq, Prod.mk.injEq] at h
  obtain ⟨-, ⟨tables, htables, rfl⟩, rfl, rfl⟩ := h
  exact ⟨rfl, rfl, rfl, rfl, rfl, rfl, mapM_tables htables, rfl⟩

/-- `Open` returns an engine exactly if no valid table is cut short. -/
theorem exists_openEngine_iff {d : Dir} : (∃ e ops, openEngine d = some (e, ops)) ↔ d.Finished := by
  constructor
  · rintro ⟨e, ops, hopen⟩ a ha
    rw [← List.mem_reverse, (opened hopen).ssts_eq] at ha
    obtain ⟨b, -, rfl⟩ := List.mem_map.mp ha
    exact Option.some_ne_none b.2
  · intro h
    have hmap : ∃ tables, d.validSsts.reverse.mapM (fun a => a.2.map fun t => (a.1, t)) =
        some tables := by
      generalize hl : d.validSsts.reverse = l
      have hall : ∀ a ∈ l, a.2 ≠ none := fun a ha => h a (List.mem_reverse.mp (hl ▸ ha))
      clear hl
      induction l with
      | nil => exact ⟨[], rfl⟩
      | cons a l ih =>
        obtain ⟨ha, hl⟩ := List.forall_mem_cons.mp hall
        obtain ⟨t, ht⟩ := Option.ne_none_iff_exists'.mp ha
        obtain ⟨tables, htables⟩ := ih hl
        exact ⟨(a.1, t) :: tables, by simp [List.mapM_cons, ht, htables]⟩
    obtain ⟨tables, htables⟩ := hmap
    simp [openEngine, Dir.discoverSSTables, htables]

namespace Opened

variable {d : Dir} {e : Engine} {ops : List FsOp}

theorem mem_layer (h : Opened d e ops) : e.mem.layer = d.logLayer := by
  rw [h.mem_eq, Table.layer_applyRecords, Table.layer_empty, atop_void]
  rfl

/-- **`Open` shows the content of the directory.** -/
theorem get_eq (h : Opened d e ops) : e.get = d.content := by
  rw [e.get_eq, h.immutable_eq, h.mem_layer]
  unfold Dir.content Dir.tablesLayer
  rw [h.ssts_eq, List.map_map]
  rfl

end Opened

/-! ## Interruptions -/

theorem Dir.logRecords_eq {d : Dir} {files : List (ℕ × Bytes)} (h : d.validWals = files) :
    d.logRecords = files.flatMap fun a => Wal.replay a.2 := by rw [logRecords, h]

namespace Recoverable

variable {d d' : Dir} {c : Content} {n : ℕ} {b : Bytes} {files l l' : List (ℕ × Bytes)}

/-- Changes to the logs that keep what they say. -/
theorem of_wals (h : Recoverable d c) (hmarker : d'.marker = d.marker) (hssts : d'.ssts = d.ssts)
    (hlogs : ∀ a ∈ d'.validWals, ∃ rs, Wal.Holds a.2 rs) (hlayer : d'.logLayer = d.logLayer)
    (hnext : Dir.nextNumber d.validWals ≤ Dir.nextNumber d'.validWals)
    (hlt : ∀ a ∈ d'.wals.entries, a.1 < Dir.nextNumber d'.validWals) : Recoverable d' c := by
  have hmin : d'.minValidSeq = d.minValidSeq := by rw [Dir.minValidSeq, hmarker, Dir.minValidSeq]
  have hvalid := Dir.validSsts_congr hmarker hssts
  refine ⟨hlogs, ?_, ?_, ?_, hlt, ?_⟩
  · rw [← h.content, Dir.content, hlayer, Dir.tablesLayer, hvalid]
    rfl
  · rw [hmin]
    exact h.minValid_wal.trans hnext
  · rw [hmin, hvalid]
    exact h.minValid_sst
  · rw [hssts, hvalid]
    exact h.ssts_lt

/-- Replaying a log truncates it where it was torn. -/
theorem truncate (h : Recoverable d c) (hw : d.validWals = l ++ (n, b) :: l') :
    Recoverable (d.apply (.truncateWal n (Wal.validLength b))) c := by
  have hw' := Dir.validWals_truncateWal hw (Wal.validLength b)
  obtain ⟨rs, hrs⟩ := h.logs (n, b) (by rw [hw]; simp)
  have hnext : Dir.nextNumber (l ++ (n, b.take (Wal.validLength b)) :: l') =
      Dir.nextNumber (l ++ (n, b) :: l') := Dir.nextNumber_congr (by simp)
  refine h.of_wals rfl rfl (fun a ha => ?_) ?_ (by rw [hw', hw, hnext]) ?_
  · rw [hw', List.mem_append, List.mem_cons] at ha
    rcases ha with ha | rfl | ha
    · exact h.logs a (by rw [hw]; simp [ha])
    · exact ⟨rs, hrs.truncated⟩
    · exact h.logs a (by rw [hw]; simp [ha])
  · unfold Dir.logLayer
    rw [Dir.logRecords_eq hw', Dir.logRecords_eq hw, List.flatMap_append, List.flatMap_append,
      List.flatMap_cons, List.flatMap_cons, hrs.truncated.replay_eq, hrs.replay_eq]
  · rw [hw', hnext, ← hw]
    exact SortedMap.forall_modify (P := (· < _)) h.wals_lt n _

theorem throughout_truncate (h : Recoverable d c) (hw : d.validWals = l ++ files) :
    Dir.Throughout (Recoverable · c) d
        (files.map fun a => .truncateWal a.1 (Wal.validLength a.2)) ∧
      (d.run (files.map fun a => .truncateWal a.1 (Wal.validLength a.2))).validWals =
        l ++ files.map fun a => (a.1, a.2.take (Wal.validLength a.2)) := by
  induction files generalizing d l with
  | nil => exact ⟨Dir.throughout_nil h, hw⟩
  | cons a files ih =>
    obtain ⟨n, b⟩ := a
    have hstep := h.truncate hw
    have hw' := Dir.validWals_truncateWal hw (Wal.validLength b)
    rw [show l ++ (n, b.take (Wal.validLength b)) :: files =
      (l ++ [(n, b.take (Wal.validLength b))]) ++ files by simp] at hw'
    obtain ⟨hthrough, hwals⟩ := ih hstep hw'
    rw [List.map_cons, List.map_cons, Dir.run_cons]
    exact ⟨Dir.throughout_cons (fun _ => h) hthrough, by rw [hwals, List.append_assoc]; rfl⟩

theorem openWal (h : Recoverable d c) (hlim : Dir.nextNumber d.validWals < Dir.fileLimit) :
    Recoverable (d.apply (.openWal (Dir.nextNumber d.validWals))) c ∧
      (d.apply (.openWal (Dir.nextNumber d.validWals))).validWals =
        d.validWals ++ [(Dir.nextNumber d.validWals, [])] := by
  have hw := Dir.validWals_openWal h.wals_lt ⟨h.minValid_wal, hlim⟩
  refine ⟨h.of_wals rfl rfl (fun a ha => ?_) ?_ ?_ ?_, hw⟩
  · rw [hw, List.mem_append, List.mem_singleton] at ha
    rcases ha with ha | rfl
    · exact h.logs a ha
    · exact ⟨[], Wal.holds_nil⟩
  · unfold Dir.logLayer Dir.logRecords
    rw [hw, List.flatMap_append]
    exact congrArg recordsLayer (List.append_nil _)
  · rw [hw, Dir.nextNumber_concat]
    exact Nat.le_succ _
  · rw [hw, Dir.nextNumber_concat]
    exact SortedMap.forall_insert (P := (· < Dir.nextNumber d.validWals + 1))
      (fun a ha => Nat.lt_succ_of_lt (h.wals_lt a ha)) (Nat.lt_succ_self _) _

/-- The last log says the same and more, if what is appended to it says nothing new. -/
theorem appendWal (h : Recoverable d c) (hw : d.validWals = files ++ [(n, [])])
    {rs : List Wal.Record} (hdata : Wal.Holds b rs)
    (hagrees : Agrees d.logLayer (recordsLayer rs)) : Recoverable (d.apply (.appendWal n b)) c := by
  have hw' := Dir.validWals_appendWal hw b
  rw [List.nil_append] at hw'
  refine h.of_wals rfl rfl (fun a ha => ?_) ?_ ?_ ?_
  · rw [hw', List.mem_append, List.mem_singleton] at ha
    rcases ha with ha | rfl
    · exact h.logs a (by rw [hw]; exact List.mem_append_left _ ha)
    · exact ⟨rs, hdata⟩
  · have hrecs : (d.apply (.appendWal n b)).logRecords = d.logRecords ++ rs := by
      rw [Dir.logRecords_eq hw', Dir.logRecords_eq hw, List.flatMap_append, List.flatMap_append,
        List.flatMap_singleton, List.flatMap_singleton, hdata.replay_eq, Wal.holds_nil.replay_eq,
        List.append_nil]
    rw [Dir.logLayer, hrecs, recordsLayer_append]
    exact atop_eq_right hagrees
  · rw [hw', hw, Dir.nextNumber_concat, Dir.nextNumber_concat]
  · rw [hw', Dir.nextNumber_concat]
    have hlt := h.wals_lt
    rw [hw, Dir.nextNumber_concat] at hlt
    exact SortedMap.forall_modify (P := (· < n + 1)) hlt n _

/-- An old log may go if the last one has all its keys. -/
theorem removeWal {a : ℕ × Bytes} {l : List (ℕ × Bytes)} (h : Recoverable d c)
    (hw : d.validWals = a :: (l ++ [(n, b)])) {rs : List Wal.Record} (hlast : Wal.Holds b rs)
    (hcovers : Covers (recordsLayer rs) (recordsLayer (Wal.replay a.2))) :
    Recoverable (d.apply (.removeWal a.1)) c := by
  have hw' := Dir.validWals_removeWal hw
  have hw₂ : d.validWals = (a :: l) ++ [(n, b)] := hw
  refine h.of_wals rfl rfl (fun a' ha => ?_) ?_ ?_ ?_
  · rw [hw'] at ha
    exact h.logs a' (by rw [hw]; exact List.mem_cons_of_mem _ ha)
  · unfold Dir.logLayer
    rw [Dir.logRecords_eq hw', Dir.logRecords_eq hw₂, List.flatMap_append, List.flatMap_append,
      List.flatMap_singleton, List.flatMap_cons, hlast.replay_eq, recordsLayer_append,
      recordsLayer_append, recordsLayer_append, ← atop_assoc]
    refine (atop_eq_left fun k hk => ?_).symm
    exact covers_atop_left _ _ k (hcovers k hk)
  · rw [hw', hw₂, Dir.nextNumber_concat, Dir.nextNumber_concat]
  · rw [hw', Dir.nextNumber_concat]
    have hlt := h.wals_lt
    rw [hw₂, Dir.nextNumber_concat] at hlt
    exact SortedMap.forall_erase (P := (· < n + 1)) hlt a.1

theorem throughout_remove {rs : List Wal.Record} (h : Recoverable d c)
    (hw : d.validWals = files ++ [(n, b)]) (hlast : Wal.Holds b rs)
    (hcovers : ∀ a ∈ files, Covers (recordsLayer rs) (recordsLayer (Wal.replay a.2))) :
    Dir.Throughout (Recoverable · c) d (files.map fun a => .removeWal a.1) ∧
      (d.run (files.map fun a => .removeWal a.1)).validWals = [(n, b)] := by
  induction files generalizing d with
  | nil => exact ⟨Dir.throughout_nil h, hw⟩
  | cons a files ih =>
    have hstep := h.removeWal hw hlast (hcovers a List.mem_cons_self)
    obtain ⟨hthrough, hwals⟩ := ih hstep (Dir.validWals_removeWal hw)
      fun a ha => hcovers a (List.mem_cons_of_mem _ ha)
    rw [List.map_cons, Dir.run_cons]
    exact ⟨Dir.throughout_cons (fun _ => h) hthrough, hwals⟩

theorem replay_truncated (h : ∀ a ∈ files, ∃ rs, Wal.Holds a.2 rs) :
    ((files.map fun a => (a.1, a.2.take (Wal.validLength a.2))).flatMap fun a => Wal.replay a.2) =
      files.flatMap fun a => Wal.replay a.2 := by
  rw [List.flatMap_map]
  refine List.flatMap_congr fun a ha => ?_
  obtain ⟨rs, hrs⟩ := h a ha
  exact hrs.truncated.replay_eq.trans hrs.replay_eq.symm

/-- A new log is opened, and a memtable that says what the logs say is written to it. -/
theorem throughout_relog (h : Recoverable d c) (hn : Dir.nextNumber d.validWals = n)
    (hlim : n < Dir.fileLimit) {t : Table} (ht : t.layer = d.logLayer)
    (hfits : ∀ r ∈ t.records, r.Fits) :
    Dir.Throughout (Recoverable · c) d
        (.openWal n :: if t.entries = [] then [] else [.appendWal n (Wal.encode t.records)]) ∧
      (d.run (.openWal n :: if t.entries = [] then [] else
        [.appendWal n (Wal.encode t.records)])).validWals =
          d.validWals ++ [(n, Wal.encode t.records)] := by
  obtain ⟨hopen, hw⟩ := h.openWal (by rw [hn]; exact hlim)
  rw [hn] at hopen hw
  have hlog : (d.apply (.openWal n)).logLayer = d.logLayer := by
    unfold Dir.logLayer
    rw [Dir.logRecords_eq hw, List.flatMap_append, List.flatMap_singleton, Wal.holds_nil.replay_eq,
      List.append_nil]
    rfl
  have happend : ∀ {qs : List Wal.Record} {b : Bytes}, qs <+: t.records → Wal.Holds b qs →
      Recoverable ((d.apply (.openWal n)).apply (.appendWal n b)) c := fun hqs hb =>
    hopen.appendWal hw hb (by rw [hlog, ← ht]; exact Table.agrees_of_prefix_records hqs)
  rw [Dir.run_cons]
  by_cases hmem : t.entries = []
  · rw [if_pos hmem]
    refine ⟨Dir.throughout_cons (fun _ => h) (Dir.throughout_nil hopen), hw.trans ?_⟩
    rw [Table.records, hmem]
    rfl
  · rw [if_neg hmem]
    have hfull := happend (List.prefix_refl _) (Wal.holds_encode hfits)
    refine ⟨Dir.throughout_cons (fun _ => h)
      (Dir.throughout_cons (fun j => ?_) (Dir.throughout_nil hfull)), Dir.validWals_appendWal hw _⟩
    -- what a crash leaves of the append is some of the records
    obtain ⟨qs, hqs, hb⟩ := Wal.holds_torn (fun r hr => absurd hr List.not_mem_nil) hfits j
    exact happend hqs hb

theorem fits_mem {e : Engine} {ops : List FsOp} (h : Recoverable d c) (ho : Opened d e ops) :
    ∀ r ∈ e.mem.records, r.Fits := by
  rw [ho.mem_eq]
  refine Table.fits_applyRecords (fun r hr => ?_) fun r hr => absurd hr List.not_mem_nil
  obtain ⟨a, ha, hr⟩ := List.mem_flatMap.mp hr
  obtain ⟨rs, hrs⟩ := h.logs a ha
  exact hrs.fits r (hrs.replay_eq ▸ hr)

/-- **`Open` may be interrupted anywhere.** It leaves a directory with the content it found, and at
its end one with a single log, which holds the memtable. -/
theorem throughout_open {e : Engine} {ops : List FsOp} (h : Recoverable d c) (ho : Opened d e ops)
    (hlim : Dir.nextNumber d.validWals < Dir.fileLimit) :
    Dir.Throughout (Recoverable · c) d ops ∧
      (d.run ops).validWals = [(e.w, Wal.encode e.mem.records)] := by
  have hfits := h.fits_mem ho
  -- the logs are replayed, and truncated where they were torn
  obtain ⟨hthrough₁, hw₁⟩ := h.throughout_truncate (List.nil_append d.validWals).symm
  rw [List.nil_append] at hw₁
  have h₁ := hthrough₁.run
  -- the memtable goes to a new log
  have hlog₁ := congrArg recordsLayer ((Dir.logRecords_eq hw₁).trans (replay_truncated h.logs))
  obtain ⟨hthrough₂, hw₂⟩ := h₁.throughout_relog (n := e.w) (t := e.mem)
    (by rw [hw₁, ho.w_eq]; exact Dir.nextNumber_congr (by simp)) (by rw [ho.w_eq]; exact hlim)
    (ho.mem_layer.trans hlog₁.symm) hfits
  rw [hw₁] at hw₂
  -- the old logs go, the oldest first
  obtain ⟨hthrough₃, hw₃⟩ := hthrough₂.run.throughout_remove hw₂ (Wal.holds_encode hfits)
    fun a ha => by
      rw [Table.recordsLayer_records, ho.mem_layer]
      refine covers_of_subset fun r hr => ?_
      rw [Dir.logRecords, ← replay_truncated h.logs]
      exact List.mem_flatMap.mpr ⟨a, ha, hr⟩
  rw [List.map_map] at hthrough₃ hw₃
  rw [ho.ops_eq, ← List.cons_append, Dir.run_append, Dir.run_append]
  exact ⟨Dir.throughout_append hthrough₁ (Dir.throughout_append hthrough₂ hthrough₃), hw₃⟩

end Recoverable

end KvStore
