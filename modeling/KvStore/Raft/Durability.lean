import KvStore.Raft.Calls
import KvStore.Raft.StorageFile

/-!
# What a node has saved it gets back

A node alone with its storage file: any calls, with any messages, and any number of them between two
`Persist`s. An `AppendEntries` carries entries with consecutive indices; no other property of a
cluster is used. The numbers are those of `Wrapping.lean`.

* `Op.Below`: no index that a call is given or makes reaches `2 ^ 64 - 1`.
* `Unsaved.changed`: every such call keeps the relation between memory and disk. The full logs of
  the relation need not be logs of a cluster: below a received snapshot anything may stand.
* `FileNode.Tracked`: the relation for the file, kept by every action (`Tracked.step`).
* `persistence_faithful`: opening the file gives back the state at the last `Persist`. A `Persist`
  that is cut short leaves the old or the new hard state, and the old log, the new one, or the old
  one with some of the new entries.
* `persist_after_wrapping`: entries at the indices `2 ^ 64 - 1` and `0` are never written.
-/

namespace KvStore

open Consensus Machine

/-- The entries of an `AppendEntries` have consecutive indices from `PrevLogIndex + 1` on. -/
def Op.Consecutive : Op → Prop
  | .step m => m.type = .appendEntries → IndexedFrom m.prevLogIndex m.entries
  | _ => True

instance : ∀ op : Op, Decidable op.Consecutive
  | .step m => inferInstanceAs (Decidable (m.type = .appendEntries →
      ∀ i (h : i < m.entries.length), m.entries[i].index = m.prevLogIndex + i + 1))
  | .tick | .propose _ | .readIndex _ | .createSnapshot _ _ => .isTrue trivial

/-- No index that the call is given or makes reaches `2 ^ 64 - 1`. -/
def Op.Below (r : Raft) : Op → Prop
  | .step m => (m.type = .appendEntries → ∀ e ∈ m.entries, e.index + 1 < 2 ^ 64) ∧
      (m.type = .installSnapshot → m.snapshot.lastIncludedIndex + 1 < 2 ^ 64)
  | .propose datas =>
    r.role = .leader → ∀ last ∈ r.lastLogIndex, last + datas.length + 1 < 2 ^ 64
  | .createSnapshot index _ => index + 1 < 2 ^ 64
  | .tick | .readIndex _ => True

instance (r : Raft) : ∀ op : Op, Decidable (op.Below r)
  | .step _ => inferInstanceAs (Decidable (_ ∧ _))
  | .propose datas => inferInstanceAs (Decidable
      (r.role = .leader → ∀ last ∈ r.lastLogIndex, last + datas.length + 1 < 2 ^ 64))
  | .createSnapshot _ _ => inferInstanceAs (Decidable (_ < _))
  | .tick | .readIndex _ => .isTrue trivial

/-- A full log that ends below index `2 ^ 64 - 1`, with 64-bit terms. -/
structure Bounded (l : List LogEntry) : Prop where
  length_lt : l.length + 1 < 2 ^ 64
  term_lt : ∀ e ∈ l, e.term < 2 ^ 64

namespace Bounded

variable {l : List LogEntry}

theorem nil : Bounded [] := ⟨by decide, fun _ h => absurd h List.not_mem_nil⟩

theorem take (h : Bounded l) (k : ℕ) : Bounded (l.take k) where
  length_lt := by have := h.length_lt; rw [List.length_take]; omega
  term_lt e he := h.term_lt e (List.mem_of_mem_take he)

theorem append (h : Bounded l) {es : List LogEntry} (hlen : l.length + es.length + 1 < 2 ^ 64)
    (hes : ∀ e ∈ es, e.term < 2 ^ 64) : Bounded (l ++ es) where
  length_lt := by rwa [List.length_append]
  term_lt e he := (List.mem_append.mp he).elim (h.term_lt e) (hes e)

theorem termAt_lt (h : Bounded l) (i : ℕ) : termAt LogEntry.term l i < 2 ^ 64 := by
  have hle := termAt_le LogEntry.term (t := 2 ^ 64 - 1) (l := l)
    (fun e he => by have := h.term_lt e he; omega) i
  omega

end Bounded

namespace Unsaved

variable {d : List Record} {hs : HardState} {l l' : List LogEntry} {b b' : ℕ} {r r' : Raft}

theorem congr (h : Unsaved d hs l b r l' b') (hd : r'.durable = r.durable) :
    Unsaved d hs l b r' l' b' := by
  simp only [Raft.durable, Prod.mk.injEq] at hd
  obtain ⟨hlog, hsnap, hunst, hst, hsv, hss⟩ := hd
  exact
    { holds := h.holds
      spans := ⟨hlog.trans h.spans.log_eq, h.spans.le, h.spans.indexed⟩
      snap_index := by rw [hsnap]; exact h.snap_index
      snap_term := by rw [hsnap]; exact h.snap_term
      stable_term := hst.trans h.stable_term
      stable_vote := hsv.trans h.stable_vote
      stable_snap := hss.trans h.stable_snap
      le := h.le
      lt_unstable := by rw [hunst]; exact h.lt_unstable
      unstable_le := by rw [hunst]; exact h.unstable_le
      take_eq := by rw [hunst]; exact h.take_eq
      eq_of_lt := by rw [hunst]; exact h.eq_of_lt }

/-- Entries are put at the end of the log. -/
theorem appended (h : Unsaved d hs l b r l' b') {es : List LogEntry} (hi : Indexed (l' ++ es)) :
    Unsaved d hs l b { r with log := r.log ++ es } (l' ++ es) b' := by
  have hu := h.unstable_le
  have hb := h.spans.le
  exact
    { holds := h.holds
      spans := h.spans.append hi rfl
      snap_index := h.snap_index
      snap_term := by
        rw [h.snap_term]
        exact termAt_of_isPrefix LogEntry.term (List.prefix_append l' es) hb
      stable_term := h.stable_term
      stable_vote := h.stable_vote
      stable_snap := h.stable_snap
      le := h.le
      lt_unstable := h.lt_unstable
      unstable_le := by
        show r.unstableIndex ≤ (l' ++ es).length + 1
        rw [List.length_append]
        omega
      take_eq := fun hbb => by
        show (l' ++ es).take (r.unstableIndex - 1) = _
        rw [List.take_append_of_le_length (by omega)]
        exact h.take_eq hbb
      eq_of_lt := fun hbb hlt => by
        have hlt' : (l' ++ es).length < r.unstableIndex := hlt
        rw [List.length_append] at hlt'
        have hnil : es = [] := List.length_eq_zero_iff.mp (by omega)
        rw [hnil, List.append_nil]
        exact h.eq_of_lt hbb (by omega) }

/-- The log is cut at an index, and an entry takes its place there. -/
theorem replaced (h : Unsaved d hs l b r l' b') {i : ℕ} (hb : b' < i) (hi : i ≤ l'.length)
    {e : LogEntry} (he : e.index = i) :
    Unsaved d hs l b
      { r with
        log := window (l'.take (i - 1)) b' ++ [e]
        unstableIndex := if i < r.unstableIndex then i else r.unstableIndex }
      (l'.take (i - 1) ++ [e]) b' := by
  have hlen : (l'.take (i - 1)).length = i - 1 := List.length_take_of_le (by omega)
  have hmin : (if i < r.unstableIndex then i else r.unstableIndex) = min i r.unstableIndex := by
    split_ifs <;> omega
  have hidx : Indexed (l'.take (i - 1) ++ [e]) :=
    (h.spans.indexed.of_isPrefix (List.take_prefix _ _)).concat (by rw [he, hlen]; omega)
  have hlt := h.lt_unstable
  exact
    { holds := h.holds
      spans :=
        { log_eq := window_append (by omega) [e]
          le := by rw [List.length_append]; omega
          indexed := hidx }
      snap_index := h.snap_index
      snap_term := by
        show r.snapshot.lastIncludedTerm = _
        rw [h.snap_term, ← termAt_of_isPrefix LogEntry.term (List.prefix_append _ [e]) (by omega),
          termAt_take LogEntry.term (by omega)]
      stable_term := h.stable_term
      stable_vote := h.stable_vote
      stable_snap := h.stable_snap
      le := h.le
      lt_unstable := by
        show b' < if i < r.unstableIndex then i else r.unstableIndex
        rw [hmin]
        omega
      unstable_le := by
        show (if i < r.unstableIndex then i else r.unstableIndex) ≤ _
        rw [hmin, List.length_append, hlen]
        omega
      take_eq := fun hbb => by
        show (l'.take (i - 1) ++ [e]).take
          ((if i < r.unstableIndex then i else r.unstableIndex) - 1) = l.take _
        have hpre := congrArg (List.take (min i r.unstableIndex - 1)) (h.take_eq hbb)
        rw [List.take_take, List.take_take, min_eq_left (by omega)] at hpre
        rw [hmin, List.take_append_of_le_length (by omega), List.take_take,
          min_eq_left (by omega), hpre]
      eq_of_lt := fun _ hlt' => by
        have hlt'' : (l'.take (i - 1) ++ [e]).length <
            if i < r.unstableIndex then i else r.unstableIndex := hlt'
        rw [hmin, List.length_append, hlen, List.length_singleton] at hlt''
        omega }

/-- **The loop of `handleAppendEntries`**, for any entries with consecutive indices. Cutting the log
at its sentinel or below would be a panic. -/
theorem mergeEntries {es : List LogEntry} :
    ∀ {r : Raft} {l' : List LogEntry} {p : ℕ}, Unsaved d hs l b r l' b' → Bounded l' →
      p ≤ l'.length → p + es.length + 1 < 2 ^ 64 → (∀ e ∈ es, e.term < 2 ^ 64) →
      IndexedFrom p es → Wrapping.mergeEntries r (p + 1) es = some r' →
      ∃ l'', Unsaved d hs l b r' l'' b' ∧ Bounded l'' ∧ r'.snapshot = r.snapshot ∧
        (r.Uint64 → r'.Uint64) := by
  induction es with
  | nil =>
    intro r l' p h hl _ _ _ _ hrun
    obtain rfl := Option.some.inj hrun
    exact ⟨l', h, hl, rfl, id⟩
  | cons e es ih =>
    intro r l' p h hl hp hlen hterm hes hrun
    rw [List.length_cons] at hlen
    obtain ⟨hte, htes⟩ := List.forall_mem_cons.mp hterm
    obtain ⟨he, hes⟩ := hes.tail
    obtain ⟨t, ht⟩ := h.spans.termAt (p + 1)
    have hllen := hl.length_lt
    have hnext : Wrapping.add (p + 1) 1 = p + 1 + 1 := Wrapping.add_of_lt (by omega)
    have hlen' : p + 1 + es.length + 1 < 2 ^ 64 := by omega
    unfold Wrapping.mergeEntries at hrun
    simp only [h.spans.lastLogIndex, h.spans.wrapping_termAt (show l'.length < 2 ^ 64 by omega), ht,
      hnext, Option.bind_eq_bind, Option.bind_some] at hrun
    by_cases hc : p + 1 ≤ l'.length ∧ t ≠ e.term
    · rw [if_pos hc] at hrun
      obtain ⟨pos, hpos, hrun⟩ := Option.bind_eq_some_iff.mp hrun
      obtain ⟨log, hlog, hrun⟩ := Option.bind_eq_some_iff.mp hrun
      simp only [pure, Option.bind_some] at hrun
      rcases Nat.lt_or_ge b' (p + 1) with hb | hb
      · rw [h.spans.wrapping_logPos hb.le (by omega)] at hpos
        rw [← Option.some.inj hpos, h.spans.logTo hb (by omega)] at hlog
        obtain rfl := Option.some.inj hlog
        have hcut : Spans { r with
            log := window (l'.take (p + 1 - 1)) b'
            unstableIndex := if p + 1 < r.unstableIndex then p + 1 else r.unstableIndex }
            (l'.take (p + 1 - 1)) b' :=
          ⟨rfl, by rw [List.length_take]; omega, h.spans.indexed.of_isPrefix (List.take_prefix _ _)⟩
        rw [hcut.lastLogIndex, Option.bind_some, if_pos (by rw [List.length_take]; omega)] at hrun
        have hnew : Bounded (l'.take (p + 1 - 1) ++ [e]) :=
          (hl.take _).append (by rw [List.length_take, List.length_singleton]; omega)
            fun x hx => by rwa [List.mem_singleton.mp hx]
        have hres := ih (h.replaced hb hc.1 he) hnew
          (by rw [List.length_append, List.length_take, List.length_singleton]; omega)
            hlen' htes hes
          hrun
        exact hres
      · -- the cut is at the sentinel, and leaves nothing, or at a position outside the log
        exfalso
        obtain rfl := h.spans.wrapping_logTo_nil hllen (Nat.succ_pos p) hb hpos hlog
        simp [Raft.lastLogIndex] at hrun
    · rw [if_neg hc] at hrun
      simp only [pure, Option.bind_some, h.spans.lastLogIndex] at hrun
      by_cases hend : l'.length < p + 1
      · rw [if_pos hend] at hrun
        have hpe : l'.length = p := by omega
        have hi : Indexed (l' ++ [e]) := h.spans.indexed.concat (by rw [he, hpe]; omega)
        have hnew : Bounded (l' ++ [e]) :=
          hl.append (by rw [List.length_singleton]; omega)
            fun x hx => by rwa [List.mem_singleton.mp hx]
        have hres := ih (h.appended hi) hnew
          (by rw [List.length_append, hpe, List.length_singleton]) hlen' htes hes hrun
        exact hres
      · rw [if_neg hend] at hrun
        exact ih h hl (by omega) hlen' htes hes hrun

/-- A log of `k` entries of term `t`. -/
def filler (t k : ℕ) : List LogEntry := (List.range k).map fun i => ⟨t, i + 1, []⟩

theorem indexed_filler (t k : ℕ) : Indexed (filler t k) := by
  intro i hi
  simp [filler]

theorem termAt_filler {t k : ℕ} (hk : 0 < k) : termAt LogEntry.term (filler t k) k = t := by
  obtain ⟨j, rfl⟩ : ∃ j, k = j + 1 := ⟨k - 1, by omega⟩
  rw [termAt_eq_getElem LogEntry.term (by simp [filler])]
  simp [filler]

theorem bounded_filler {t k : ℕ} (ht : t < 2 ^ 64) (hk : k + 1 < 2 ^ 64) :
    Bounded (filler t k) where
  length_lt := by simpa [filler] using hk
  term_lt e he := by
    obtain ⟨i, -, rfl⟩ := List.mem_map.mp he
    exact ht

/-- The log is replaced by the sentinel of a snapshot above the boundary. -/
theorem installed (h : Unsaved d hs l b r l' b') {snap : Snapshot}
    (hlt : b' < snap.lastIncludedIndex) (hd :
      r'.durable = ([⟨snap.lastIncludedTerm, snap.lastIncludedIndex, []⟩], snap,
        snap.lastIncludedIndex + 1, r.stableTerm, r.stableVote, r.stableSnapshotIndex)) :
    Unsaved d hs l b r' (filler snap.lastIncludedTerm snap.lastIncludedIndex)
      snap.lastIncludedIndex := by
  simp only [Raft.durable, Prod.mk.injEq] at hd
  obtain ⟨hlog, hsnap, hunst, hst, hsv, hss⟩ := hd
  have hlen : (filler snap.lastIncludedTerm snap.lastIncludedIndex).length =
      snap.lastIncludedIndex := by
    simp [filler]
  have hterm :=
    termAt_filler (t := snap.lastIncludedTerm) (show 0 < snap.lastIncludedIndex by omega)
  have hne : snap.lastIncludedIndex ≠ b := by have := h.le; omega
  exact
    { holds := h.holds
      spans :=
        { log_eq := by rw [hlog, window, List.drop_of_length_le hlen.le, boundary, hterm]
          le := hlen.ge
          indexed := indexed_filler _ _ }
      snap_index := by rw [hsnap]
      snap_term := by rw [hsnap, hterm]
      stable_term := hst.trans h.stable_term
      stable_vote := hsv.trans h.stable_vote
      stable_snap := hss.trans h.stable_snap
      le := h.le.trans hlt.le
      lt_unstable := by rw [hunst]; omega
      unstable_le := by rw [hunst, hlen]
      take_eq := fun hbb => absurd hbb hne
      eq_of_lt := fun hbb => absurd hbb hne }

/-- `CreateSnapshot` moves the boundary up within the log. -/
theorem compacted (h : Unsaved d hs l b r l' b') {index : ℕ} {data : Bytes}
    (hrun : r.createSnapshot index data = some (r', .ok ())) :
    b' < index ∧ Unsaved d hs l b r' l' index := by
  rcases h.spans.createSnapshot hrun with ⟨-, e, herr⟩ | ⟨hb, -, hle, rfl⟩
  · cases herr
  have hne : index ≠ b := by have := h.le; omega
  have hu := h.unstable_le
  refine ⟨hb, ?_⟩
  exact
    { holds := h.holds
      spans := ⟨rfl, hle, h.spans.indexed⟩
      snap_index := rfl
      snap_term := rfl
      stable_term := h.stable_term
      stable_vote := h.stable_vote
      stable_snap := h.stable_snap
      le := h.le.trans hb.le
      lt_unstable := by
        show index < if r.unstableIndex ≤ index then index + 1 else r.unstableIndex
        split_ifs <;> omega
      unstable_le := by
        show (if r.unstableIndex ≤ index then index + 1 else r.unstableIndex) ≤ _
        split_ifs <;> omega
      take_eq := fun hbb => absurd hbb hne
      eq_of_lt := fun hbb => absurd hbb hne }

theorem length_entriesFrom {t k : ℕ} {datas : List Bytes} :
    (entriesFrom t k datas).length = datas.length := by
  induction datas generalizing k with
  | nil => rfl
  | cons d ds ih => rw [entriesFrom, List.length_cons, List.length_cons, ih]

/-- **Every call keeps the relation between memory and disk.** -/
theorem changed (h : Unsaved d hs l b r l' b') (hl : Bounded l') (hr : r.Uint64) {op : Op}
    (hop : op.Consecutive) (hw : op.Uint64) (hlow : op.Below r) (hc : Wrapping.Change r op r') :
    ∃ l'' b'', Unsaved d hs l b r' l'' b'' ∧ Bounded l'' ∧ r'.Uint64 ∧ b' ≤ b'' ∧
      (b'' = b' → r'.snapshot = r.snapshot) := by
  have hsnap : ∀ {r₁ r₂ : Raft}, r₁.durable = r₂.durable → r₁.snapshot = r₂.snapshot := fun hd =>
    congrArg (fun p => p.2.1) hd
  have hllen := hl.length_lt
  cases hc with
  | kept hk =>
    exact ⟨l', b', h.congr hk.durable, hl, hk.uint64 hr, le_rfl, fun _ => hsnap hk.durable⟩
  | @merged m r₁ r₂ _ _ hty hstart hlast hprev hrun hfinish =>
    have h₁ := h.congr hstart.durable
    rw [h₁.spans.lastLogIndex] at hlast
    obtain rfl := Option.some.inj hlast
    have hlen : m.prevLogIndex + m.entries.length + 1 < 2 ^ 64 := by
      rcases Nat.eq_zero_or_pos m.entries.length with hz | hz
      · omega
      · have hlast := hlow.1 hty _ (List.getElem_mem (Nat.sub_lt hz one_pos))
        rw [hop hty] at hlast
        omega
    rw [Wrapping.add_of_lt (by omega)] at hrun
    obtain ⟨l'', h₂, hl'', hkeep, hu⟩ := h₁.mergeEntries hl hprev hlen hw.2.2.1 (hop hty) hrun
    exact ⟨l'', b', h₂.congr hfinish.durable, hl'', hfinish.uint64 (hu (hstart.uint64 hr)), le_rfl,
      fun _ => (hsnap hfinish.durable).trans (hkeep.trans (hsnap hstart.durable))⟩
  | @installed m _ first hty hfirst hlt hdur hu =>
    rw [h.spans.firstIndex] at hfirst
    obtain rfl := Option.some.inj hfirst
    rw [Wrapping.add_of_lt (hlow.2 hty)] at hdur
    exact ⟨_, m.snapshot.lastIncludedIndex, h.installed hlt hdur,
      bounded_filler hw.2.2.2 (hlow.2 hty), hu hr, hlt.le, fun heq => absurd heq hlt.ne'⟩
  | @proposed datas _ _ _ hrole hrun hfinish =>
    have hlen : l'.length + datas.length + 1 < 2 ^ 64 := hlow hrole _ h.spans.lastLogIndex
    obtain ⟨happ, hi⟩ := h.spans.appendDatas datas
    rw [h.spans.wrapping_appendDatas hlen, happ] at hrun
    obtain ⟨rfl, -⟩ := Prod.mk.inj (Option.some.inj hrun)
    have hnew : Bounded (l' ++ entriesFrom r.currentTerm l'.length datas) :=
      hl.append (by rwa [length_entriesFrom]) fun e he => by
        rw [entriesFrom_term e he]; exact hr.2.1
    exact ⟨_, b', (h.appended hi).congr hfinish.durable, hnew, hfinish.uint64 hr, le_rfl,
      fun _ => (hsnap hfinish.durable).trans rfl⟩
  | @compacted index _ _ hrun =>
    rw [h.spans.wrapping_createSnapshot (by omega) hlow] at hrun
    obtain ⟨hlt, h'⟩ := h.compacted hrun
    have hu : r'.Uint64 := by
      rcases Raft.createSnapshot_eq hrun with ⟨rfl, -⟩ | ⟨-, log, u, snap, rfl⟩ <;> exact hr
    exact ⟨l', index, h', hl, hu, hlt.le, fun heq => absurd heq hlt.ne'⟩

/-! ## `Persist` without wrapping -/

theorem wrapping_ready (h : Unsaved d hs l b r l' b') (hl : Bounded l') :
    Wrapping.ready r = r.ready := by
  have hllen := hl.length_lt
  have hu := h.unstable_le
  simp only [Wrapping.ready, Raft.ready, h.spans.logPos,
    h.spans.wrapping_logPos h.lt_unstable.le (show r.unstableIndex < 2 ^ 64 by omega)]

theorem wrapping_save (h : Unsaved d hs l b r l' b') (hl : Bounded l') (rd : Ready) :
    Wrapping.save r rd = (⟨r, d⟩ : Node).save rd := by
  unfold Wrapping.save Node.save
  cases rd.snapshot with
  | none => rfl
  | some snap => simp only [h.spans.wrapping_entries hl.length_lt]

theorem wrapping_advance (h : Unsaved d hs l b r l' b') (hl : Bounded l') :
    Wrapping.advance r = r.advance := by
  simp only [Wrapping.advance, Raft.advance, h.spans.lastLogIndex, Option.bind_eq_bind,
    Option.bind_some, Wrapping.add_of_lt hl.length_lt]

/-- What is written has 64-bit numbers. -/
theorem saving_small (h : Unsaved d hs l b r l' b') (hl : Bounded l') (hr : r.Uint64) :
    ∀ rec ∈ (saving r l' b b').records, rec.Small := by
  have hllen := hl.length_lt
  have hentry : ∀ e ∈ l', (Record.logEntry e).Small := by
    intro e he
    obtain ⟨i, hi, rfl⟩ := List.mem_iff_getElem.mp he
    exact ⟨hl.term_lt _ he, by rw [h.spans.indexed i hi]; omega⟩
  have hentries : ∀ k, ∀ rec ∈ (l'.drop k).map Record.logEntry, rec.Small := by
    intro k rec hrec
    obtain ⟨e, he, rfl⟩ := List.mem_map.mp hrec
    exact hentry e (List.mem_of_mem_drop he)
  have hsnap : (Record.snapshot r.snapshot).Small := by
    have hle := h.spans.le
    refine ⟨by rw [h.snap_index]; omega, by rw [h.snap_term]; exact hl.termAt_lt _⟩
  intro rec hrec
  unfold saving at hrec
  split_ifs at hrec
  · rcases List.mem_cons.mp hrec with rfl | hrec
    · exact hr.2
    rcases List.mem_cons.mp hrec with rfl | hrec
    · exact hsnap
    · exact hentries _ rec hrec
  · rcases List.mem_append.mp hrec with hrec | hrec
    · unfold hsRecords saveHardState at hrec
      split_ifs at hrec
      · rw [List.mem_singleton.mp hrec]
        exact hr.2
      · cases hrec
    · unfold saveEntries at hrec
      split_ifs at hrec
      · cases hrec
      rcases List.mem_cons.mp hrec with rfl | hrec
      · have hu := h.unstable_le
        show r.unstableIndex < 2 ^ 64
        omega
      · exact hentries _ rec hrec

theorem ready_unstable (h : Unsaved d hs l b r l' b') (hu : r.unstableIndex ≤ l'.length)
    {rd : Ready} (hrd : r.ready = some rd) :
    rd.firstUnstableIndex = r.unstableIndex ∧
      rd.unstableEntries = l'.drop (r.unstableIndex - 1) := by
  simp only [Raft.ready, h.spans.lastLogIndex, Option.bind_eq_bind, Option.bind_some,
    h.spans.logPos, hu, if_true, h.spans.logFrom h.lt_unstable h.unstable_le, pure] at hrd
  obtain rfl := Option.some.inj hrd
  exact ⟨rfl, rfl⟩

end Unsaved

/-! ## Snapshots on disk -/

/-- A storage without a snapshot has the zero one. -/
def Plain (d : List Record) : Prop :=
  (replayAll d).snap.lastIncludedIndex = 0 → (replayAll d).snap = {}

theorem openNode_snapshot {cfg : Config} {d : List Record} {nd : Node} {out : Option Snapshot}
    (h : openNode cfg d = .ok (some (nd, out))) (hd : Plain d) :
    nd.r.snapshot = (replayAll d).snap := by
  obtain ⟨r, hr, hcases⟩ := openNode_cases h
  obtain ⟨log, first, u, rfl, -⟩ := Raft.restoreState_eq hr
  rcases hcases with ⟨hzero, rfl, -⟩ | ⟨-, -, rfl⟩
  · rw [hd hzero]
    rfl
  · rfl

/-- A log that ends below index `2 ^ 64 - 1` is restored as by `Core.lean`. -/
theorem Holds.wrapping_openNode {cfg : Config} {d : List Record} {hs : HardState}
    {l : List LogEntry} {b : ℕ} (h : Holds d hs l b) (hl : l.length + 1 < 2 ^ 64) :
    Wrapping.openNode cfg d = KvStore.openNode cfg d := by
  have hrestore : ∀ r : Raft,
      Wrapping.restoreState r hs (window l b) = r.restoreState hs (window l b) := by
    intro r
    have hsp : ∀ r' : Raft, r'.log = window l b → Spans r' l b := fun r' hr =>
      ⟨hr, h.le, h.indexed⟩
    have hne : window l b ≠ [] := List.cons_ne_nil _ _
    simp only [Wrapping.restoreState, Raft.restoreState, hne, if_false, Option.bind_eq_bind, pure]
    rw [(hsp _ rfl).firstIndex, Option.bind_some, (hsp _ rfl).lastLogIndex, Option.bind_some,
      Wrapping.add_of_lt hl, Option.bind_some, (hsp _ rfl).lastLogIndex, Option.bind_some]
  simp only [Wrapping.openNode, KvStore.openNode, h.openStorage, hrestore]

namespace Unsaved

variable {d : List Record} {hs : HardState} {l l' : List LogEntry} {b b' : ℕ} {r r' : Raft}

theorem appending_plain (r : Raft) (es : List LogEntry) :
    ∀ rec ∈ hsRecords r ++ saveEntries r.unstableIndex es, ∀ snap, rec ≠ .snapshot snap := by
  intro rec hrec snap heq
  subst heq
  unfold hsRecords saveHardState saveEntries at hrec
  split_ifs at hrec <;> simp at hrec

/-- A `Persist` that completes has saved the node's snapshot. -/
theorem snap_run (h : Unsaved d hs l b r l' b') (hsnap : b' = b → r.snapshot = (replayAll d).snap) :
    (replayAll ((saving r l' b b').run d)).snap = r.snapshot := by
  unfold saving
  split_ifs with hb
  · rw [Save.run, replayAll, saveSnapshot, List.foldl_cons, List.foldl_cons, foldl_replay_logEntry]
    rfl
  · rw [hsnap (by have := h.le; omega), Save.run, replayAll_append]
    exact foldl_replay_snap (appending_plain r _) _

end Unsaved

/-- The log of a window, cut below an index and continued. -/
theorem window_filter_append {l l' : List LogEntry} {b u : ℕ} (hb : b < u) (hi : Indexed l)
    (htake : l'.take (u - 1) = l.take (u - 1)) (hlen : u - 1 ≤ l'.length) (j : ℕ) :
    window (l'.take (u - 1 + j)) b =
      (window l b).filter (fun e => e.index < u) ++ (l'.drop (u - 1)).take j := by
  have hterm : termAt LogEntry.term (l'.take (u - 1 + j)) b = termAt LogEntry.term l b := by
    rw [termAt_take LogEntry.term (by omega), ← termAt_take LogEntry.term (show b ≤ u - 1 by omega),
      htake, termAt_take LogEntry.term (by omega)]
  have hsen : decide ((boundary l b).index < u) = true := decide_eq_true hb
  rw [window, window, boundary, hterm, List.filter_cons, if_pos hsen, (hi.drop b).filter_lt,
    Nat.zero_add, List.cons_append, List.take_add,
      List.drop_append_of_le_length (by rw [List.length_take]; omega), htake,
    List.drop_take, boundary]

/-! ## A node and its file -/

/-- What can happen to a node with its file. -/
inductive NodeAction
  | call (op : Op)
  | persist
  /-- The process dies and is started again. -/
  | crash
  /-- The process dies inside `Persist` and is started again. -/
  | crashIn (k : ℕ)
  deriving DecidableEq

namespace FileNode

/-- A node is opened on a file. -/
def reopen (cfg : Config) (file : Bytes) : Option FileNode :=
  match openFileNode cfg file with
  | .ok (some (n, _)) => some n
  | _ => none

/-- One action; a call that panics is none. -/
def step (cfg : Config) (n : FileNode) : NodeAction → Option FileNode
  | .call op => (Wrapping.run op n.r).map fun r => { n with r := r }
  | .persist => n.persist.map Prod.fst
  | .crash => reopen cfg n.storage.file
  | .crashIn k => (n.persistCut k).bind (reopen cfg)

/-- The payloads that the write-ahead log makes of what `Persist` is about to write are shorter than
`2 ^ 32` bytes. -/
def SaveFits (n : FileNode) : Prop :=
  ∀ rd save, n.saving = some (rd, save) → ∀ rec ∈ save.records, 17 + rec.value.length < 2 ^ 32

/-- The entries of an `AppendEntries` are consecutive, and what is written fits. -/
def Proper (n : FileNode) : NodeAction → Prop
  | .call op => op.Consecutive ∧ op.Uint64
  | .persist => n.SaveFits
  | .crash => True
  | .crashIn _ => n.SaveFits

/-- No index reaches `2 ^ 64 - 1`. -/
def InRange (n : FileNode) : NodeAction → Prop
  | .call op => op.Below n.r
  | .persist | .crash | .crashIn _ => True

instance (n : FileNode) : Decidable n.SaveFits :=
  decidable_of_iff (∀ p ∈ n.saving, ∀ rec ∈ p.2.records, 17 + rec.value.length < 2 ^ 32)
    ⟨fun h rd save hsave => h (rd, save) hsave, fun h p hp => h p.1 p.2 hp⟩

instance (n : FileNode) : ∀ a, Decidable (n.Proper a)
  | .call _ => inferInstanceAs (Decidable (_ ∧ _))
  | .persist | .crashIn _ => inferInstanceAs (Decidable n.SaveFits)
  | .crash => .isTrue trivial

instance (n : FileNode) : ∀ a, Decidable (n.InRange a)
  | .call op => inferInstanceAs (Decidable (op.Below n.r))
  | .persist | .crash | .crashIn _ => .isTrue trivial

theorem exists_of_reopen {cfg : Config} {file : Bytes} {n : FileNode}
    (h : reopen cfg file = some n) : ∃ out, openFileNode cfg file = .ok (some (n, out)) := by
  unfold reopen at h
  split at h
  · rename_i n₁ out hopen
    obtain rfl := Option.some.inj h
    exact ⟨out, hopen⟩
  · cases h

/-- The file shows records that stand in the relation of memory and disk to the node. -/
structure Tracked (n : FileNode) (d : List Record) (hs : HardState) (l : List LogEntry) (b : ℕ)
    (l' : List LogEntry) (b' : ℕ) : Prop where
  stores : n.storage.Stores d
  unsaved : Unsaved d hs l b n.r l' b'
  snap : b' = b → n.r.snapshot = (replayAll d).snap
  plain : Plain d
  uint64 : n.r.Uint64
  hard : hs.term < 2 ^ 64 ∧ hs.vote < 2 ^ 64
  memory : Bounded l'
  disk : Bounded l

/-- `OpenNode` on the file gives a node with this hard state, log and snapshot. -/
def Recovers (cfg : Config) (file : Bytes) (hs : HardState) (log : List LogEntry)
    (snap : Snapshot) : Prop :=
  ∃ n out, openFileNode cfg file = .ok (some (n, out)) ∧ n.r.currentTerm = hs.term ∧
    n.r.votedFor = hs.vote ∧ n.r.log = log ∧ n.r.snapshot = snap

end FileNode

variable {cfg : Config} {d : List Record} {hs : HardState} {l l' : List LogEntry} {b b' : ℕ}

/-- A node that was just opened has nothing to save. -/
theorem Reopened.unsaved {r : Raft} (h : Reopened cfg hs l b r) (hd : Holds d hs l b) :
    Unsaved d hs l b r l b where
  holds := hd
  spans := h.spans
  snap_index := h.snap_index
  snap_term := h.snap_term
  stable_term := h.stable_term
  stable_vote := h.stable_vote
  stable_snap := h.stable_snap
  le := le_rfl
  lt_unstable := by rw [h.unstable_eq]; exact Nat.lt_succ_of_le hd.le
  unstable_le := h.unstable_eq.le
  take_eq := fun _ => rfl
  eq_of_lt := fun _ _ => rfl

/-- **A node opens on every file that shows a hard state and a log**, and finds them. -/
theorem Shows.reopens {file : Bytes} (hcfg : cfg.validate = .ok ()) (hid : cfg.id < 2 ^ 64)
    (hfile : Shows file d) (hd : Holds d hs l b) (hplain : Plain d)
    (hhard : hs.term < 2 ^ 64 ∧ hs.vote < 2 ^ 64) (hl : Bounded l) :
    (∃ n, FileNode.reopen cfg file = some n ∧ n.Tracked d hs l b l b) ∧
      FileNode.Recovers cfg file hs (window l b) (replayAll d).snap := by
  obtain ⟨nd, out, hopen, -, hr⟩ := hd.openNode hcfg
  have hsnap := openNode_snapshot hopen hplain
  rw [← hd.wrapping_openNode hl.length_lt] at hopen
  obtain ⟨s, hfopen, hs⟩ := hfile.openFileNode hopen
  have huint : nd.r.Uint64 := by
    rw [Raft.Uint64, hr.id_eq, hr.term_eq, hr.vote_eq]
    exact ⟨hid, hhard⟩
  refine ⟨⟨⟨nd.r, s⟩, ?_, hs, hr.unsaved hd, fun _ => hsnap, hplain, huint, hhard, hl, hl⟩,
    ⟨nd.r, s⟩, out, hfopen, hr.term_eq, hr.vote_eq, hr.spans.log_eq, hsnap⟩
  rw [FileNode.reopen, hfopen]

/-- How a log and snapshot found after a crash inside `Persist` relate to those before it. -/
inductive FileNode.Outcome (n : FileNode) (log : List LogEntry) (snap : Snapshot) :
    List LogEntry → Snapshot → Prop
  | old : Outcome n log snap log snap
  | partly (rd : Ready) (ready : Wrapping.ready n.r = some rd) (j : ℕ) :
    Outcome n log snap
      (log.filter (fun e => e.index < rd.firstUnstableIndex) ++ rd.unstableEntries.take j) snap
  | new : Outcome n log snap n.r.log n.r.snapshot

namespace FileNode.Tracked

variable {n n' : FileNode}

theorem recovers (h : n.Tracked d hs l b l' b') (hcfg : cfg.validate = .ok ())
    (hid : cfg.id < 2 ^ 64) :
    Recovers cfg n.storage.file hs (window l b) (replayAll d).snap :=
  (h.stores.shows.reopens hcfg hid h.unsaved.holds h.plain h.hard h.disk).2

theorem saving (h : n.Tracked d hs l b l' b') : ∃ rd, n.r.ready = some rd ∧
    (⟨n.r, d⟩ : Node).save rd = some (Unsaved.saving n.r l' b b') ∧
    n.saving = some (rd, Unsaved.saving n.r l' b b') := by
  obtain ⟨rd, hrd, -, -, -, hsave⟩ := h.unsaved.ready
  refine ⟨rd, hrd, hsave, ?_⟩
  simp only [FileNode.saving, h.unsaved.wrapping_ready h.memory, hrd,
    h.unsaved.wrapping_save h.memory, hsave, Option.bind_eq_bind, Option.bind_some, pure]

/-- What is about to be written fits. -/
theorem fits (h : n.Tracked d hs l b l' b') (hfits : n.SaveFits) :
    ∀ rec ∈ (Unsaved.saving n.r l' b b').records, rec.Fits := by
  obtain ⟨rd, -, -, hsave⟩ := h.saving
  exact fun rec hrec =>
    ⟨h.unsaved.saving_small h.memory h.uint64 rec hrec, hfits rd _ hsave rec hrec⟩

theorem call (h : n.Tracked d hs l b l' b') {op : Op} (hop : op.Consecutive ∧ op.Uint64)
    (hlow : op.Below n.r) {r : Raft} (hrun : Wrapping.run op n.r = some r) :
    ∃ l'' b'', Tracked { n with r := r } d hs l b l'' b'' := by
  obtain ⟨l'', b'', hun, hl'', hu, hle, hsnap⟩ :=
    h.unsaved.changed h.memory h.uint64 hop.1 hop.2 hlow (Wrapping.run_change hop.2 hrun)
  refine ⟨l'', b'', h.stores, hun, fun heq => ?_, h.plain, hu, h.hard, hl'', h.disk⟩
  have hb : b'' = b' := by have := h.unsaved.le; omega
  rw [hsnap hb]
  exact h.snap (hb.symm.trans heq)

/-- **A `Persist` completes**, and the file then shows the node's own state. -/
theorem persist (h : n.Tracked d hs l b l' b') (hfits : n.SaveFits) : ∃ n' rd d',
    n.persist = some (n', rd) ∧ n'.Tracked d' (Unsaved.hardState n.r) l' b' l' b' ∧
      n'.r.log = n.r.log ∧ (replayAll d').snap = n.r.snapshot := by
  obtain ⟨rd, hrd, hsaved, hsave⟩ := h.saving
  obtain ⟨d', rd', hp, -, -, -, hholds⟩ := h.unsaved.persist
  have hd' : d' = (Unsaved.saving n.r l' b b').run d := by
    simp only [Node.persist, hrd, hsaved, Option.bind_eq_bind, Option.bind_some] at hp
    obtain ⟨r, -, hp⟩ := Option.bind_eq_some_iff.mp hp
    obtain ⟨hnd, -⟩ := Prod.mk.inj (Option.some.inj hp)
    exact (congrArg Node.storage hnd).symm
  have hadv := (Node.persist_cases hp).1
  have hsnap := h.unsaved.snap_run h.snap
  rw [← hd'] at hsnap
  have hplain : Plain d' := by
    intro h0
    rw [hsnap] at h0 ⊢
    rw [h.unsaved.snap_index] at h0
    have hb : b' = b := by have := h.unsaved.le; omega
    rw [h.snap hb]
    exact h.plain (by rw [h.unsaved.holds.snap_index]; omega)
  have hpersist : n.persist = some (⟨{ n.r with
      stableTerm := n.r.currentTerm
      stableVote := n.r.votedFor
      unstableIndex := l'.length + 1
      stableSnapshotIndex := b'
      pendingSnapshotToApply := none
      msgs := []
      readStates := [] }, n.storage.save (Unsaved.saving n.r l' b b')⟩, rd) := by
    simp only [FileNode.persist, hsave, h.unsaved.wrapping_advance h.memory, hadv,
      Option.bind_eq_bind, Option.bind_some, pure]
  refine ⟨_, rd, d', hpersist, ⟨?_, ?_, fun _ => hsnap.symm, hplain, h.uint64, h.uint64.2, h.memory,
    h.memory⟩, rfl, hsnap⟩
  · rw [hd']
    exact h.stores.save (h.fits hfits)
  · have hle := h.unsaved.spans.le
    exact
      { holds := hholds
        spans := ⟨h.unsaved.spans.log_eq, hle, h.unsaved.spans.indexed⟩
        snap_index := h.unsaved.snap_index
        snap_term := h.unsaved.snap_term
        stable_term := rfl
        stable_vote := rfl
        stable_snap := rfl
        le := le_rfl
        lt_unstable := Nat.lt_succ_of_le hle
        unstable_le := le_rfl
        take_eq := fun _ => rfl
        eq_of_lt := fun _ _ => rfl }

/-- **A `Persist` that is cut at any byte** leaves the old or the new hard state, with the log of
one of the outcomes. -/
theorem persistCut (h : n.Tracked d hs l b l' b') (hfits : n.SaveFits) (k : ℕ) :
    ∃ file d' hs' l₁ b₁, n.persistCut k = some file ∧ Shows file d' ∧ Holds d' hs' l₁ b₁ ∧
      Plain d' ∧ Bounded l₁ ∧ (hs' = hs ∨ hs' = Unsaved.hardState n.r) ∧
      n.Outcome (window l b) (replayAll d).snap (window l₁ b₁) (replayAll d').snap := by
  obtain ⟨rd, hrd, hsaved, hsave⟩ := h.saving
  obtain ⟨j, hshows⟩ := h.stores.cut (h.fits hfits) k
  have hcut : n.persistCut k = some (n.storage.cut k (Unsaved.saving n.r l' b b')) := by
    simp only [FileNode.persistCut, hsave, Option.bind_eq_bind, Option.bind_some, pure]
  have hold : ∀ {d'}, (replayAll d').snap = (replayAll d).snap → Plain d' := fun heq => by
    unfold Plain
    rw [heq]
    exact h.plain
  have hlog : window l' b' = n.r.log := h.unsaved.spans.log_eq.symm
  by_cases hb : b < b'
  · -- the file is replaced, or it is not
    have hd' : Save.cut d j (Unsaved.saving n.r l' b b') =
        if j = 0 then d else saveSnapshot (Unsaved.hardState n.r) n.r.snapshot (l'.drop b') := by
      rw [Unsaved.saving, if_pos hb, Save.cut]
    rw [hd'] at hshows
    split_ifs at hshows with hj
    · exact ⟨_, d, hs, l, b, hcut, hshows, h.unsaved.holds, h.plain, h.disk, Or.inl rfl, .old⟩
    · have hsnap := h.unsaved.snap_run h.snap
      rw [Unsaved.saving, if_pos hb, Save.run] at hsnap
      refine ⟨_, _, _, l', b', hcut, hshows, h.unsaved.holds_snapshot, fun h0 => ?_, h.memory,
        Or.inr rfl, ?_⟩
      · rw [hsnap, h.unsaved.snap_index] at h0
        omega
      · rw [hlog, hsnap]
        exact .new
  · have hbb : b' = b := by have := h.unsaved.le; omega
    obtain ⟨d', hd', hcases⟩ := h.unsaved.persistCut j
    simp only [Node.persistCut, hrd, hsaved, Option.bind_eq_bind, Option.bind_some, pure] at hd'
    obtain rfl := Option.some.inj hd'
    have hsnap : (replayAll (Save.cut d j (Unsaved.saving n.r l' b b'))).snap =
        (replayAll d).snap := by
      rw [Unsaved.saving, if_neg hb, Save.cut, replayAll_append]
      exact foldl_replay_snap (fun rec hrec =>
        Unsaved.appending_plain n.r _ rec (List.mem_of_mem_take hrec)) _
    rcases hcases with hh | ⟨-, hh⟩ | hh | ⟨-, hu, i, hui, hil, hh⟩
    · refine ⟨_, _, hs, l, b, hcut, hshows, hh, hold hsnap, h.disk, Or.inl rfl, ?_⟩
      rw [hsnap]
      exact .old
    · refine ⟨_, _, _, l, b, hcut, hshows, hh, hold hsnap, h.disk, Or.inr rfl, ?_⟩
      rw [hsnap]
      exact .old
    · refine ⟨_, _, _, l', b', hcut, hshows, hh, hold hsnap, h.memory, Or.inr rfl, ?_⟩
      rw [hsnap, hlog, ← h.snap hbb]
      exact .new
    · obtain ⟨hfirst, hes⟩ := h.unsaved.ready_unstable hu hrd
      refine ⟨_, _, _, l'.take i, b, hcut, hshows, hh, hold hsnap, h.memory.take i, Or.inr rfl, ?_⟩
      have hw :=
        window_filter_append (b := b) (u := n.r.unstableIndex) (j := i - (n.r.unstableIndex - 1))
        (by have := h.unsaved.lt_unstable; omega) h.unsaved.holds.indexed (h.unsaved.take_eq hbb)
          (by omega)
      rw [Nat.add_sub_cancel' hui] at hw
      rw [hsnap, hw, ← hes, ← hfirst]
      exact .partly rd ((h.unsaved.wrapping_ready h.memory).trans hrd) _

/-- The hard state that is found has 64-bit numbers. -/
theorem hard_of_cut (h : n.Tracked d hs l b l' b') {hs' : HardState}
    (hhs : hs' = hs ∨ hs' = Unsaved.hardState n.r) : hs'.term < 2 ^ 64 ∧ hs'.vote < 2 ^ 64 := by
  rcases hhs with rfl | rfl
  · exact h.hard
  · exact h.uint64.2

/-- **Every action keeps the relation.** -/
theorem step (hcfg : cfg.validate = .ok ()) (hid : cfg.id < 2 ^ 64) (h : n.Tracked d hs l b l' b')
    {a : NodeAction} (ha : n.Proper a ∧ n.InRange a) (hstep : n.step cfg a = some n') :
    ∃ d₁ hs₁ l₁ b₁ l₂ b₂, n'.Tracked d₁ hs₁ l₁ b₁ l₂ b₂ := by
  cases a with
  | call op =>
    obtain ⟨r, hrun, rfl⟩ := Option.map_eq_some_iff.mp hstep
    obtain ⟨l'', b'', h'⟩ := h.call ha.1 ha.2 hrun
    exact ⟨d, hs, l, b, l'', b'', h'⟩
  | persist =>
    obtain ⟨⟨n₁, rd⟩, hp, rfl⟩ := Option.map_eq_some_iff.mp hstep
    obtain ⟨n₂, rd₂, d', hp', h', -, -⟩ := h.persist ha.1
    rw [hp] at hp'
    obtain ⟨rfl, -⟩ := Prod.mk.inj (Option.some.inj hp')
    exact ⟨_, _, _, _, _, _, h'⟩
  | crash =>
    obtain ⟨n₁, hopen, h'⟩ :=
      (h.stores.shows.reopens hcfg hid h.unsaved.holds h.plain h.hard h.disk).1
    have hstep' : reopen cfg n.storage.file = some n' := hstep
    rw [hopen] at hstep'
    obtain rfl := Option.some.inj hstep'
    exact ⟨_, _, _, _, _, _, h'⟩
  | crashIn k =>
    obtain ⟨file, d', hs', l₁, b₁, hcut, hshows, hholds, hplain, hl₁, hhs, -⟩ := h.persistCut ha.1 k
    obtain ⟨n₁, hopen, h'⟩ := (hshows.reopens hcfg hid hholds hplain (h.hard_of_cut hhs) hl₁).1
    have hstep' : (n.persistCut k).bind (reopen cfg) = some n' := hstep
    rw [hcut, Option.bind_some, hopen] at hstep'
    obtain rfl := Option.some.inj hstep'
    exact ⟨_, _, _, _, _, _, h'⟩

end FileNode.Tracked

/-- A node that was opened has a valid configuration. -/
theorem validate_of_openFileNode {file : Bytes} {n : FileNode} {out : Option Snapshot}
    (h : openFileNode cfg file = .ok (some (n, out))) : cfg.validate = .ok () := by
  unfold openFileNode at h
  cases hrecs : fileRecords file with
  | none => rw [hrecs] at h; cases h
  | some recs =>
    rw [hrecs] at h
    cases hv : cfg.validate with
    | ok u => rfl
    | error e =>
      have hopen : Wrapping.openNode cfg recs = .error e := by
        simp [Wrapping.openNode, Raft.new, hv, bind, Except.bind]
      simp only [hopen] at h
      cases h

theorem FileNode.tracked {n₀ n : FileNode} {out : Option Snapshot} {as : List NodeAction}
    (hopen : openFileNode cfg [] = .ok (some (n₀, out))) (hid : cfg.id < 2 ^ 64)
    (hproper : Along (FileNode.step cfg) (fun n a => n.Proper a ∧ n.InRange a) n₀ as)
    (hrun : exec (FileNode.step cfg) n₀ as = some n) :
    ∃ d hs l b l' b', n.Tracked d hs l b l' b' := by
  have hcfg := validate_of_openFileNode hopen
  obtain ⟨n₁, hopen₁, h₁⟩ := (shows_nil.reopens hcfg hid holds_nil (fun _ => rfl)
    ⟨Nat.two_pow_pos 64, Nat.two_pow_pos 64⟩ Bounded.nil).1
  rw [FileNode.reopen, hopen] at hopen₁
  obtain rfl := Option.some.inj hopen₁
  refine exec_induct (I := fun n : FileNode => ∃ d hs l b l' b', n.Tracked d hs l b l' b') ?_
    ⟨_, _, _, _, _, _, h₁⟩ hproper hrun
  rintro n a n' ⟨d, hs, l, b, l', b', h⟩ ha hstep
  exact h.step hcfg hid ha hstep

/-- The entries after the first have the indices that follow its own. -/
def Contiguous : List LogEntry → Prop
  | [] => False
  | e :: es => IndexedFrom e.index es

theorem Holds.contiguous (h : Holds d hs l b) : Contiguous (window l b) := by
  show IndexedFrom b (l.drop b)
  have := h.indexed.drop b
  rwa [Nat.zero_add] at this

/-- Calls do not touch the file. -/
theorem FileNode.exec_call {n n' : FileNode} {ops : List Op}
    (h : exec (FileNode.step cfg) n (ops.map .call) = some n') : n'.storage = n.storage := by
  induction ops generalizing n with
  | nil =>
    obtain rfl := Option.some.inj h
    rfl
  | cons op ops ih =>
    obtain ⟨n₁, hstep, h⟩ := exec_cons.mp h
    obtain ⟨r, -, rfl⟩ := Option.map_eq_some_iff.mp hstep
    exact ih (n := ⟨r, n.storage⟩) h

/-- **Persistence is faithful** while no index reaches `2 ^ 64 - 1`. In every run of calls,
`Persist`s and crashes, with consecutive entries in every `AppendEntries` and payloads that fit:

* a `Persist` completes, and after any calls that follow it, opening the file gives back the term,
  the vote, the log and the snapshot the node had then;
* a `Persist` that is cut at any byte, or before or after the rename, leaves a file from which the
  old or the new term and vote are recovered, and the old log, the new one, or the old one below
  `FirstUnstableIndex` with some of the new entries; the log is contiguous. -/
theorem persistence_faithful {n₀ n : FileNode} {out : Option Snapshot} {as : List NodeAction}
    (hopen : openFileNode cfg [] = .ok (some (n₀, out))) (hid : cfg.id < 2 ^ 64)
    (hproper : Along (FileNode.step cfg) (fun n a => n.Proper a ∧ n.InRange a) n₀ as)
    (hrun : exec (FileNode.step cfg) n₀ as = some n) (hfits : n.SaveFits) :
    (∃ n' rd, n.persist = some (n', rd) ∧
      ∀ (ops : List Op) n'', exec (FileNode.step cfg) n' (ops.map .call) = some n'' →
        FileNode.Recovers cfg n''.storage.file ⟨n.r.currentTerm, n.r.votedFor⟩ n.r.log
          n.r.snapshot) ∧
    ∃ hs log snap, FileNode.Recovers cfg n.storage.file hs log snap ∧
      ∀ k, ∃ file hs' log' snap', n.persistCut k = some file ∧
        FileNode.Recovers cfg file hs' log' snap' ∧
        (hs' = hs ∨ hs' = ⟨n.r.currentTerm, n.r.votedFor⟩) ∧ n.Outcome log snap log' snap' ∧
        Contiguous log' := by
  have hcfg := validate_of_openFileNode hopen
  obtain ⟨d, hs, l, b, l', b', h⟩ := FileNode.tracked hopen hid hproper hrun
  refine ⟨?_, hs, window l b, (replayAll d).snap, h.recovers hcfg hid, fun k => ?_⟩
  · obtain ⟨n', rd, d', hp, h', hlog, hsnap⟩ := h.persist hfits
    refine ⟨n', rd, hp, fun ops n'' hops => ?_⟩
    have hrec := h'.recovers hcfg hid
    rw [FileNode.exec_call hops]
    rwa [← h.unsaved.spans.log_eq, hsnap] at hrec
  · obtain ⟨file, d', hs', l₁, b₁, hcut, hshows, hholds, hplain, hl₁, hhs, hout⟩ :=
      h.persistCut hfits k
    exact ⟨file, hs', window l₁ b₁, (replayAll d').snap, hcut,
      (hshows.reopens hcfg hid hholds hplain (h.hard_of_cut hhs) hl₁).2, hhs, hout,
      hholds.contiguous⟩

/-- A node with one peer. -/
def pairConfig : Config := ⟨1, [2], 10, 1, fun _ => 0⟩

/-- Entries of a leader of the given term, after an entry. -/
def entriesOf (term prevIndex prevTerm commit : ℕ) (entries : List LogEntry) : NodeAction :=
  .call (.step {
    type := .appendEntries
    fromId := 2
    toId := 1
    term := term
    prevLogIndex := prevIndex
    prevLogTerm := prevTerm
    entries := entries
    leaderCommit := commit })

/-- Two entries are saved, and the process dies before the rename that would compact the first. A
new leader then replaces the second one. -/
def conflictRun : List NodeAction :=
  [entriesOf 1 0 0 1 [⟨1, 1, [7]⟩, ⟨1, 2, [8]⟩], .persist, .call (.createSnapshot 1 [7]),
    .crashIn 0, entriesOf 2 1 1 1 [⟨2, 2, [9]⟩, ⟨2, 3, [9]⟩]]

/-- The replaced entry is on disk after the next `Persist`. -/
theorem persistence_faithful_conflict : ∃ n₀ out n n' rd,
    openFileNode pairConfig [] = .ok (some (n₀, out)) ∧
    exec (FileNode.step pairConfig) n₀ conflictRun = some n ∧ n.persist = some (n', rd) ∧
    FileNode.Recovers pairConfig n'.storage.file ⟨2, 0⟩
      [⟨0, 0, []⟩, ⟨1, 1, [7]⟩, ⟨2, 2, [9]⟩, ⟨2, 3, [9]⟩] {} := by
  have hrun : ((FileNode.reopen pairConfig []).bind fun n₀ =>
      (exec (FileNode.step pairConfig) n₀ conflictRun).map fun n =>
        decide (Along (FileNode.step pairConfig) (fun n a => n.Proper a ∧ n.InRange a) n₀
            conflictRun ∧ n.SaveFits ∧ n.r.currentTerm = 2 ∧ n.r.votedFor = 0 ∧
          n.r.snapshot = {} ∧
          n.r.log = [⟨0, 0, []⟩, ⟨1, 1, [7]⟩, ⟨2, 2, [9]⟩, ⟨2, 3, [9]⟩])) = some true := by
    decide +kernel
  obtain ⟨n₀, hn₀, hrun⟩ := Option.bind_eq_some_iff.mp hrun
  obtain ⟨n, hn, hrun⟩ := Option.map_eq_some_iff.mp hrun
  obtain ⟨hproper, hfits, hterm, hvote, hsnap, hlog⟩ := of_decide_eq_true hrun
  obtain ⟨out, hopen⟩ := FileNode.exists_of_reopen hn₀
  obtain ⟨⟨n', rd, hp, hrec⟩, -⟩ := persistence_faithful hopen (by decide) hproper hn hfits
  have hrec' := hrec [] n' rfl
  rw [hterm, hvote, hsnap, hlog] at hrec'
  exact ⟨n₀, out, n, n', rd, hopen, hn, hp, hrec'⟩

/-- A node alone. -/
def soloConfig : Config := ⟨1, [], 2, 1, fun _ => 0⟩

/-- A node gets a snapshot of everything up to index `2 ^ 64 - 2` and saves it. It is elected, and
two entries are proposed. -/
def wrappingRun : List NodeAction :=
  [.call (.step { type := .installSnapshot, fromId := 2, toId := 1, term := 1,
                  snapshot := ⟨2 ^ 64 - 2, 1, []⟩ }),
    .persist, .call .tick, .call .tick, .call (.propose [[7], [8]])]

/-- The second entry gets index zero, and `Ready` compares that with the first index that is not
saved. The `Persist` that follows writes neither of the two. -/
theorem persist_after_wrapping : ∃ n₀ n n' n'' rd, FileNode.reopen soloConfig [] = some n₀ ∧
    Along (FileNode.step soloConfig) FileNode.Proper n₀ wrappingRun ∧
    exec (FileNode.step soloConfig) n₀ wrappingRun = some n ∧ n.SaveFits ∧
    n.r.log = [⟨1, 2 ^ 64 - 2, []⟩, ⟨2, 2 ^ 64 - 1, [7]⟩, ⟨2, 0, [8]⟩] ∧
    n.persist = some (n', rd) ∧ FileNode.reopen soloConfig n'.storage.file = some n'' ∧
    n''.r.log = [⟨1, 2 ^ 64 - 2, []⟩] := by
  have hrun : ((FileNode.reopen soloConfig []).bind fun n₀ =>
      (exec (FileNode.step soloConfig) n₀ wrappingRun).bind fun n => n.persist.bind fun p =>
        (FileNode.reopen soloConfig p.1.storage.file).map fun n'' =>
          decide (Along (FileNode.step soloConfig) FileNode.Proper n₀ wrappingRun ∧ n.SaveFits ∧
            n.r.log = [⟨1, 2 ^ 64 - 2, []⟩, ⟨2, 2 ^ 64 - 1, [7]⟩, ⟨2, 0, [8]⟩] ∧
            n''.r.log = [⟨1, 2 ^ 64 - 2, []⟩])) = some true := by
    decide +kernel
  obtain ⟨n₀, hn₀, hrun⟩ := Option.bind_eq_some_iff.mp hrun
  obtain ⟨n, hn, hrun⟩ := Option.bind_eq_some_iff.mp hrun
  obtain ⟨⟨n', rd⟩, hp, hrun⟩ := Option.bind_eq_some_iff.mp hrun
  obtain ⟨n'', hn'', hrun⟩ := Option.map_eq_some_iff.mp hrun
  obtain ⟨hproper, hfits, hlog, hlog'⟩ := of_decide_eq_true hrun
  exact ⟨n₀, n, n', n'', rd, hn₀, hproper, hn, hfits, hlog, hp, hn'', hlog'⟩

end KvStore
