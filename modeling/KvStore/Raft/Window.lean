import KvStore.Consensus.TermLog
import KvStore.Raft.Core

/-!
# The window a node keeps of its log

A node's `log` slice is a *window* on the log it has in full: the entries from the snapshot boundary
on, behind a sentinel that stands for everything up to the boundary. `Spans r l b` says that node
state `r` shows the full log `l` from boundary `b` on, and then every access of `Core.lean` is in
range and reads off `l`:

* `Spans.lastLogIndex`, `Spans.termAt`, `Spans.entries`: the accessors;
* `Spans.createSnapshot`: compaction moves the boundary within the same full log;
* `Spans.mergeEntries`: the loop of `handleAppendEntries` on entries of a log `H` that the node's
  log agrees with so far. It keeps the log if it has all of them already, and makes it end with the
  last of them otherwise.
-/

namespace KvStore

open Consensus

/-! ## Logs with their indices -/

/-- The entries carry the indices `k + 1`, `k + 2` and so on. -/
def IndexedFrom (k : ℕ) (l : List LogEntry) : Prop := ∀ i (h : i < l.length), l[i].index = k + i + 1

instance (k : ℕ) (l : List LogEntry) : Decidable (IndexedFrom k l) :=
  inferInstanceAs (Decidable (∀ i (h : i < l.length), l[i].index = k + i + 1))

/-- A full log: its first entry has index one. -/
abbrev Indexed (l : List LogEntry) : Prop := IndexedFrom 0 l

theorem indexed_nil (k : ℕ) : IndexedFrom k [] := fun _ h => absurd h (Nat.not_lt_zero _)

theorem IndexedFrom.of_isPrefix {k : ℕ} {l l' : List LogEntry} (h : IndexedFrom k l)
    (hp : l' <+: l) : IndexedFrom k l' := by
  obtain ⟨s, rfl⟩ := hp
  intro i hi
  have := h i (by rw [List.length_append]; omega)
  rwa [List.getElem_append_left hi] at this

theorem IndexedFrom.drop {k : ℕ} {l : List LogEntry} (h : IndexedFrom k l) (b : ℕ) :
    IndexedFrom (k + b) (l.drop b) := by
  intro i hi
  rw [List.length_drop] at hi
  rw [List.getElem_drop, h (b + i) (by omega)]
  omega

theorem IndexedFrom.tail {k : ℕ} {e : LogEntry} {l : List LogEntry} (h : IndexedFrom k (e :: l)) :
    e.index = k + 1 ∧ IndexedFrom (k + 1) l := by
  refine ⟨h 0 (by simp), fun i hi => ?_⟩
  have := h (i + 1) (by simpa using hi)
  simp only [List.getElem_cons_succ] at this
  omega

theorem IndexedFrom.concat {k : ℕ} {l : List LogEntry} (h : IndexedFrom k l) {e : LogEntry}
    (he : e.index = k + l.length + 1) : IndexedFrom k (l ++ [e]) := by
  intro i hi
  rw [List.length_append, List.length_singleton] at hi
  rcases Nat.lt_or_ge i l.length with hlt | hge
  · rw [List.getElem_append_left hlt, h i hlt]
  · rw [List.getElem_append_right hge]
    have : i = l.length := by omega
    subst this
    simpa using he

/-- Cutting by index is cutting by position. -/
theorem IndexedFrom.filter_lt {k : ℕ} {l : List LogEntry} (h : IndexedFrom k l) (u : ℕ) :
    l.filter (fun e => e.index < u) = l.take (u - 1 - k) := by
  induction l generalizing k with
  | nil => simp
  | cons e l ih =>
    obtain ⟨he, hl⟩ := h.tail
    rcases Nat.lt_or_ge (k + 1) u with hlt | hge
    · rw [List.filter_cons_of_pos (by simpa [he] using hlt), ih hl]
      have : u - 1 - k = (u - 1 - (k + 1)) + 1 := by omega
      rw [this, List.take_succ_cons]
    · have hz : u - 1 - k = 0 := by omega
      have hz' : u - 1 - (k + 1) = 0 := by omega
      rw [List.filter_cons_of_neg (by simpa [he] using hge), ih hl, hz, hz', List.take_zero,
        List.take_zero]

/-! ## Windows -/

/-- The sentinel at boundary `b` of the full log `l`. -/
def boundary (l : List LogEntry) (b : ℕ) : LogEntry := ⟨termAt LogEntry.term l b, b, []⟩

/-- What is left of the full log `l` from boundary `b` on. -/
def window (l : List LogEntry) (b : ℕ) : List LogEntry := boundary l b :: l.drop b

theorem window_append {l : List LogEntry} {b : ℕ} (h : b ≤ l.length) (es : List LogEntry) :
    window l b ++ es = window (l ++ es) b := by
  unfold window boundary
  rw [List.cons_append, List.drop_append_of_le_length h,
    termAt_of_isPrefix LogEntry.term (List.prefix_append l es) h]

theorem window_take {l : List LogEntry} {b m : ℕ} (h : b ≤ m) :
    (window l b).take (m - b + 1) = window (l.take m) b := by
  unfold window boundary
  rw [List.take_succ_cons, List.drop_take, termAt_take LogEntry.term h]

theorem window_length {l : List LogEntry} {b : ℕ} : (window l b).length = l.length - b + 1 := by
  simp [window]

theorem window_eq_of_le {l : List LogEntry} {b i : ℕ} (hb : b < i) (hi : i ≤ l.length) :
    (window l b)[i - b]? = l[i - 1]? := by
  obtain ⟨k, rfl⟩ : ∃ k, i = b + k + 1 := ⟨i - b - 1, by omega⟩
  have : b + k + 1 - b = k + 1 := by omega
  rw [this, window, List.getElem?_cons_succ, List.getElem?_drop]
  simp

/-- The node state `r` shows the full log `l` from the boundary `b` on. -/
structure Spans (r : Raft) (l : List LogEntry) (b : ℕ) : Prop where
  log_eq : r.log = window l b
  le : b ≤ l.length
  indexed : Indexed l

namespace Spans

variable {r : Raft} {l : List LogEntry} {b : ℕ}

theorem firstIndex (h : Spans r l b) : r.firstIndex = some b := by
  rw [Raft.firstIndex, h.log_eq]
  rfl

theorem getLast? (h : Spans r l b) :
    ∃ e, r.log.getLast? = some e ∧ e.index = l.length ∧ e.term = lastTerm LogEntry.term l := by
  rw [h.log_eq, window]
  rcases Nat.eq_or_lt_of_le h.le with heq | hlt
  · refine ⟨boundary l b, ?_, heq, ?_⟩
    · rw [List.drop_of_length_le heq.ge, List.getLast?_singleton]
    · rw [boundary, heq, termAt_length]
  · have hne : l.drop b ≠ [] := by
      intro hnil
      have := congrArg List.length hnil
      rw [List.length_drop, List.length_nil] at this
      omega
    have hl : l ≠ [] := by
      rintro rfl
      exact absurd hlt (Nat.not_lt_zero _)
    refine ⟨l.getLast hl, ?_, ?_, ?_⟩
    · rw [List.getLast?_cons, List.getLast?_eq_getLast_of_ne_nil hne, List.getLast_drop]
      rfl
    · rw [List.getLast_eq_getElem, h.indexed _ (by omega)]
      omega
    · simp [lastTerm, List.getLast?_eq_getLast_of_ne_nil hl]

theorem lastLogIndex (h : Spans r l b) : r.lastLogIndex = some l.length := by
  obtain ⟨e, he, hi, -⟩ := h.getLast?
  rw [Raft.lastLogIndex, he, Option.map_some, hi]

theorem lastLogTerm (h : Spans r l b) : r.lastLogTerm = some (lastTerm LogEntry.term l) := by
  obtain ⟨e, he, -, ht⟩ := h.getLast?
  rw [Raft.lastLogTerm, he, Option.map_some, ht]

theorem logPos (h : Spans r l b) (i : ℕ) : r.logPos i = some ((i : ℤ) - b) := by
  simp [Raft.logPos, h.firstIndex]

theorem termAt_of_le (h : Spans r l b) {i : ℕ} (hb : b ≤ i) (hi : i ≤ l.length) :
    r.termAt i = some (termAt LogEntry.term l i) := by
  have hlog : r.logAt ((i : ℤ) - b) = (window l b)[i - b]? := by
    rw [Raft.logAt, if_pos (by omega), h.log_eq]
    congr 1
    omega
  have hterm : ∃ e, (window l b)[i - b]? = some e ∧ e.term = termAt LogEntry.term l i := by
    rcases Nat.eq_or_lt_of_le hb with rfl | hlt
    · exact ⟨boundary l b, by simp [window], rfl⟩
    · obtain ⟨k, rfl⟩ : ∃ k, i = k + 1 := ⟨i - 1, by omega⟩
      refine ⟨l[k], ?_, (termAt_eq_getElem LogEntry.term (by omega)).symm⟩
      rw [window_eq_of_le hlt hi, Nat.add_sub_cancel, List.getElem?_eq_getElem (by omega)]
  obtain ⟨e, he, het⟩ := hterm
  have hin : ¬(i < b ∨ l.length < i) := by omega
  simp [Raft.termAt, h.firstIndex, h.lastLogIndex, h.logPos, hlog, he, het, hin]

theorem termAt_of_lt (h : Spans r l b) {i : ℕ} (hi : i < b ∨ l.length < i) :
    r.termAt i = some 0 := by
  simp [Raft.termAt, h.firstIndex, h.lastLogIndex, hi]

theorem termAt (h : Spans r l b) (i : ℕ) : ∃ t, r.termAt i = some t := by
  by_cases hi : i < b ∨ l.length < i
  · exact ⟨_, h.termAt_of_lt hi⟩
  · exact ⟨_, h.termAt_of_le (by omega) (by omega)⟩

theorem logFrom (h : Spans r l b) {i : ℕ} (hb : b < i) (hi : i ≤ l.length + 1) :
    r.logFrom ((i : ℤ) - b) = some (l.drop (i - 1)) := by
  have hlen : r.log.length = l.length - b + 1 := by rw [h.log_eq, window_length]
  have hle := h.le
  rw [Raft.logFrom, Raft.logSlice, if_pos (by omega), Int.toNat_natCast, List.take_length, h.log_eq]
  have : ((i : ℤ) - b).toNat = (i - 1 - b) + 1 := by omega
  rw [this, window, List.drop_succ_cons, List.drop_drop]
  congr 2
  omega

theorem logTo (h : Spans r l b) {i : ℕ} (hb : b < i) (hi : i ≤ l.length + 1) :
    r.logTo ((i : ℤ) - b) = some (window (l.take (i - 1)) b) := by
  have hlen : r.log.length = l.length - b + 1 := by rw [h.log_eq, window_length]
  have hle := h.le
  rw [Raft.logTo, Raft.logSlice, if_pos (by omega), Int.toNat_zero, List.drop_zero, h.log_eq]
  have : ((i : ℤ) - b).toNat = (i - 1 - b) + 1 := by omega
  rw [this, window_take (by omega)]

theorem logSlice (h : Spans r l b) {i j : ℕ} (hb : b ≤ i) (hij : i ≤ j) (hj : j ≤ l.length) :
    r.logSlice ((i : ℤ) - b + 1) ((j : ℤ) - b + 1) = some ((l.take j).drop i) := by
  have hlen : r.log.length = l.length - b + 1 := by rw [h.log_eq, window_length]
  rw [Raft.logSlice, if_pos (by omega), h.log_eq]
  have h1 : ((j : ℤ) - b + 1).toNat = (j - b) + 1 := by omega
  have h2 : ((i : ℤ) - b + 1).toNat = (i - b) + 1 := by omega
  rw [h1, h2, window_take (by omega), window, List.drop_succ_cons, List.drop_drop]
  congr 2
  omega

theorem entries (h : Spans r l b) (start stop : ℕ) :
    r.entries start stop = some ((l.take stop).drop (max start b)) := by
  have hstart : (if start < b then b else start) = max start b := by
    split_ifs <;> omega
  have hstop : (if l.length < stop then l.length else stop) = min stop l.length := by
    split_ifs <;> omega
  have htake : l.take stop = l.take (min stop l.length) := by
    rw [List.take_eq_take_iff]
    omega
  simp only [Raft.entries, h.firstIndex, h.lastLogIndex, h.logPos, Option.bind_eq_bind,
    Option.bind_some, hstart, hstop]
  split_ifs with hle
  · rw [List.drop_of_length_le (by rw [List.length_take]; omega)]
    rfl
  · rw [h.logSlice (le_max_right _ _) (by omega) (by omega), htake]

/-- Entries put at the end of the log. -/
theorem append (h : Spans r l b) {es : List LogEntry} (hi : Indexed (l ++ es)) {r' : Raft}
    (hr : r'.log = r.log ++ es) : Spans r' (l ++ es) b where
  log_eq := by rw [hr, h.log_eq, window_append h.le]
  le := h.le.trans (by simp)
  indexed := hi

/-- `CreateSnapshot` fails, or moves the boundary up within the log. -/
theorem createSnapshot (h : Spans r l b) {index : ℕ} {data : Bytes} {r' : Raft}
    {res : Except Error Unit} (hrun : r.createSnapshot index data = some (r', res)) :
    r' = r ∧ (∃ e, res = .error e) ∨
      b < index ∧ index ≤ r.commitIndex ∧ index ≤ l.length ∧ r' = { r with
        log := window l index
        unstableIndex := if r.unstableIndex ≤ index then index + 1 else r.unstableIndex
        snapshot := ⟨index, Consensus.termAt LogEntry.term l index, data⟩ } := by
  simp only [Raft.createSnapshot, h.firstIndex, h.logPos, Option.bind_eq_bind, Option.bind_some]
    at hrun
  by_cases h1 : r.commitIndex < index
  · rw [if_pos h1] at hrun
    obtain ⟨rfl, rfl⟩ := Prod.mk.inj (Option.some.inj hrun)
    exact Or.inl ⟨rfl, _, rfl⟩
  by_cases h2 : index ≤ b
  · rw [if_neg h1, if_pos h2] at hrun
    obtain ⟨rfl, rfl⟩ := Prod.mk.inj (Option.some.inj hrun)
    exact Or.inl ⟨rfl, _, rfl⟩
  rw [if_neg h1, if_neg h2] at hrun
  obtain ⟨t, ht, hrun⟩ := Option.bind_eq_some_iff.mp hrun
  obtain ⟨rest, hrest, hrun⟩ := Option.bind_eq_some_iff.mp hrun
  obtain ⟨rfl, rfl⟩ := Prod.mk.inj (Option.some.inj hrun)
  have hb : b < index := not_le.mp h2
  -- the slice is within the log, so the index is
  have hle : index ≤ l.length := by
    have hlen : r.log.length = l.length - b + 1 := by rw [h.log_eq, window_length]
    have hsle := h.le
    unfold Raft.logFrom Raft.logSlice at hrest
    split_ifs at hrest with hcond
    omega
  have htt : t = Consensus.termAt LogEntry.term l index := by
    rw [h.termAt_of_le hb.le hle] at ht
    exact (Option.some.inj ht).symm
  have hrest' : rest = l.drop index := by
    have hcast : (index : ℤ) - b + 1 = ((index + 1 : ℕ) : ℤ) - b := by omega
    rw [hcast, h.logFrom (by omega) (by omega), Nat.add_sub_cancel] at hrest
    exact (Option.some.inj hrest).symm
  refine Or.inr ⟨hb, not_lt.mp h1, hle, ?_⟩
  rw [htt, hrest']
  rfl

end Spans

/-! ## Merging entries -/

/-- What the loop of `handleAppendEntries` makes of the log `l` and the first unsaved index `u` when
it puts in what the log `H` has up to index `n`. -/
inductive Merged (H l : List LogEntry) (u n : ℕ) : List LogEntry → ℕ → Prop
  | kept (h : H.take n <+: l) : Merged H l u n l u
  | extended (h : l <+: H.take n) : Merged H l u n (H.take n) u
  | replaced (k : ℕ) (hk : k < l.length) (hn : k < n) (hH : k < H.length)
      (heq : l.take k = H.take k)
      (hne : termAt LogEntry.term l (k + 1) ≠ termAt LogEntry.term H (k + 1)) :
      Merged H l u n (H.take n) (min (k + 1) u)

theorem Merged.take_isPrefix {H l l' : List LogEntry} {u u' n : ℕ} (h : Merged H l u n l' u') :
    H.take n <+: l' := by
  cases h with
  | kept h => exact h
  | extended _ => exact List.prefix_rfl
  | replaced _ _ _ _ _ _ => exact List.prefix_rfl

/-- A log that agreed with `H` throughout is replaced nowhere. -/
theorem Merged.of_isPrefix {H l l' : List LogEntry} {u u' n : ℕ} (h : Merged H l u n l' u')
    (hl : l <+: H) (hn : l.length ≤ n) : l' = H.take n ∧ u' = u := by
  cases h with
  | kept h =>
    refine ⟨?_, rfl⟩
    have hl' : l <+: H.take n := by
      rw [List.prefix_iff_eq_take.mp hl]
      exact List.take_prefix_take_left hn
    exact hl'.eq_of_length_le h.length_le
  | extended _ => exact ⟨rfl, rfl⟩
  | replaced k hk _ _ _ hne => exact absurd (termAt_of_isPrefix LogEntry.term hl hk) hne

theorem Merged.eq_take {H l l' : List LogEntry} {u u' n : ℕ} (h : Merged H l u n l' u')
    (hne : ¬(l' = l ∧ u' = u)) : l' = H.take n := by
  cases h with
  | kept _ => exact absurd ⟨rfl, rfl⟩ hne
  | extended _ => rfl
  | replaced _ _ _ _ _ _ => rfl

/-- Where a log that has changed starts to differ from the old one: after all that the two logs
shared, and before its end. -/
theorem Merged.unstable {H l l' : List LogEntry} {u u' n q : ℕ} (h : Merged H l u n l' u')
    (hne : ¬(l' = l ∧ u' = u)) (hu : u = l.length + 1) (hn : n ≤ H.length) (hq : q ≤ l.length)
    (htake : l.take q = H.take q) : q < u' ∧ u' ≤ n := by
  cases h with
  | kept _ => exact absurd ⟨rfl, rfl⟩ hne
  | extended hp =>
    have hle : l.length ≤ n := by
      have := hp.length_le
      rwa [List.length_take_of_le hn] at this
    have hlen : l.length ≠ n := fun heq => by
      refine hne ⟨(hp.eq_of_length ?_).symm, rfl⟩
      rw [List.length_take_of_le hn, heq]
    omega
  | replaced k hk hkn hkH heq hterm =>
    have hqk : q ≤ k := by
      by_contra hcon
      apply hterm
      rw [← termAt_take LogEntry.term (show k + 1 ≤ q by omega), htake,
        termAt_take LogEntry.term (by omega)]
    omega

/-- What the log shared with `H` it still has. -/
theorem Merged.keeps {H l l' p : List LogEntry} {u u' n : ℕ} (h : Merged H l u n l' u')
    (hpH : p <+: H) (hpl : p <+: l) : p <+: l' := by
  cases h with
  | kept _ => exact hpl
  | extended h => exact hpl.trans h
  | replaced k hk hn hH heq hne =>
    have hlen : p.length ≤ k := by
      by_contra hcon
      exact hne ((termAt_of_isPrefix LogEntry.term hpl (by omega)).symm.trans
        (termAt_of_isPrefix LogEntry.term hpH (by omega)))
    rw [List.prefix_take_iff]
    exact ⟨hpH, by omega⟩

/-- If everything was saved, then what the log shared with `H` it still has below the first unsaved
index, where nothing has changed. -/
theorem Merged.saved {H l l' : List LogEntry} {u u' n : ℕ} (h : Merged H l u n l' u')
    (hu : u = l.length + 1) : l'.take (u' - 1) = l.take (u' - 1) ∧
      ∀ p, p <+: H → p <+: l → p <+: l'.take (u' - 1) := by
  cases h with
  | kept _ =>
    refine ⟨rfl, fun p _ hpl => ?_⟩
    rw [hu, Nat.add_sub_cancel, List.take_length]
    exact hpl
  | extended h =>
    rw [hu, Nat.add_sub_cancel, List.take_length]
    have htake := List.prefix_iff_eq_take.mp h
    exact ⟨htake.symm, fun p _ hpl => htake ▸ hpl⟩
  | replaced k hk hn hH heq hne =>
    have hmin : min (k + 1) u - 1 = k := by omega
    rw [hmin, List.take_take, min_eq_left hn.le]
    refine ⟨heq.symm, fun p hpH hpl => ?_⟩
    have hlen : p.length ≤ k := by
      by_contra hcon
      exact hne ((termAt_of_isPrefix LogEntry.term hpl (by omega)).symm.trans
        (termAt_of_isPrefix LogEntry.term hpH (by omega)))
    rw [List.prefix_take_iff]
    exact ⟨hpH, hlen⟩

namespace Spans

variable {H : List LogEntry}

/-- **The loop of `handleAppendEntries`**, from an index on up to which the node's log agrees with
the leader's log `H`. -/
theorem mergeEntries (hH : Indexed H) {es : List LogEntry} :
    ∀ {r : Raft} {l : List LogEntry} {b p : ℕ}, Spans r l b →
      (∀ i, i ≤ l.length → i ≤ H.length →
        Consensus.termAt LogEntry.term l i = Consensus.termAt LogEntry.term H i →
        l.take i = H.take i) →
      b ≤ p → p ≤ l.length → p ≤ H.length → l.take p = H.take p → H.take p ++ es <+: H →
      ∃ l' u', r.mergeEntries (p + 1) es = some { r with log := window l' b, unstableIndex := u' } ∧
        Merged H l r.unstableIndex (p + es.length) l' u' := by
  induction es with
  | nil =>
    intro r l b p h _ _ hpl _ htake _
    refine ⟨l, r.unstableIndex, ?_, .kept ?_⟩
    · rw [Raft.mergeEntries, ← h.log_eq]
    · rw [List.length_nil, Nat.add_zero, ← htake]
      exact List.take_prefix p l
  | cons e es ih =>
    intro r l b p h hmatch hbp hpl hpH htake hes
    -- the entry at hand is the leader's at index `p + 1`
    have hpH' : p < H.length := by
      have := hes.length_le
      rw [List.length_append, List.length_take_of_le hpH, List.length_cons] at this
      omega
    have hsucc : H.take (p + 1) = H.take p ++ [e] := by
      have hp1 : H.take p ++ [e] <+: H := by
        refine List.IsPrefix.trans ?_ hes
        exact (List.prefix_append_right_inj _).mpr ⟨es, rfl⟩
      have hlen : (H.take p ++ [e]).length = p + 1 := by
        rw [List.length_append, List.length_take_of_le hpH, List.length_singleton]
      rw [List.prefix_iff_eq_take.mp hp1, hlen]
    have het : Consensus.termAt LogEntry.term H (p + 1) = e.term := by
      rw [Consensus.termAt, hsucc, lastTerm_concat]
    have hes' : H.take (p + 1) ++ es <+: H := by
      rw [hsucc, List.append_assoc]
      exact hes
    have hlen : p + (e :: es).length = p + 1 + es.length := by
      rw [List.length_cons]; omega
    -- once the log is a beginning of `H`, the rest of the loop only appends
    have happend : ∀ (r' : Raft), r'.log = window (H.take (p + 1)) b →
        r'.mergeEntries (p + 1 + 1) es =
          some { r' with log := window (H.take (p + 1 + es.length)) b } := by
      intro r' hr'
      have hl' : (H.take (p + 1)).length = p + 1 := List.length_take_of_le hpH'
      have hsp : Spans r' (H.take (p + 1)) b :=
        ⟨hr', by omega, hH.of_isPrefix (List.take_prefix _ _)⟩
      obtain ⟨l', u', hrun, hm⟩ := ih hsp
        (fun i hi _ _ => by rw [List.take_take, min_eq_left (by omega)])
        (by omega) hl'.ge hpH' (by rw [List.take_take, min_self]) hes'
      obtain ⟨rfl, rfl⟩ := hm.of_isPrefix (List.take_prefix _ _) (by omega)
      exact hrun
    rcases Nat.lt_or_ge p l.length with hlt | hge
    · have ht := h.termAt_of_le (i := p + 1) (by omega) (by omega)
      by_cases heq : Consensus.termAt LogEntry.term l (p + 1) = e.term
      · -- the node has this entry already
        have htake' := hmatch (p + 1) (by omega) (by omega) (heq.trans het.symm)
        obtain ⟨l', u', hrun, hm⟩ := ih (p := p + 1) h hmatch (by omega) (by omega) hpH' htake' hes'
        refine ⟨l', u', ?_, by rw [hlen]; exact hm⟩
        have hnot : ¬(l.length < p + 1) := by omega
        unfold Raft.mergeEntries
        simp only [h.lastLogIndex, ht, heq, ne_eq, not_true_eq_false, and_false, if_false,
          if_neg hnot, Option.bind_eq_bind, Option.bind_some, Option.pure_def]
        exact hrun
      · -- a conflict: the log is cut here, and the entry appended
        have hto := h.logTo (i := p + 1) (by omega) (by omega)
        rw [Nat.add_sub_cancel] at hto
        have hcut : Spans { r with
            log := window (l.take p) b
            unstableIndex := min (p + 1) r.unstableIndex }
            (l.take p) b :=
          ⟨rfl,
            by rw [List.length_take_of_le hpl]; omega, h.indexed.of_isPrefix (List.take_prefix _ _)⟩
        refine ⟨H.take (p + 1 + es.length), min (p + 1) r.unstableIndex, ?_, ?_⟩
        · have hle : p + 1 ≤ l.length := hlt
          have hmin : (if p + 1 < r.unstableIndex then p + 1 else r.unstableIndex) =
              min (p + 1) r.unstableIndex := by
            split_ifs <;> omega
          have hwin : window (l.take p) b ++ [e] = window (H.take (p + 1)) b := by
            rw [window_append (by rw [List.length_take_of_le hpl]; omega), htake, hsucc]
          have hlast : (l.take p).length < p + 1 := by rw [List.length_take_of_le hpl]; omega
          simp only [Raft.mergeEntries, h.lastLogIndex, ht, h.logPos, hto, Option.bind_eq_bind,
            Option.bind_some, hle, heq, ne_eq, not_false_eq_true, and_self, if_true, pure,
            hcut.lastLogIndex, hlast, hwin, hmin]
          rw [happend _ rfl]
        · rw [hlen]
          exact .replaced p hlt (by omega) hpH' htake (by rw [het]; exact heq)
    · -- the node's log ends here: the entry is appended
      have hpl' : l.length = p := by omega
      have hl : l = H.take p := by rw [← htake, ← hpl', List.take_length]
      obtain ⟨t, ht⟩ := h.termAt (p + 1)
      have hnot : ¬(p + 1 ≤ l.length) := by omega
      have hlast : l.length < p + 1 := by omega
      have hwin : r.log ++ [e] = window (H.take (p + 1)) b := by
        rw [h.log_eq, window_append h.le, hl, hsucc]
      refine ⟨H.take (p + 1 + es.length), r.unstableIndex, ?_, ?_⟩
      · simp only [Raft.mergeEntries, h.lastLogIndex, ht, Option.bind_eq_bind, Option.bind_some,
          hnot, false_and, if_false, pure, hlast, if_true, hwin]
        rw [happend _ rfl]
      · rw [hlen]
        refine .extended ?_
        rw [hl]
        exact List.take_prefix_take_left (by omega)

/-- Entries from index one on, at a node whose boundary is above zero, start at the sentinel or
below it. The loop goes on only if the sentinel is at index one and is the first of them. -/
theorem mergeEntries_below {r : Raft} {l : List LogEntry} {b : ℕ} (h : Spans r l b) (hb : 0 < b)
    {e : LogEntry} (he : 0 < e.term) (es : List LogEntry) :
    r.mergeEntries 1 (e :: es) =
      if b = 1 ∧ Consensus.termAt LogEntry.term l 1 = e.term then r.mergeEntries 2 es else
        none := by
  have hle := h.le
  have h1 : 1 ≤ l.length := by omega
  have hnot : ¬l.length < 1 := by omega
  rcases Nat.eq_or_lt_of_le (show 1 ≤ b from hb) with rfl | hlt
  · have ht := h.termAt_of_le (i := 1) le_rfl h1
    by_cases heq : Consensus.termAt LogEntry.term l 1 = e.term
    · rw [if_pos ⟨rfl, heq⟩]
      simp only [Raft.mergeEntries, h.lastLogIndex, ht, heq, Option.bind_eq_bind,
        Option.bind_some, ne_eq, not_true_eq_false, and_false, if_false, pure, hnot]
    · -- the cut would leave an empty log
      rw [if_neg (by simp [heq])]
      have hto : r.logTo 0 = some [] := by
        rw [Raft.logTo, Raft.logSlice, if_pos (by simp)]
        simp
      simp only [Raft.mergeEntries, h.lastLogIndex, ht, heq, h1, h.logPos, Option.bind_eq_bind,
        Option.bind_some, ne_eq, not_false_eq_true, and_self, if_true, pure, Nat.cast_one,
          sub_self, hto]
      rfl
  · -- the cut would be at a negative position
    have ht := h.termAt_of_lt (Or.inl hlt)
    have hto : r.logTo (1 - (b : ℤ)) = none := by
      rw [Raft.logTo, Raft.logSlice, if_neg (by omega)]
    rw [if_neg (by omega)]
    have hne : (0 : ℕ) ≠ e.term := by omega
    simp only [Raft.mergeEntries, h.lastLogIndex, ht, h1, h.logPos, Option.bind_eq_bind,
      Option.bind_some, ne_eq, hne, not_false_eq_true, and_self, if_true, Nat.cast_one, hto,
      Option.bind_none]

end Spans

end KvStore
