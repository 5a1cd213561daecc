import KvStore.Raft.Storage
import KvStore.Raft.Window

/-!
# What `Persist` leaves on disk

`Holds d hs l b`: the storage `d` holds the hard state `hs` and the full log `l` from boundary `b`
on.

* `Holds.openNode`: opening such a storage gives a follower with that hard state and that window.
* `Unsaved`: how a node's state relates to what its storage holds while a call has run and `Persist`
  has not. The entries below `unstableIndex` are the stored ones.
* `Unsaved.persist`: a `Persist` that completes leaves the node's own state on disk.
* `Unsaved.persistCut`: one that does not complete leaves the old log under the old or the new hard
  state, or the new hard state with the log cut somewhere after its saved part.
-/

namespace KvStore

open Consensus

/-- The storage holds the hard state `hs` and the full log `l` from boundary `b` on. -/
structure Holds (d : List Record) (hs : HardState) (l : List LogEntry) (b : ℕ) : Prop where
  hs_eq : (replayAll d).hs = hs
  log_eq : (replayAll d).log = l.drop b
  snap_index : (replayAll d).snap.lastIncludedIndex = b
  snap_term : (replayAll d).snap.lastIncludedTerm = termAt LogEntry.term l b
  le : b ≤ l.length
  indexed : Indexed l

theorem holds_nil : Holds [] {} [] 0 := ⟨rfl, rfl, rfl, rfl, le_rfl, indexed_nil 0⟩

theorem replayAll_append (d recs : List Record) :
    replayAll (d ++ recs) = recs.foldl Stored.replay (replayAll d) :=
  List.foldl_append

theorem foldl_replay_logEntry (es : List LogEntry) (s : Stored) :
    (es.map Record.logEntry).foldl Stored.replay s = { s with log := s.log ++ es } := by
  induction es generalizing s with
  | nil => simp
  | cons e es ih =>
    rw [List.map_cons, List.foldl_cons, ih]
    simp [Stored.replay]

/-- Records other than snapshots leave the stored snapshot alone. -/
theorem foldl_replay_snap {recs : List Record} (h : ∀ rec ∈ recs, ∀ snap, rec ≠ .snapshot snap)
    (s : Stored) : (recs.foldl Stored.replay s).snap = s.snap := by
  induction recs generalizing s with
  | nil => rfl
  | cons rec recs ih =>
    rw [List.foldl_cons, ih fun x hx => h x (List.mem_cons_of_mem _ hx)]
    cases rec with
    | snapshot snap => exact absurd rfl (h _ List.mem_cons_self snap)
    | hardState | logEntry | truncateFrom => rfl

namespace Holds

variable {d : List Record} {hs hs' : HardState} {l l' : List LogEntry} {b u : ℕ}

theorem openStorage (h : Holds d hs l b) :
    openStorage d = (hs, window l b, (replayAll d).snap) := by
  have hsen : sentinel (replayAll d).snap = boundary l b := by
    unfold sentinel boundary
    rw [h.snap_index, h.snap_term]
    split_ifs with hb
    · rfl
    · obtain rfl : b = 0 := by omega
      rw [termAt_zero]
  simp only [KvStore.openStorage, h.hs_eq, hsen, h.log_eq, window]

theorem saveHardState (h : Holds d hs l b) (hs' : HardState) :
    Holds (d ++ saveHardState hs') hs' l b where
  hs_eq := by rw [replayAll_append]; rfl
  log_eq := by rw [replayAll_append]; exact h.log_eq
  snap_index := by rw [replayAll_append]; exact h.snap_index
  snap_term := by rw [replayAll_append]; exact h.snap_term
  le := h.le
  indexed := h.indexed

/-- A `truncateFrom` record and `j` of the entries from its index on: a log that agrees with the
stored one below that index. -/
theorem saveEntries_take (h : Holds d hs l b) (hb : b < u)
    (hi : Indexed l') (htake : l'.take (u - 1) = l.take (u - 1)) (hl' : u - 1 ≤ l'.length) (j : ℕ) :
    Holds (d ++ .truncateFrom u :: ((l'.drop (u - 1)).take j).map .logEntry) hs
      (l'.take (u - 1 + j)) b := by
  have hreplay : replayAll (d ++ .truncateFrom u :: ((l'.drop (u - 1)).take j).map .logEntry) =
      { replayAll d with log := (l'.take (u - 1 + j)).drop b } := by
    rw [replayAll_append, List.foldl_cons, foldl_replay_logEntry, Stored.replay, h.log_eq,
      (h.indexed.drop b).filter_lt]
    congr 1
    have hcut : (l.drop b).take (u - 1 - (0 + b)) = (l'.take (u - 1)).drop b := by
      rw [Nat.zero_add, htake, List.drop_take]
    rw [hcut, List.take_add, List.drop_append_of_le_length (by rw [List.length_take]; omega)]
  have hle : b ≤ (l'.take (u - 1 + j)).length := by rw [List.length_take]; omega
  have hterm : termAt LogEntry.term (l'.take (u - 1 + j)) b = termAt LogEntry.term l b := by
    rw [termAt_take LogEntry.term (by omega), ← termAt_take LogEntry.term (show b ≤ u - 1 by omega),
      htake, termAt_take LogEntry.term (by omega)]
  exact
    { hs_eq := by rw [hreplay]; exact h.hs_eq
      log_eq := by rw [hreplay]
      snap_index := by rw [hreplay]; exact h.snap_index
      snap_term := by rw [hreplay, hterm]; exact h.snap_term
      le := hle
      indexed := hi.of_isPrefix (List.take_prefix _ _) }

end Holds

/-- The file `SaveSnapshot` writes. -/
theorem holds_saveSnapshot {hs : HardState} {snap : Snapshot} {l : List LogEntry}
    (hle : snap.lastIncludedIndex ≤ l.length) (hi : Indexed l)
    (ht : snap.lastIncludedTerm = termAt LogEntry.term l snap.lastIncludedIndex) :
    Holds (saveSnapshot hs snap (l.drop snap.lastIncludedIndex)) hs l snap.lastIncludedIndex := by
  have hreplay : replayAll (saveSnapshot hs snap (l.drop snap.lastIncludedIndex)) =
      { hs := hs, snap := snap, log := l.drop snap.lastIncludedIndex } := by
    rw [replayAll, saveSnapshot, List.foldl_cons, List.foldl_cons, foldl_replay_logEntry]
    simp [Stored.replay]
  exact
    { hs_eq := by rw [hreplay]
      log_eq := by rw [hreplay]
      snap_index := by rw [hreplay]
      snap_term := by rw [hreplay]; exact ht
      le := hle
      indexed := hi }

/-! ## Restart -/

/-- A node just opened on a storage that holds `hs` and `l` from `b` on. -/
structure Reopened (cfg : Config) (hs : HardState) (l : List LogEntry) (b : ℕ) (r : Raft) :
    Prop where
  spans : Spans r l b
  id_eq : r.id = cfg.id
  peers_eq : r.peers = cfg.peers
  role_eq : r.role = .follower
  term_eq : r.currentTerm = hs.term
  vote_eq : r.votedFor = hs.vote
  commit_eq : r.commitIndex = b
  snap_index : r.snapshot.lastIncludedIndex = b
  snap_term : r.snapshot.lastIncludedTerm = termAt LogEntry.term l b
  stable_term : r.stableTerm = hs.term
  stable_vote : r.stableVote = hs.vote
  stable_snap : r.stableSnapshotIndex = b
  unstable_eq : r.unstableIndex = l.length + 1
  msgs_eq : r.msgs = []
  reads_eq : r.readStates = []
  pending_eq : r.pendingReads = fun _ => none

theorem new_eq {cfg : Config} (hcfg : cfg.validate = .ok ()) :
    Raft.new cfg = .ok (Raft.start cfg) := by
  simp [Raft.new, hcfg, bind, Except.bind, pure, Except.pure]

/-- **A restart recovers what the storage holds.** -/
theorem Holds.openNode {cfg : Config} {d : List Record} {hs : HardState} {l : List LogEntry} {b : ℕ}
    (h : Holds d hs l b) (hcfg : cfg.validate = .ok ()) :
    ∃ nd snap, openNode cfg d = .ok (some (nd, snap)) ∧ nd.storage = d ∧
      Reopened cfg hs l b nd.r := by
  have hsp : ∀ r : Raft, r.log = window l b → Spans r l b := fun r hr => ⟨hr, h.le, h.indexed⟩
  have hrestore : ∃ r, (Raft.start cfg).restoreState hs (window l b) = some r ∧
      r = { Raft.start cfg with
        currentTerm := hs.term
        votedFor := hs.vote
        stableTerm := hs.term
        stableVote := hs.vote
        log := window l b
        commitIndex := b
        unstableIndex := l.length + 1 } := by
    have hne : window l b ≠ [] := by simp [window]
    have hcommit : (if (Raft.start cfg).commitIndex < b then b else (Raft.start cfg).commitIndex) =
        b := by
      have : (Raft.start cfg).commitIndex = 0 := rfl
      rw [this]
      split_ifs <;> omega
    refine ⟨_, ?_, rfl⟩
    simp only [Raft.restoreState, hne, if_false, Option.bind_eq_bind, pure]
    rw [(hsp _ rfl).firstIndex, Option.bind_some, (hsp _ rfl).lastLogIndex,
      Option.bind_some, hcommit]
  obtain ⟨r, hr, hr'⟩ := hrestore
  have hopen : KvStore.openNode cfg d = .ok (
      if 0 < (replayAll d).snap.lastIncludedIndex then
        some (⟨{ r with
          snapshot := (replayAll d).snap
          stableSnapshotIndex := (replayAll d).snap.lastIncludedIndex }, d⟩,
            some (replayAll d).snap)
      else some (⟨r, d⟩, none)) := by
    simp only [KvStore.openNode, h.openStorage, new_eq hcfg, bind, Except.bind, pure,
      Except.pure, hr, Option.bind]
  rw [hopen, h.snap_index]
  by_cases hb : 0 < b
  · rw [if_pos hb]
    refine ⟨_, _, rfl, rfl, ?_⟩
    rw [hr']
    exact ⟨hsp _ rfl, rfl, rfl, rfl, rfl, rfl, rfl, h.snap_index, h.snap_term, rfl, rfl,
      rfl, rfl, rfl, rfl, rfl⟩
  · rw [if_neg hb]
    obtain rfl : b = 0 := by omega
    refine ⟨_, _, rfl, rfl, ?_⟩
    rw [hr']
    exact ⟨hsp _ rfl, rfl, rfl, rfl, rfl, rfl, rfl, rfl, (termAt_zero _ _).symm, rfl, rfl,
      rfl, rfl, rfl, rfl, rfl⟩

/-! ## Persist -/

/-- Between a call and its `Persist`: the node shows `l'` from `b'` on, its storage holds `l` from
`b` on, and below `unstableIndex` they are the same unless the boundary has moved. -/
structure Unsaved (d : List Record) (hs : HardState) (l : List LogEntry) (b : ℕ) (r : Raft)
    (l' : List LogEntry) (b' : ℕ) : Prop where
  holds : Holds d hs l b
  spans : Spans r l' b'
  snap_index : r.snapshot.lastIncludedIndex = b'
  snap_term : r.snapshot.lastIncludedTerm = termAt LogEntry.term l' b'
  stable_term : r.stableTerm = hs.term
  stable_vote : r.stableVote = hs.vote
  stable_snap : r.stableSnapshotIndex = b
  le : b ≤ b'
  lt_unstable : b' < r.unstableIndex
  unstable_le : r.unstableIndex ≤ l'.length + 1
  take_eq : b' = b → l'.take (r.unstableIndex - 1) = l.take (r.unstableIndex - 1)
  eq_of_lt : b' = b → l'.length < r.unstableIndex → l' = l

namespace Unsaved

variable {d : List Record} {hs : HardState} {l l' : List LogEntry} {b b' : ℕ} {r : Raft}

/-- The hard state the node is in. -/
def hardState (r : Raft) : HardState := ⟨r.currentTerm, r.votedFor⟩

/-- The hard state record of a `Persist`, if there is one. -/
def hsRecords (r : Raft) : List Record :=
  if r.currentTerm ≠ r.stableTerm ∨ r.votedFor ≠ r.stableVote then
    saveHardState (hardState r) else []

/-- The save of a `Persist`, in terms of the full log. -/
def saving (r : Raft) (l' : List LogEntry) (b b' : ℕ) : Save :=
  if b < b' then .replace (saveSnapshot (hardState r) r.snapshot (l'.drop b'))
  else .append (hsRecords r ++ saveEntries r.unstableIndex (l'.drop (r.unstableIndex - 1)))

theorem ready (h : Unsaved d hs l b r l' b') : ∃ rd, r.ready = some rd ∧
    rd.messages = r.msgs ∧ rd.readStates = r.readStates ∧
    rd.snapshotToApply = r.pendingSnapshotToApply ∧
    (⟨r, d⟩ : Node).save rd = some (saving r l' b b') := by
  have hpos : r.unstableIndex ≤ l'.length →
      r.logFrom ((r.unstableIndex : ℤ) - b') = some (l'.drop (r.unstableIndex - 1)) :=
    fun _ => h.spans.logFrom h.lt_unstable h.unstable_le
  have hsurv : r.entries r.snapshot.lastIncludedIndex l'.length = some (l'.drop b') := by
    rw [h.spans.entries, h.snap_index, List.take_length, max_self]
  have hnil : ¬r.unstableIndex ≤ l'.length → l'.drop (r.unstableIndex - 1) = [] := fun hu =>
    List.drop_of_length_le (by omega)
  simp only [Raft.ready, h.spans.lastLogIndex, Option.bind_eq_bind, Option.bind_some, pure,
    h.spans.logPos, h.stable_snap, h.snap_index]
  by_cases hu : r.unstableIndex ≤ l'.length
  · simp only [hu, if_true, hpos hu, Option.bind_some]
    refine ⟨_, rfl, rfl, rfl, rfl, ?_⟩
    unfold Node.save saving hsRecords hardState
    split_ifs <;> simp_all [h.spans.lastLogIndex]
  · simp only [hu, if_false]
    refine ⟨_, rfl, rfl, rfl, rfl, ?_⟩
    unfold Node.save saving hsRecords hardState
    split_ifs <;> simp_all [h.spans.lastLogIndex, saveEntries]

theorem holds_hsRecords (h : Unsaved d hs l b r l' b') :
    Holds (d ++ hsRecords r) (hardState r) l b := by
  unfold hsRecords
  split_ifs with hne
  · exact h.holds.saveHardState _
  · have heq : hardState r = hs := by
      rw [not_or, not_not, not_not, h.stable_term, h.stable_vote] at hne
      rw [hardState, hne.1, hne.2]
    rw [List.append_nil, heq]
    exact h.holds

theorem holds_entries (h : Unsaved d hs l b r l' b') (hb : b' = b) (j : ℕ) :
    Holds (d ++ hsRecords r ++
        .truncateFrom r.unstableIndex :: ((l'.drop (r.unstableIndex - 1)).take j).map .logEntry)
      (hardState r) (l'.take (r.unstableIndex - 1 + j)) b :=
  h.holds_hsRecords.saveEntries_take (by have := h.lt_unstable; omega) h.spans.indexed
    (h.take_eq hb) (by have := h.unstable_le; omega) j

theorem holds_snapshot (h : Unsaved d hs l b r l' b') :
    Holds (saveSnapshot (hardState r) r.snapshot (l'.drop b')) (hardState r) l' b' := by
  have hsnap : Holds (saveSnapshot (hardState r) r.snapshot (l'.drop r.snapshot.lastIncludedIndex))
      (hardState r) l' r.snapshot.lastIncludedIndex :=
    holds_saveSnapshot (by rw [h.snap_index]; exact h.spans.le) h.spans.indexed
      (by rw [h.snap_term, h.snap_index])
  rwa [h.snap_index] at hsnap

/-- **A completed `Persist`** leaves the node's own hard state and window on disk, and hands out the
outbox. -/
theorem persist (h : Unsaved d hs l b r l' b') : ∃ d' rd,
    (⟨r, d⟩ : Node).persist = some (⟨{ r with
      stableTerm := r.currentTerm
      stableVote := r.votedFor
      unstableIndex := l'.length + 1
      stableSnapshotIndex := b'
      pendingSnapshotToApply := none
      msgs := []
      readStates := [] }, d'⟩, rd) ∧
    rd.messages = r.msgs ∧ rd.readStates = r.readStates ∧
    rd.snapshotToApply = r.pendingSnapshotToApply ∧ Holds d' (hardState r) l' b' := by
  obtain ⟨rd, hrd, hm, hreads, happly, hsave⟩ := h.ready
  have hunst : (if r.unstableIndex ≤ l'.length then l'.length + 1 else r.unstableIndex) =
      l'.length + 1 := by
    have := h.unstable_le
    split_ifs <;> omega
  refine ⟨(saving r l' b b').run d, rd, ?_, hm, hreads, happly, ?_⟩
  · simp only [Node.persist, hrd, hsave, Raft.advance, h.spans.lastLogIndex, Option.bind_eq_bind,
      Option.bind_some, pure, hunst, h.snap_index]
  · by_cases hb : b < b'
    · rw [saving, if_pos hb]
      exact h.holds_snapshot
    · have hbb : b' = b := by have := h.le; omega
      have hle := h.unstable_le
      rw [saving, if_neg hb, Save.run, saveEntries]
      split_ifs with hnil
      · -- nothing new in the log
        have hlen := congrArg List.length hnil
        rw [List.length_drop, List.length_nil] at hlen
        rw [List.append_nil, h.eq_of_lt hbb (by have := h.lt_unstable; omega), hbb]
        exact h.holds_hsRecords
      · have := h.holds_entries hbb (l'.drop (r.unstableIndex - 1)).length
        rw [List.take_length, List.length_drop, Nat.add_sub_cancel' (by omega), List.take_length]
          at this
        rw [← List.append_assoc, hbb]
        exact this

/-- **A `Persist` that is cut short** leaves the old log, under the old or the new hard state, or
the new state, its log possibly cut after the part that was saved before. -/
theorem persistCut (h : Unsaved d hs l b r l' b') (k : ℕ) : ∃ d',
    (⟨r, d⟩ : Node).persistCut k = some d' ∧
    (Holds d' hs l b ∨ (b' = b ∧ Holds d' (hardState r) l b) ∨ Holds d' (hardState r) l' b' ∨
      (b' = b ∧ r.unstableIndex ≤ l'.length ∧ ∃ j, r.unstableIndex - 1 ≤ j ∧ j ≤ l'.length ∧
        Holds d' (hardState r) (l'.take j) b)) := by
  obtain ⟨rd, hrd, -, -, -, hsave⟩ := h.ready
  refine ⟨(saving r l' b b').cut d k, ?_, ?_⟩
  · simp only [Node.persistCut, hrd, hsave, Option.bind_eq_bind, Option.bind_some, pure]
  by_cases hb : b < b'
  · rw [saving, if_pos hb, Save.cut]
    split_ifs with hk
    · exact Or.inl h.holds
    · right; right; left
      exact h.holds_snapshot
  · have hbb : b' = b := by have := h.le; omega
    rw [saving, if_neg hb, Save.cut]
    rcases Nat.lt_or_ge k (hsRecords r).length with hk | hk
    · -- the hard state record itself is missing
      have hlen : (hsRecords r).length ≤ 1 := by
        unfold hsRecords saveHardState
        split_ifs <;> simp
      obtain rfl : k = 0 := by omega
      rw [List.take_zero, List.append_nil]
      exact Or.inl h.holds
    · rw [List.take_append, List.take_of_length_le hk, ← List.append_assoc]
      have hsplit : ∀ i, (saveEntries r.unstableIndex (l'.drop (r.unstableIndex - 1))).take i = [] ∨
          ∃ j, j ≤ (l'.drop (r.unstableIndex - 1)).length ∧ r.unstableIndex ≤ l'.length ∧
            (saveEntries r.unstableIndex (l'.drop (r.unstableIndex - 1))).take i =
              .truncateFrom r.unstableIndex ::
                ((l'.drop (r.unstableIndex - 1)).take j).map .logEntry := by
        intro i
        unfold saveEntries
        split_ifs with hnil
        · exact Or.inl List.take_nil
        · cases i with
          | zero => exact Or.inl List.take_zero
          | succ i =>
            right
            refine ⟨min i (l'.drop (r.unstableIndex - 1)).length, min_le_right _ _, ?_, ?_⟩
            · by_contra hcon
              exact hnil (List.drop_of_length_le (by omega))
            · rw [List.take_succ_cons, ← List.map_take]
              congr 2
              rw [List.take_eq_take_iff]
              omega
      rcases hsplit (k - (hsRecords r).length) with hnil | ⟨j, hj, hu, hrecs⟩
      · rw [hnil, List.append_nil]
        exact Or.inr (Or.inl ⟨hbb, h.holds_hsRecords⟩)
      · rw [hrecs]
        rw [List.length_drop] at hj
        exact Or.inr (Or.inr (Or.inr ⟨hbb, hu, r.unstableIndex - 1 + j, by omega, by omega,
          h.holds_entries hbb j⟩))

end Unsaved

end KvStore
