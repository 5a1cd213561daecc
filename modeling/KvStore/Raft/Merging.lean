import KvStore.Consensus.Overwrite
import KvStore.Raft.Turns
import KvStore.Raft.Window

/-!
# Merging entries into any log

`Window.lean` follows the loop of `handleAppendEntries` along the log of the leader that sent the
entries. Here the log and the message are any: all that is asked is that the log has no holes, and
that the entries follow each other and start within it.

* `Numbered first log`: the log has the indices `first`, `first + 1` and so on.
* `Numbered.mergeEntries`: the loop puts the entries over the end of the log
  (`Consensus.overwrite`), by their terms.
* `Numbered.handleAppendEntries`: the whole call, with its answer.
* `append_entries_merging`: what this means for the log. Terms alone are compared: an entry that the
  log has under the same index and term stays, whatever its data.
* `same_term_other_data`: where the data is another, it is not the message's.
-/

namespace KvStore

open Consensus

/-- The log has the indices `first`, `first + 1` and so on. -/
structure Numbered (first : ℕ) (log : List LogEntry) : Prop where
  ne_nil : log ≠ []
  index : ∀ i (h : i < log.length), log[i].index = first + i

namespace Numbered

variable {r r' : Raft} {log : List LogEntry} {first : ℕ} {m : Message}

theorem take (h : Numbered first log) {k : ℕ} (hk : 0 < k) : Numbered first (log.take k) where
  ne_nil := by
    have := List.length_pos_of_ne_nil h.ne_nil
    exact List.ne_nil_of_length_pos (by rw [List.length_take]; omega)
  index := fun i hi => by
    rw [List.getElem_take]
    exact h.index i _

theorem concat (h : Numbered first log) {e : LogEntry} (he : e.index = first + log.length) :
    Numbered first (log ++ [e]) where
  ne_nil := by simp
  index := fun i hi => by
    rw [List.length_append, List.length_singleton] at hi
    rcases Nat.lt_or_ge i log.length with hlt | hge
    · rw [List.getElem_append_left hlt, h.index i hlt]
    · obtain rfl : i = log.length := by omega
      rw [List.getElem_concat_length rfl, he]

theorem firstIndex (h : Numbered first r.log) : r.firstIndex = some first := by
  have hpos := List.length_pos_of_ne_nil h.ne_nil
  rw [Raft.firstIndex, List.head?_eq_getElem?, List.getElem?_eq_getElem hpos, Option.map_some,
    h.index 0 hpos]
  rfl

theorem lastLogIndex (h : Numbered first r.log) :
    r.lastLogIndex = some (first + (r.log.length - 1)) := by
  have hpos := List.length_pos_of_ne_nil h.ne_nil
  rw [Raft.lastLogIndex, List.getLast?_eq_getElem?, List.getElem?_eq_getElem (by omega),
    Option.map_some, h.index _ (by omega)]

theorem termAt (h : Numbered first r.log) {k : ℕ} (hk : k < r.log.length) :
    r.termAt (first + k) = some (r.log[k]).term := by
  have hin : ¬(first + k < first ∨ first + (r.log.length - 1) < first + k) := by omega
  have hpos : ((first + k : ℕ) : ℤ) - first = k := by omega
  simp only [Raft.termAt, Raft.logPos, Raft.logAt, h.firstIndex, h.lastLogIndex,
    Option.bind_eq_bind, Option.bind_some, if_neg hin, pure, hpos, Int.natCast_nonneg, if_true,
      Int.toNat_natCast,
    List.getElem?_eq_getElem hk]

theorem termAt_of_le (h : Numbered first r.log) {k : ℕ} (hk : r.log.length ≤ k) :
    r.termAt (first + k) = some 0 := by
  have hpos := List.length_pos_of_ne_nil h.ne_nil
  have hout : first + k < first ∨ first + (r.log.length - 1) < first + k := by omega
  simp only [Raft.termAt, h.firstIndex, h.lastLogIndex, Option.bind_eq_bind, Option.bind_some,
    if_pos hout, pure]

theorem logTo (h : Numbered first r.log) {k : ℕ} (hk : k ≤ r.log.length) :
    (r.logPos (first + k)).bind r.logTo = some (r.log.take k) := by
  have hpos : ((first + k : ℕ) : ℤ) - first = k := by omega
  simp only [Raft.logPos, h.firstIndex, Option.bind_eq_bind, Option.bind_some, pure, hpos,
    Raft.logTo, Raft.logSlice]
  rw [if_pos (by omega), Int.toNat_zero, List.drop_zero, Int.toNat_natCast]

/-- **The loop of `handleAppendEntries` overwrites** what comes after the beginning `pre` of the
log. -/
theorem mergeEntries {es : List LogEntry} :
    ∀ {r : Raft} {pre old : List LogEntry}, r.log = pre ++ old → Numbered first r.log → pre ≠ [] →
    IndexedFrom (first + (pre.length - 1)) es → ∃ u, r.mergeEntries (first + pre.length) es =
      some { r with log := pre ++ overwrite LogEntry.term old es, unstableIndex := u } := by
  induction es with
  | nil =>
    intro r pre old hlog _ _ _
    exact ⟨r.unstableIndex, by rw [Raft.mergeEntries, overwrite_nil, ← hlog]⟩
  | cons e es ih =>
    intro r pre old hlog h hpre hes
    have hpos := List.length_pos_of_ne_nil hpre
    obtain ⟨he, hes⟩ := hes.tail
    have hlast := h.lastLogIndex
    -- the rest of the loop, once the entry at hand is `x`
    have hrest : ∀ {r₁ : Raft} {x : LogEntry} {old' : List LogEntry}, r₁.log = pre ++ x :: old' →
        Numbered first r₁.log → ∃ u, r₁.mergeEntries (first + pre.length + 1) es =
          some
            { r₁ with log := pre ++ x :: overwrite LogEntry.term old' es, unstableIndex := u } := by
      intro r₁ x old' hlog₁ h₁
      have hlen : (pre ++ [x]).length = pre.length + 1 := by simp
      have hlog₂ : r₁.log = (pre ++ [x]) ++ old' := by simpa using hlog₁
      have hes₂ : IndexedFrom (first + ((pre ++ [x]).length - 1)) es := by
        rw [hlen, show first + (pre.length + 1 - 1) = first + (pre.length - 1) + 1 by omega]
        exact hes
      obtain ⟨u, hu⟩ := ih hlog₂ h₁ (by simp) hes₂
      rw [hlen, ← Nat.add_assoc, List.append_assoc, List.singleton_append] at hu
      exact ⟨u, hu⟩
    have hidx : e.index = first + pre.length := by omega
    rw [hlog] at hlast
    cases old with
    | nil =>
      -- the log ends here: the entry is appended
      rw [List.append_nil] at hlog hlast
      have hlt : first + (pre.length - 1) < first + pre.length := by omega
      have ht : r.termAt (first + pre.length) = some 0 := h.termAt_of_le (by rw [hlog])
      have h₁ : Numbered first (r.log ++ [e]) := h.concat (by rw [hlog]; exact hidx)
      have hlog₁ : ({ r with log := r.log ++ [e] } : Raft).log = pre ++ e :: [] := by rw [hlog]
      obtain ⟨u, hu⟩ := hrest hlog₁ h₁
      refine ⟨u, ?_⟩
      simp only [Raft.mergeEntries, hlast, ht, Option.bind_eq_bind, Option.bind_some,
        not_le.mpr hlt, false_and, if_false, pure, hlt, if_true, hu, nil_overwrite]
    | cons o old =>
      have hlen : (pre ++ o :: old).length = pre.length + old.length + 1 := by simp; omega
      have hle : first + pre.length ≤ first + ((pre ++ o :: old).length - 1) := by omega
      have ht : r.termAt (first + pre.length) = some o.term := by
        rw [h.termAt (by rw [hlog]; omega)]
        simp [hlog]
      by_cases heq : o.term = e.term
      · -- the node has an entry of this term already
        obtain ⟨u, hu⟩ := hrest hlog h
        refine ⟨u, ?_⟩
        simp only [Raft.mergeEntries, hlast, ht, Option.bind_eq_bind, Option.bind_some, heq, ne_eq,
          not_true_eq_false, and_false, if_false, pure, not_lt.mpr hle, hu, overwrite, if_true]
      · -- a conflict: the log is cut here, and the entry appended
        obtain ⟨pos, hpos', hto⟩ :=
          Option.bind_eq_some_iff.mp (h.logTo (k := pre.length) (by rw [hlog]; omega))
        have hcut : r.log.take pre.length = pre := by rw [hlog, List.take_left]
        rw [hcut] at hto
        have h₀ : Numbered first pre := hcut ▸ h.take hpos
        generalize hu₀ : (if first + pre.length < r.unstableIndex then first + pre.length else
          r.unstableIndex) = u₀
        have hlast₀ : ({ r with log := pre, unstableIndex := u₀ } : Raft).lastLogIndex =
          some (first + (pre.length - 1)) := lastLogIndex h₀
        have hlt : first + (pre.length - 1) < first + pre.length := by omega
        have hlog₁ : ({ r with log := pre ++ [e], unstableIndex := u₀ } : Raft).log =
            pre ++ e :: [] := rfl
        obtain ⟨u, hu⟩ := hrest hlog₁ (h₀.concat hidx)
        refine ⟨u, ?_⟩
        simp only [Raft.mergeEntries, hlast, ht, hpos', hto, Option.bind_eq_bind, Option.bind_some,
          hle, heq, ne_eq, not_false_eq_true, and_self, if_true, pure, hu₀, hlast₀, hlt, hu,
            overwrite, if_false, nil_overwrite]

/-- **The whole call.** It is answered with success if the log has an entry of the message's term
before the entries. -/
theorem handleAppendEntries (h : Numbered first r.log) (hterm : r.currentTerm ≤ m.term) {k : ℕ}
    (hk : m.prevLogIndex = first + k) (hes : IndexedFrom m.prevLogIndex m.entries) :
    ∃ r' x, r.handleAppendEntries m = some r' ∧ r'.msgs = r.msgs ++ [x] ∧ r'.currentTerm = m.term ∧
      if r.log[k]?.map LogEntry.term = some m.prevLogTerm then
        x.success = true ∧
          r'.log = r.log.take (k + 1) ++ overwrite LogEntry.term (r.log.drop (k + 1)) m.entries
      else x.success = false ∧ r'.log = r.log ∧ r'.commitIndex = r.commitIndex ∧
        r'.unstableIndex = r.unstableIndex := by
  have hpos := List.length_pos_of_ne_nil h.ne_nil
  rw [Raft.handleAppendEntries, if_neg (not_lt.mpr hterm), Raft.becomeFollower_eq hterm]
  dsimp only
  generalize hr₁ : ({ r.following m.term with leaderID := m.fromId } : Raft) = r₁
  obtain ⟨hlog, hcommit, hunstable, hmsgs, hterm₁⟩ : r₁.log = r.log ∧
      r₁.commitIndex = r.commitIndex ∧ r₁.unstableIndex = r.unstableIndex ∧ r₁.msgs = r.msgs ∧
        r₁.currentTerm = m.term := by
    rw [← hr₁]
    exact ⟨rfl, rfl, rfl, rfl, rfl⟩
  have h₁ : Numbered first r₁.log := hlog ▸ h
  have hlast := h₁.lastLogIndex
  rw [hlog] at hlast
  split_ifs with hprev
  · obtain ⟨e, he, het⟩ := Option.map_eq_some_iff.mp hprev
    obtain ⟨hlt, rfl⟩ := List.getElem?_eq_some_iff.mp he
    have ht : r₁.termAt m.prevLogIndex = some m.prevLogTerm := by
      rw [hk, h₁.termAt (by rwa [hlog]), ← het]
      simp only [hlog]
    have hin : ¬(first + (r.log.length - 1) < m.prevLogIndex ∨ m.prevLogTerm ≠ m.prevLogTerm) := by
      rw [hk]
      omega
    have hlen : (r.log.take (k + 1)).length = k + 1 := List.length_take_of_le hlt
    have hsplit : r₁.log = r.log.take (k + 1) ++ r.log.drop (k + 1) := by
      rw [List.take_append_drop, hlog]
    obtain ⟨u, hu⟩ := mergeEntries hsplit h₁ (List.ne_nil_of_length_pos (by omega))
      (by rw [hlen, Nat.add_sub_cancel, ← hk]; exact hes)
    rw [hlen, ← Nat.add_assoc, ← hk] at hu
    generalize hlog₂ : r.log.take (k + 1) ++ overwrite LogEntry.term (r.log.drop (k + 1))
      m.entries = log₂ at hu ⊢
    have hne : log₂ ≠ [] := by
      rw [← hlog₂]
      exact List.append_ne_nil_of_left_ne_nil (List.ne_nil_of_length_pos (by omega)) _
    have hlast₂ : ({ r₁ with log := log₂, unstableIndex := u } : Raft).lastLogIndex =
        some (log₂.getLast hne).index := by
      rw [Raft.lastLogIndex, List.getLast?_eq_getLast_of_ne_nil hne, Option.map_some]
    simp only [hlast, ht, Option.bind_eq_bind, Option.bind_some, if_neg hin, hu, hlast₂, pure]
    exact ⟨_, _, rfl, congrArg (· ++ [_]) hmsgs, hterm₁, rfl, rfl⟩
  · -- the log ends before the entries, or has another term there
    have hout : ∀ t, r₁.termAt m.prevLogIndex = some t →
        first + (r.log.length - 1) < m.prevLogIndex ∨ t ≠ m.prevLogTerm := by
      intro t ht
      rcases Nat.lt_or_ge k r.log.length with hlt | hge
      · right
        rintro rfl
        rw [hk, h₁.termAt (by rwa [hlog])] at ht
        simp only [hlog] at ht
        exact hprev (by rw [List.getElem?_eq_getElem hlt, Option.map_some, ht])
      · exact Or.inl (by omega)
    obtain ⟨t, ht⟩ : ∃ t, r₁.termAt m.prevLogIndex = some t := by
      rw [hk]
      rcases Nat.lt_or_ge k r₁.log.length with hlt | hge
      · exact ⟨_, h₁.termAt hlt⟩
      · exact ⟨_, h₁.termAt_of_le hge⟩
    simp only [hlast, ht, Option.bind_eq_bind, Option.bind_some, if_pos (hout t ht), pure]
    exact ⟨_, _, rfl, congrArg (· ++ [_]) hmsgs, hterm₁, rfl, hlog, hcommit, hunstable⟩

/-- The log is numbered as before. -/
theorem overwrite (h : Numbered first log) {k : ℕ} (hk : k < log.length) {es : List LogEntry}
    (hes : IndexedFrom (first + k) es) :
    Numbered first (log.take (k + 1) ++ Consensus.overwrite LogEntry.term (log.drop (k + 1)) es)
      where
  ne_nil :=
    List.append_ne_nil_of_left_ne_nil (List.ne_nil_of_length_pos (by rw [List.length_take]; omega))
      _
  index := fun i hi => by
    have hlen : (log.take (k + 1)).length = k + 1 := List.length_take_of_le hk
    rcases Nat.lt_or_ge i (k + 1) with hlt | hge
    · rw [List.getElem_append_left (by omega), List.getElem_take]
      exact h.index i _
    · rw [List.getElem_append_right (by omega)]
      rcases getElem?_overwrite LogEntry.term (List.getElem?_eq_getElem _) with hx | hx
      · obtain ⟨hj, hx⟩ := List.getElem?_eq_some_iff.mp hx
        rw [← hx, hes _ hj]
        omega
      · rw [List.getElem?_drop] at hx
        obtain ⟨hj, hx⟩ := List.getElem?_eq_some_iff.mp hx
        rw [← hx, h.index _ hj]
        omega

end Numbered

/-! ## What becomes of the log -/

/-- What merging the entries `es` from position `k` on makes of a log. -/
structure Merges (k : ℕ) (es log log' : List LogEntry) : Prop where
  before : log'.take k = log.take k
  covered : ∀ i e, es[i]? = some e → ∃ x, log'[k + i]? = some x ∧ x.index = e.index ∧
    x.term = e.term ∧ (x = e ∨ log[k + i]? = some x)
  beyond : (∀ i o e, log[k + i]? = some o → es[i]? = some e → o.term = e.term) →
    log' = log ++ es.drop (log.length - k)
  cut : (∃ i o e, log[k + i]? = some o ∧ es[i]? = some e ∧ o.term ≠ e.term) →
    log'.length = k + es.length

theorem agrees_drop {log es : List LogEntry} {k : ℕ} : Agrees LogEntry.term (log.drop k) es ↔
    ∀ i o e, log[k + i]? = some o → es[i]? = some e → o.term = e.term := by
  simp only [Agrees, List.getElem?_drop]

theorem Numbered.merges {first k : ℕ} {log es : List LogEntry} (h : Numbered first log)
    (hk : k < log.length) (hes : IndexedFrom (first + k) es) :
    Merges (k + 1) es log
    (log.take (k + 1) ++ Consensus.overwrite LogEntry.term (log.drop (k + 1)) es) := by
  have hlen : (log.take (k + 1)).length = k + 1 := List.length_take_of_le hk
  refine ⟨?_, fun i e he => ?_, fun hagree => ?_, fun hconflict => ?_⟩
  · rw [List.take_append_of_le_length hlen.ge, List.take_take, min_self]
  · obtain ⟨x, hx, hterm, hor⟩ := overwrite_getElem? LogEntry.term (log.drop (k + 1)) he
    rw [List.getElem?_drop] at hor
    refine ⟨x, ?_, ?_, hterm, hor⟩
    · rw [List.getElem?_append_right (by omega), hlen, Nat.add_sub_cancel_left]
      exact hx
    · rcases hor with rfl | hold
      · rfl
      · obtain ⟨hi, hxi⟩ := List.getElem?_eq_some_iff.mp hold
        obtain ⟨hj, hej⟩ := List.getElem?_eq_some_iff.mp he
        rw [← hxi, ← hej, h.index _ hi, hes _ hj]
        omega
  · rw [overwrite_of_agrees _ (agrees_drop.mpr hagree), ← List.append_assoc, List.take_append_drop,
      List.length_drop]
  · have hnot : ¬Agrees LogEntry.term (log.drop (k + 1)) es := by
      rw [agrees_drop]
      obtain ⟨i, o, e, ho, he, hne⟩ := hconflict
      exact fun hagree => hne (hagree i o e ho he)
    rw [List.length_append, hlen, length_overwrite_of_not_agrees _ hnot]

/-- **`AppendEntries` is merged once and cuts nothing without a conflict.** For every log without
holes and every message of a term that is not behind, with consecutive entries after an index that
is not below the boundary:

* if the answer is a success, the log is as before up to the entries, it has an entry of the index
  and the term of every entry of the message, the message's own or the one that was there, it keeps
  everything else if no entry conflicts, and ends with the message if one does;
* otherwise the log, the commit index and `unstableIndex` are as before;
* the same message once more leaves the log as it is;
* so does a message whose entries are all there. -/
theorem append_entries_merging {r : Raft} {m : Message} {first : ℕ} (h : Numbered first r.log)
    (hterm : r.currentTerm ≤ m.term) (hprev : first ≤ m.prevLogIndex)
    (hes : IndexedFrom m.prevLogIndex m.entries) : ∃ r' x, r.handleAppendEntries m = some r' ∧
      r'.msgs = r.msgs ++ [x] ∧
    (x.success = true → Merges (m.prevLogIndex - first + 1) m.entries r.log r'.log) ∧
      (x.success = false → r'.log = r.log ∧ r'.commitIndex = r.commitIndex ∧
      r'.unstableIndex = r.unstableIndex) ∧
    (∀ r₁ : Raft, r₁.log = r'.log → r₁.currentTerm ≤ m.term →
        ∃ r₂, r₁.handleAppendEntries m = some r₂ ∧ r₂.log = r₁.log) ∧
      ((∀ i e, m.entries[i]? = some e → ∃ o, r.log[m.prevLogIndex - first + 1 + i]? = some o ∧
        o.term = e.term) → r'.log = r.log) := by
  obtain ⟨k, hk⟩ := Nat.exists_eq_add_of_le hprev
  rw [show m.prevLogIndex - first = k by omega]
  obtain ⟨r', x, hrun, hmsgs, -, hcases⟩ := h.handleAppendEntries hterm hk hes
  refine ⟨r', x, hrun, hmsgs, ?_⟩
  split_ifs at hcases with hmatch
  · obtain ⟨hsuccess, hlog⟩ := hcases
    have hlt : k < r.log.length := by
      obtain ⟨e, he, -⟩ := Option.map_eq_some_iff.mp hmatch
      exact (List.getElem?_eq_some_iff.mp he).1
    have hes' : IndexedFrom (first + k) m.entries := hk ▸ hes
    have hmerges := hlog ▸ h.merges hlt hes'
    refine ⟨fun _ => hmerges, fun hno => absurd (hno.symm.trans hsuccess) Bool.false_ne_true,
      fun r₁ hlog₁ hterm₁ => ?_, fun hpresent => ?_⟩
    · have hlen : (r.log.take (k + 1)).length = k + 1 := List.length_take_of_le hlt
      rw [hlog] at hlog₁
      have h₁ : Numbered first r₁.log := hlog₁ ▸ h.overwrite hlt hes'
      obtain ⟨r₂, y, hrun₂, -, -, hcases₂⟩ := h₁.handleAppendEntries hterm₁ hk hes
      have hmatch₁ : r₁.log[k]?.map LogEntry.term = some m.prevLogTerm := by
        rw [hlog₁, List.getElem?_append_left (by omega),
          List.getElem?_take_of_lt (Nat.lt_succ_self k)]
        exact hmatch
      rw [if_pos hmatch₁] at hcases₂
      refine ⟨r₂, hrun₂, ?_⟩
      rw [hcases₂.2, hlog₁, List.take_left' hlen, List.drop_left' hlen, overwrite_idem]
    · have hlen : m.entries.length ≤ r.log.length - (k + 1) := by
        by_contra hlong
        obtain ⟨o, ho, -⟩ :=
          hpresent (r.log.length - (k + 1)) _ (List.getElem?_eq_getElem (by omega))
        have := (List.getElem?_eq_some_iff.mp ho).1
        omega
      rw [hmerges.beyond, List.drop_eq_nil_of_le hlen, List.append_nil]
      intro i o e ho he
      obtain ⟨o', ho', ht⟩ := hpresent i e he
      rw [ho] at ho'
      rw [Option.some.inj ho', ht]
  · obtain ⟨hfails, hlog, hcommit, hunstable⟩ := hcases
    refine ⟨fun hyes => absurd (hfails.symm.trans hyes) Bool.false_ne_true,
      fun _ => ⟨hlog, hcommit, hunstable⟩, fun r₁ hlog₁ hterm₁ => ?_, fun _ => hlog⟩
    have h₁ : Numbered first r₁.log := by rw [hlog₁, hlog]; exact h
    obtain ⟨r₂, y, hrun₂, -, -, hcases₂⟩ := h₁.handleAppendEntries hterm₁ hk hes
    rw [hlog₁, hlog, if_neg hmatch] at hcases₂
    exact ⟨r₂, hrun₂, by rw [hcases₂.2.1, hlog₁, hlog]⟩

/-- A follower with a boundary at index two and three entries after it. -/
def compactedFollower : Raft :=
  { Raft.start (Members.three.config 2) with
    currentTerm := 2
    log := [⟨1, 2, []⟩, ⟨1, 3, [3]⟩, ⟨1, 4, [4]⟩, ⟨1, 5, [5]⟩] }

/-- Two entries, the second of which conflicts with the follower's. -/
def conflictingEntries : Message :=
  { type := .appendEntries, fromId := 1, toId := 2, term := 2, prevLogIndex := 2, prevLogTerm := 1,
    entries := [⟨1, 3, [3]⟩, ⟨2, 4, [6]⟩] }

/-- The follower keeps the first entry, and its log ends with the second. -/
theorem append_entries_merging_conflict : Numbered 2 compactedFollower.log ∧
    ∃ r' x, compactedFollower.handleAppendEntries conflictingEntries = some r' ∧
      r'.msgs = compactedFollower.msgs ++ [x] ∧ x.success = true ∧
      r'.log = [⟨1, 2, []⟩, ⟨1, 3, [3]⟩, ⟨2, 4, [6]⟩] ∧
      Merges 1 conflictingEntries.entries compactedFollower.log r'.log := by
  have hnumbered : Numbered 2 compactedFollower.log := ⟨by decide, by decide⟩
  obtain ⟨r', x, hrun, hmsgs, hmerges, -⟩ :=
    append_entries_merging (m := conflictingEntries) hnumbered (by decide) (by decide) (by decide)
  have hresult : (compactedFollower.handleAppendEntries conflictingEntries).map
      (fun r' => (r'.log, r'.msgs.map Message.success)) =
      some ([⟨1, 2, []⟩, ⟨1, 3, [3]⟩, ⟨2, 4, [6]⟩], [true]) := by
    decide +kernel
  rw [hrun] at hresult
  obtain ⟨hlog, hsuccess⟩ := Prod.mk.inj (Option.some.inj hresult)
  have hx : x.success = true := by
    rw [hmsgs] at hsuccess
    exact List.head_eq_of_cons_eq hsuccess
  exact ⟨hnumbered, r', x, hrun, hmsgs, hx, hlog, hmerges hx⟩

/-- A follower with one entry. -/
def oneEntry : Raft :=
  { Raft.start (Members.three.config 2) with currentTerm := 1, log := [⟨0, 0, []⟩, ⟨1, 1, [1]⟩] }

/-- An entry of the same index and term, with other data. -/
def otherData : Message :=
  { type := .appendEntries, fromId := 1, toId := 2, term := 1, entries := [⟨1, 1, [2]⟩] }

/-- The message is answered with success and its entry is not in the log. -/
theorem same_term_other_data : Numbered 0 oneEntry.log ∧ oneEntry.currentTerm ≤ otherData.term ∧
    IndexedFrom otherData.prevLogIndex otherData.entries ∧
    ∃ r' x, oneEntry.handleAppendEntries otherData = some r' ∧ r'.msgs = [x] ∧ x.success = true ∧
      r'.log[1]? = some ⟨1, 1, [1]⟩ ∧ otherData.entries[0]? = some ⟨1, 1, [2]⟩ ∧
      ∀ e ∈ otherData.entries, e ∉ r'.log := by
  have hresult : (oneEntry.handleAppendEntries otherData).map
      (fun r' => (r'.log, r'.msgs.map Message.success)) =
        some ([⟨0, 0, []⟩, ⟨1, 1, [1]⟩], [true]) := by
    decide +kernel
  obtain ⟨r', hrun, hresult⟩ := Option.map_eq_some_iff.mp hresult
  obtain ⟨hlog, hmsgs⟩ := Prod.mk.inj hresult
  obtain ⟨x, hx, hsuccess⟩ := List.map_eq_singleton_iff.mp hmsgs
  refine ⟨⟨by decide, by decide⟩, by decide, by decide, r', x, hrun, hx, hsuccess, ?_, rfl, ?_⟩
  · rw [hlog]
    rfl
  · rw [hlog]
    decide

end KvStore
