import KvStore.Raft.Refinement

/-!
# Log matching

Every log is contiguous with terms that do not decrease, and two logs that have the same term at an
index are the same up to it, as far as both nodes still have the entries. This holds in every state
of every run, with local compaction, installed snapshots and crashes.

A node's log is a window on the full log of the abstract node, and the full logs match
(`Canon.take_eq`); what is left to say is what of the full log a window shows (`Spans.entryAt`).
-/

namespace KvStore

open Consensus Machine

variable {S : Prop} {mb : Members} {A : Abs} {n m : ℕ} {r s : Raft} {c : Cluster}

namespace Raft

/-- `r.log[r.logPos(i)]`: the entry of the window with index `i`, the sentinel included. -/
def entryAt (r : Raft) (i : ℕ) : Option LogEntry := do
  let pos ← r.logPos i
  r.logAt pos

/-- The log has consecutive indices and terms that rise to the node's own. -/
structure Ordered (r : Raft) : Prop where
  contiguous : ∃ first, r.firstIndex = some first ∧
    ∀ (k : ℕ) (e : LogEntry), r.log[k]? = some e → e.index = first + k
  sorted : ∀ (j k : ℕ) (d e : LogEntry), j ≤ k → r.log[j]? = some d → r.log[k]? = some e →
    d.term ≤ e.term
  bounded : ∀ e ∈ r.log, e.term ≤ r.currentTerm

/-- Two logs with the same term at an index have the same terms up to it, and the same entries where
both have one. -/
def Matches (r s : Raft) : Prop :=
  ∀ i d e, r.entryAt i = some d → s.entryAt i = some e → d.term = e.term →
    ∀ j ≤ i, ∀ d' e', r.entryAt j = some d' → s.entryAt j = some e' →
      d'.term = e'.term ∧ (r.firstIndex ≠ some j → s.firstIndex ≠ some j → d' = e')

end Raft

/-! ## What a window shows -/

/-- The entries of a window, by position. -/
theorem window_getElem? {l : List LogEntry} {b k : ℕ} {e : LogEntry} (hi : Indexed l)
    (hb : b ≤ l.length) (he : (window l b)[k]? = some e) :
    e.index = b + k ∧ b + k ≤ l.length ∧ e.term = termAt LogEntry.term l (b + k) ∧
      (0 < k → l[b + k - 1]? = some e) := by
  cases k with
  | zero =>
    obtain rfl := Option.some.inj he
    exact ⟨rfl, hb, rfl, fun h => absurd h (lt_irrefl 0)⟩
  | succ k =>
    rw [window, List.getElem?_cons_succ, List.getElem?_drop] at he
    obtain ⟨hlt, rfl⟩ := List.getElem?_eq_some_iff.mp he
    refine ⟨?_, hlt, ?_, fun _ => he⟩
    · rw [hi _ hlt]
      omega
    · exact (termAt_eq_getElem LogEntry.term hlt).symm

theorem Spans.entryAt {l : List LogEntry} {b i : ℕ} {e : LogEntry} (h : Spans r l b)
    (he : r.entryAt i = some e) : i ≤ l.length ∧ e.term = Consensus.termAt LogEntry.term l i ∧
      (r.firstIndex ≠ some i → l[i - 1]? = some e ∧ 0 < i) := by
  have hb := h.le
  simp only [Raft.entryAt, h.logPos, Option.bind_eq_bind, Option.bind_some, Raft.logAt] at he
  split_ifs at he with hpos
  rw [h.log_eq] at he
  obtain ⟨hidx, hle, hterm, hget⟩ := window_getElem? h.indexed hb he
  have heq : b + ((i : ℤ) - b).toNat = i := by omega
  rw [heq] at hle hterm hget
  refine ⟨hle, hterm, fun hfirst => ?_⟩
  rw [h.firstIndex] at hfirst
  have hne : b ≠ i := fun hbi => hfirst (congrArg some hbi)
  exact ⟨hget (by omega), by omega⟩

/-! ## One log -/

theorem Live.ordered (h : Live S mb A n r.view) : r.Ordered := by
  have hle : ∀ e ∈ A.log n, e.term ≤ r.currentTerm := fun e he =>
    (h.good.wf.log_le n e he).trans h.mirrors.term_eq.le
  have hget := fun k e (he : r.log[k]? = some e) =>
    window_getElem? (k := k) (e := e) h.spans.indexed h.spans.le
      (by rw [← h.spans.log_eq]; exact he)
  refine ⟨⟨_, h.spans.firstIndex, fun k e he => (hget k e he).1⟩, ?_, ?_⟩
  · intro j k d e hjk hd he
    rw [(hget j d hd).2.2.1, (hget k e he).2.2.1]
    exact h.canon_log.termAt_mono h.good.wf.hist_le (Nat.add_le_add_left hjk _)
  · intro e he
    obtain ⟨k, hk⟩ := List.getElem?_of_mem he
    rw [(hget k e hk).2.2.1]
    exact termAt_le LogEntry.term hle _

/-! ## Two logs -/

/-- Windows on canonical logs match. -/
theorem Spans.matches {l l' : List LogEntry} {b b' : ℕ} {hist : ℕ → List LogEntry}
    (h : Spans r l b) (h' : Spans s l' b') (hl : Canon LogEntry.term hist l)
    (hl' : Canon LogEntry.term hist l') : r.Matches s := by
  intro i d e hd he hterm j hj d' e' hd' he'
  obtain ⟨hi, hdt, -⟩ := h.entryAt hd
  obtain ⟨hi', het, -⟩ := h'.entryAt he
  have htake : l.take i = l'.take i := hl.take_eq hl' hi hi' (by rw [← hdt, ← het, hterm])
  obtain ⟨-, hdt', hdget⟩ := h.entryAt hd'
  obtain ⟨-, het', heget⟩ := h'.entryAt he'
  refine ⟨?_, fun hr hs => ?_⟩
  · rw [hdt', het', ← termAt_take LogEntry.term hj, htake, termAt_take LogEntry.term hj]
  · obtain ⟨hdj, hpos⟩ := hdget hr
    obtain ⟨hej, -⟩ := heget hs
    have hlt : j - 1 < i := by omega
    rw [← List.getElem?_take_of_lt hlt, htake, List.getElem?_take_of_lt hlt, hej] at hdj
    exact (Option.some.inj hdj).symm

/-- **Log matching**: in every state of every run. -/
theorem log_matching {as : List Action} (h : Cluster.Runs mb as c) :
    (∀ n ∈ mb.ids, (c.nodes n).r.Ordered) ∧
    ∀ n ∈ mb.ids, ∀ m ∈ mb.ids, (c.nodes n).r.Matches (c.nodes m).r := by
  obtain ⟨A, hA⟩ := h.sim
  refine ⟨fun n hn => (hA.node n hn).live.ordered, fun n hn m hm => ?_⟩
  exact (hA.node n hn).live.spans.matches (hA.node m hm).live.spans (hA.node n hn).live.canon_log
    (hA.node m hm).live.canon_log

/-- Nodes one and two share an entry of term one. -/
theorem log_matching_three : ∃ c, Cluster.Runs .three commitOne c ∧
    (c.nodes 1).r.entryAt 1 = some ⟨1, 1, [7]⟩ ∧ (c.nodes 2).r.entryAt 1 = some ⟨1, 1, [7]⟩ ∧
    (c.nodes 2).r.Ordered ∧ (c.nodes 1).r.Matches (c.nodes 2).r := by
  have hrun : (exec (Cluster.step .three) (Cluster.init .three) commitOne).map (fun c =>
      decide ((c.nodes 1).r.entryAt 1 = some ⟨1, 1, [7]⟩ ∧
        (c.nodes 2).r.entryAt 1 = some ⟨1, 1, [7]⟩)) = some true := by
    decide +kernel
  obtain ⟨c, h, hrun⟩ := Option.map_eq_some_iff.mp hrun
  obtain ⟨h1, h2⟩ := of_decide_eq_true hrun
  exact ⟨c, h, h1, h2, (log_matching h).1 2 (by decide),
    (log_matching h).2 1 (by decide) 2 (by decide)⟩

end KvStore
