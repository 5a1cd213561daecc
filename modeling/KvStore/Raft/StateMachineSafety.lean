import KvStore.Raft.LogMatching

/-!
# State machine safety

Over runs in which every installed snapshot leaves what the node has acknowledged alone, and so over
runs in which none is delivered:

* `Sim.committed_eq`: what one node has committed at an index, every node that has committed the
  index then or later has there.
* `Sim.leader_has`: a leader of a later term has it.

`state_machine_safety` puts the two together for a whole run.
-/

namespace KvStore

open Consensus Machine

variable {mb : Members} {A A' : Abs} {n m i : ℕ} {c c' : Cluster} {e e' : LogEntry}

/-- The action delivers an `InstallSnapshot`. -/
def Action.Installs : Action → Prop
  | .run _ (.step m) _ => m.type = .installSnapshot
  | _ => False

instance : DecidablePred Action.Installs
  | .run _ (.step m) _ => inferInstanceAs (Decidable (m.type = .installSnapshot))
  | .run _ .tick _ | .run _ (.propose _) _ | .run _ (.readIndex _) _
  | .run _ (.createSnapshot _ _) _ | .compact _ _ _ | .crash _ => .isFalse id

theorem Action.safe_of_not_installs {a : Action} (h : ¬a.Installs) (c : Cluster) : a.Safe c := by
  cases a with
  | run n op cut =>
    cases op with
    | step m => exact fun hty => absurd hty h
    | _ => trivial
  | _ => trivial

namespace Raft

/-- The log has the entry `e` at index `i`, not only the sentinel. -/
def HasEntry (r : Raft) (i : ℕ) (e : LogEntry) : Prop :=
  r.entryAt i = some e ∧ r.firstIndex ≠ some i

instance (r : Raft) (i : ℕ) (e : LogEntry) : Decidable (r.HasEntry i e) :=
  inferInstanceAs (Decidable (_ ∧ _))

/-- The log starts at index `i` or after it. -/
def Compacted (r : Raft) (i : ℕ) : Prop := ∃ first, r.firstIndex = some first ∧ i ≤ first

end Raft

/-- Node `n` has committed the entry `e` at index `i`. -/
def Cluster.Committed (c : Cluster) (n i : ℕ) (e : LogEntry) : Prop :=
  i ≤ (c.nodes n).r.commitIndex ∧ (c.nodes n).r.HasEntry i e

instance (c : Cluster) (n i : ℕ) (e : LogEntry) : Decidable (c.Committed n i e) :=
  inferInstanceAs (Decidable (_ ∧ _))

/-! ## Windows on a full log -/

/-- An index of the full log is in the window or behind it. -/
theorem Spans.hasEntry_or_compacted {r : Raft} {l : List LogEntry} {b : ℕ} (h : Spans r l b)
    (hget : l[i - 1]? = some e) (hpos : 0 < i) : r.HasEntry i e ∨ r.Compacted i := by
  have hlt : i - 1 < l.length := (List.getElem?_eq_some_iff.mp hget).1
  rcases Nat.lt_or_ge b i with hb | hb
  · left
    refine ⟨?_, by rw [h.firstIndex]; exact fun heq => hb.ne (Option.some.inj heq)⟩
    have hz : ((i : ℤ) - b).toNat = i - b := by omega
    simp only [Raft.entryAt, h.logPos, Option.bind_eq_bind, Option.bind_some, Raft.logAt]
    rw [if_pos (by omega), hz, h.log_eq, window_eq_of_le hb (by omega)]
    exact hget
  · exact Or.inr ⟨b, h.firstIndex, hb⟩

namespace Sim

/-- What a node has committed is backed by a term's commitment. -/
theorem backed (h : Sim True mb c A) (hn : n ∈ mb.ids) (hi : i ≤ (c.nodes n).r.commitIndex) :
    Backed A (c.nodes n).r.currentTerm i (A.log n) :=
  ((h.node n hn).live.secure trivial).commit.mono le_rfl hi List.prefix_rfl

theorem committed (h : Sim True mb c A) (hn : n ∈ mb.ids) (hc : c.Committed n i e) :
    Backed A (c.nodes n).r.currentTerm i (A.log n) ∧ (A.log n)[i - 1]? = some e ∧ 0 < i := by
  obtain ⟨hi, he, hfirst⟩ := hc
  exact ⟨h.backed hn hi, ((h.node n hn).live.spans.entryAt he).2.2 hfirst⟩

/-- Two nodes that have committed an index have the same entry there. -/
theorem committed_eq (h : Sim True mb c A) (h' : Sim True mb c' A') (hg : Grows LogEntry.term A A')
    (hn : n ∈ mb.ids) (hm : m ∈ mb.ids) (hc : c.Committed n i e) (hc' : c'.Committed m i e') :
    e' = e := by
  obtain ⟨hb, hget, hpos⟩ := h.committed hn hc
  obtain ⟨hb', hget', -⟩ := h'.committed hm hc'
  have htake := (hb.grows hg).take_eq h'.good.wf (h'.good.safe trivial) hb'
  have hlt : i - 1 < i := by omega
  rw [← List.getElem?_take_of_lt hlt, htake, List.getElem?_take_of_lt hlt, hget'] at hget
  exact Option.some.inj hget

/-- A leader of a term after the one in which an index was committed has what was committed. -/
theorem leader_has (h : Sim True mb c A) {t : ℕ} {l : List LogEntry} (hb : Backed A t i l)
    (hget : l[i - 1]? = some e) (hpos : 0 < i) (hm : m ∈ mb.ids) (hr : (c.nodes m).r.role = .leader)
    (ht : t < (c.nodes m).r.currentTerm) : (c.nodes m).r.HasEntry i e ∨
    (c.nodes m).r.Compacted i := by
  have hlive := (h.node m hm).live
  -- what was committed up to its term, its history has
  have hle : Backed A (c.nodes m).r.currentTerm i l := hb.mono ht.le le_rfl List.prefix_rfl
  obtain ⟨hlen, htake⟩ := hle.take_hist (h.good.safe trivial) (by rw [hlive.leader_eq hr]; simp)
  have hlt : i - 1 < ((A.hist (c.nodes m).r.currentTerm).take i).length := by
    rw [List.length_take]
    omega
  have hget' : (A.log m)[i - 1]? = some e := by
    rw [← hlive.hist_eq hr, ← List.getElem?_take_of_lt (show i - 1 < i by omega),
      List.getElem?_eq_getElem hlt, htake.getElem hlt, ← List.getElem?_eq_getElem
        (hlt.trans_le htake.length_le)]
    exact hget
  exact hlive.spans.hasEntry_or_compacted hget' hpos

end Sim

/-- **State machine safety.** Some node has index `i` committed in a state `c₁` (the first such
state is the one meant, and the term it is in the term `i` was first committed under), and a node
has committed the entry `e` there in the state `c₂`. In any later state `c₃` no node has committed
another entry, and every leader of a higher term has `e` or has compacted it away. -/
theorem state_machine_safety {as₁ as₂ as₃ : List Action} {c₁ c₂ c₃ : Cluster} {p : ℕ}
    (h₁ : Cluster.Runs mb as₁ c₁) (h₂ : exec (Cluster.step mb) c₁ as₂ = some c₂)
    (h₃ : exec (Cluster.step mb) c₂ as₃ = some c₃) (hno : ∀ a ∈ as₁ ++ as₂ ++ as₃, ¬a.Installs)
    (hp : p ∈ mb.ids) (hip : i ≤ (c₁.nodes p).r.commitIndex) (hn : n ∈ mb.ids)
    (hc : c₂.Committed n i e) :
    (∀ m ∈ mb.ids, ∀ e', c₃.Committed m i e' → e' = e) ∧
    ∀ m ∈ mb.ids, (c₃.nodes m).r.role = .leader →
      (c₁.nodes p).r.currentTerm < (c₃.nodes m).r.currentTerm →
      (c₃.nodes m).r.HasEntry i e ∨ (c₃.nodes m).r.Compacted i := by
  have hsafe : ∀ (c : Cluster) (as : List Action), (∀ a ∈ as, a ∈ as₁ ++ as₂ ++ as₃) →
      Along (Cluster.step mb) (fun c a => True → a.Safe c) c as := fun c as has =>
    along_of_imp (fun c a ha _ => Action.safe_of_not_installs ha c)
      (along_of_forall (fun a ha => hno a (has a ha)) c)
  obtain ⟨A₁, hA₁, -⟩ := (sim_init True mb).run (hsafe _ as₁ (by simp +contextual)) h₁
  obtain ⟨A₂, hA₂, hg₂⟩ := hA₁.run (hsafe _ as₂ (by simp +contextual)) h₂
  obtain ⟨A₃, hA₃, hg₃⟩ := hA₂.run (hsafe _ as₃ (by simp +contextual)) h₃
  refine ⟨fun m hm e' hc' => hA₂.committed_eq hA₃ hg₃ hn hm hc hc', fun m hm hr ht => ?_⟩
  obtain ⟨hb, hget, hpos⟩ := hA₂.committed hn hc
  -- the entry is the one the first committer has
  have hb₁ := hA₁.backed hp hip
  have htake := (hb₁.grows hg₂).take_eq hA₂.good.wf (hA₂.good.safe trivial) hb
  have hlt : i - 1 < i := by omega
  have hget₁ : (A₁.log p)[i - 1]? = some e := by
    rw [← List.getElem?_take_of_lt hlt, htake, List.getElem?_take_of_lt hlt]
    exact hget
  exact hA₃.leader_has (hb₁.grows (hg₂.trans hg₃)) hget₁ hpos hm hr ht

/-- Node one commits an entry in term one; node two, elected in term two, has it. -/
theorem state_machine_safety_three : ∃ c₁ c₃, Cluster.Runs .three commitOne c₁ ∧
    exec (Cluster.step .three) c₁ (electBy 2 3 1 2 0 1 1) = some c₃ ∧
    c₁.Committed 1 1 ⟨1, 1, [7]⟩ ∧ (c₃.nodes 2).r.role = .leader ∧
    ((c₃.nodes 2).r.HasEntry 1 ⟨1, 1, [7]⟩ ∨ (c₃.nodes 2).r.Compacted 1) := by
  have hrun : ((exec (Cluster.step .three) (Cluster.init .three) commitOne).bind fun c₁ =>
      (exec (Cluster.step .three) c₁ (electBy 2 3 1 2 0 1 1)).map fun c₃ =>
        decide (c₁.Committed 1 1 ⟨1, 1, [7]⟩ ∧ (c₁.nodes 1).r.currentTerm = 1 ∧
          (c₃.nodes 2).r.role = .leader ∧ (c₃.nodes 2).r.currentTerm = 2)) = some true := by
    decide +kernel
  obtain ⟨c₁, h₁, hrun⟩ := Option.bind_eq_some_iff.mp hrun
  obtain ⟨c₃, h₃, hrun⟩ := Option.map_eq_some_iff.mp hrun
  obtain ⟨hc, ht₁, hr, ht₃⟩ := of_decide_eq_true hrun
  have hno : ∀ a ∈ commitOne ++ [] ++ electBy 2 3 1 2 0 1 1, ¬a.Installs := by decide
  refine ⟨c₁, c₃, h₁, h₃, hc, hr, ?_⟩
  refine (state_machine_safety h₁ (exec_nil c₁) h₃ hno (p := 1) (by decide) hc.1 (by decide) hc).2 2
    (by decide) hr ?_
  rw [ht₁, ht₃]
  decide

end KvStore
