import KvStore.Raft.Refinement
import KvStore.Raft.Turns

/-!
# Election safety

One leader a term and one vote a node and term, over every run of a cluster: with any loss,
duplication and reordering, with snapshots installed, and with crashes anywhere, inside `Persist`
too.

* `Sim.leading`: whoever is a leader, if only between a call and its `Persist`, has the votes of a
  majority on disk. A crash before the `Persist` forgets the leader but none of the votes.
* `election_safety`: so there is one leader a term, ever.
-/

namespace KvStore

open Consensus Machine

variable {S : Prop} {mb : Members} {A : Abs} {n : ℕ} {c c' : Cluster}

/-- The states node `n` can be seen in: between two calls, and after a call before its `Persist`. -/
def Cluster.Shows (c : Cluster) (n : ℕ) (r : Raft) : Prop :=
  r = (c.nodes n).r ∨ ∃ op, c.deliverable op ∧ op.run (c.nodes n).r = some r

/-- Node `n` can be seen as the leader of term `t`. -/
def Cluster.Leading (mb : Members) (c : Cluster) (n t : ℕ) : Prop :=
  n ∈ mb.ids ∧ ∃ r, c.Shows n r ∧ r.role = .leader ∧ r.currentTerm = t

/-- A leader, or a candidate, has voted for itself. -/
theorem Live.vote_self {r : Raft} (h : Live S mb A n r.view)
    (hr : r.role = .leader ∨ r.role = .candidate) : A.vote n r.currentTerm = some n := by
  rcases hr with hr | hr
  · exact h.good.wf.leader_vote (h.mirrors.leader hr).1
  · exact (h.mirrors.candidate hr).1

/-- **A leader has the votes of a majority**, in what is on disk, or it is alone. -/
theorem Sim.leading (h : Sim False mb c A) {t : ℕ} (hl : c.Leading mb n t) :
    (∀ m ∈ mb.ids, m = n) ∨ ∃ Q, Majority mb.set Q ∧ ∀ q ∈ Q, A.vote q t = some n := by
  obtain ⟨hn, r, hshow, hrole, rfl⟩ := hl
  have hlive := (h.node n hn).live
  rcases hshow with rfl | ⟨op, hdel, hrun⟩
  · exact Or.inr (h.good.wf.elected _ n (hlive.mirrors.leader hrole).1)
  rcases (Op.run_turn hrun).of_leader hrole with halone | ⟨hr, hterm⟩
  · left
    intro m hm
    by_contra hne
    have hp : m ∈ (c.nodes n).r.peers := hlive.mem_peers.mpr ⟨hne, hm⟩
    rw [halone] at hp
    exact absurd hp List.not_mem_nil
  · right
    have hself : A.vote n r.currentTerm = some n := by
      rw [hterm]
      exact hlive.vote_self hr
    obtain ⟨A', hlive', hmoves, -⟩ :=
      (h.called hn hdel False.elim hrun).unsaved (h.node n hn)
    obtain ⟨Q, hQ, hvotes⟩ := hlive'.good.wf.elected _ n (hlive'.mirrors.leader hrole).1
    refine ⟨Q, hQ, fun q hq => ?_⟩
    -- the call casts no vote but its own node's
    by_cases hqn : q = n
    · rw [hqn]
      exact hself
    · rw [← hmoves.vote_ne q hqn]
      exact hvotes q hq

/-- **Election safety**: at any two times of a run there is one leader a term, and no two granted
votes of one node in one term go to different candidates. -/
theorem election_safety {as₁ as₂ : List Action} {c₁ c₂ : Cluster} (h₁ : Cluster.Runs mb as₁ c₁)
    (h₂ : exec (Cluster.step mb) c₁ as₂ = some c₂) :
    (∀ t n m, c₁.Leading mb n t → c₂.Leading mb m t → n = m) ∧
    (∀ x ∈ c₁.net, ∀ y ∈ c₂.net, x.type = .requestVoteResponse → y.type = .requestVoteResponse →
      x.voteGranted → y.voteGranted → x.fromId = y.fromId → x.term = y.term → x.toId = y.toId) := by
  obtain ⟨A₁, hA₁⟩ := h₁.sim
  obtain ⟨A₂, hA₂, hg⟩ := hA₁.run
    (along_of_all (fun _ _ => False.elim) c₁ as₂) h₂
  constructor
  · intro t n m hn hm
    rcases hA₁.leading hn with halone | ⟨Q, hQ, hvotes⟩
    · exact (halone m hm.1).symm
    rcases hA₂.leading hm with halone | ⟨Q', hQ', hvotes'⟩
    · exact halone n hn.1
    obtain ⟨q, hq, hq'⟩ := hQ.inter hQ'
    have hv := hg.vote_keep q t n (hvotes q hq)
    rw [hvotes' q hq'] at hv
    exact (Option.some.inj hv).symm
  · intro x hx y hy hxt hyt hxv hyv hfrom hterm
    have hv := hg.vote_keep _ _ _ ((hA₁.net x hx).granted hxt hxv)
    rw [hfrom, hterm, (hA₂.net y hy).granted hyt hyv] at hv
    exact (Option.some.inj hv).symm

/-- Node one leads term one; after node two is elected in term two, still nobody else has. -/
theorem election_safety_three : ∃ c₁ c₂, Cluster.Runs .three commitOne c₁ ∧
    exec (Cluster.step .three) c₁ (electBy 2 3 1 2 0 1 1) = some c₂ ∧ c₁.Leading .three 1 1 ∧
    c₂.Leading .three 2 2 ∧ ∀ m, c₂.Leading .three m 1 → 1 = m := by
  have hrun : ((exec (Cluster.step .three) (Cluster.init .three) commitOne).bind fun c₁ =>
      (exec (Cluster.step .three) c₁ (electBy 2 3 1 2 0 1 1)).map fun c₂ =>
        decide ((c₁.nodes 1).r.role = .leader ∧ (c₁.nodes 1).r.currentTerm = 1 ∧
          (c₂.nodes 2).r.role = .leader ∧ (c₂.nodes 2).r.currentTerm = 2)) = some true := by
    decide +kernel
  obtain ⟨c₁, h₁, hrun⟩ := Option.bind_eq_some_iff.mp hrun
  obtain ⟨c₂, h₂, hrun⟩ := Option.map_eq_some_iff.mp hrun
  obtain ⟨hr₁, ht₁, hr₂, ht₂⟩ := of_decide_eq_true hrun
  have hlead₁ : c₁.Leading .three 1 1 := ⟨by decide, _, Or.inl rfl, hr₁, ht₁⟩
  have hlead₂ : c₂.Leading .three 2 2 := ⟨by decide, _, Or.inl rfl, hr₂, ht₂⟩
  exact ⟨c₁, c₂, h₁, h₂, hlead₁, hlead₂, fun m => (election_safety h₁ h₂).1 1 1 m hlead₁⟩

end KvStore
