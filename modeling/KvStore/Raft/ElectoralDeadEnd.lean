import KvStore.Raft.Ballot
import KvStore.Raft.Refinement
import Mathlib

/-!
# Electoral dead ends

From a state of the cluster, with a majority `Q` of its nodes: can the members of `Q` elect a
leader, by themselves and with the messages between them?

* `Cluster.Continues mb Q c c'`: the members of `Q` can get from `c` to `c'`, by ticks and by the
  messages between them.
* `Cluster.Winning`: some candidate of `Q` has a majority with the votes that are on their way to
  it.
* `Cluster.Winnable`: some member of `Q` gets the pre-votes of a majority from members of `Q`, which
  would grant them now or whose answers are on their way.
* `Cluster.Regular.campaign`: whoever gets them becomes a candidate. Its requests bring every member
  of `Q` to one term, in which the member whose log ends last is elected
  (`Cluster.Regular.electable`).
* `Cluster.Drifts`: as `Continues`, as long as nobody wins an election or, with members of `Q`
  alone, a round of pre-votes. This is what the messages that are on their way may still bring
  about.
* `Cluster.Stuck`: if nobody gets the pre-votes, and nothing is on its way, no term moves any more.
* `electoral_dead_end`: `Q` can elect a leader if and only if it has one or drifts to where one is
  winning or can win. Where its members follow and nothing is on its way, it must be able to win at
  once.

A follower does not learn the term of a node that asks for its pre-vote, nor the other way round. So
a node whose log is ahead and one whose term is ahead turn each other down for ever.
-/

namespace KvStore

open Consensus Machine

/-- A tick of a member of `Q`, or a message from one member of `Q` to another. -/
def Action.Within (Q : Finset ℕ) : Action → Prop
  | .run n .tick none => n ∈ Q
  | .run n (.step m) none => n ∈ Q ∧ m.fromId ∈ Q ∧ m.toId = n
  | _ => False

/-- The message gives `m` the vote, or the pre-vote, of `q`. -/
def Message.Gives (x : Message) (type : MessageType) (q m : ℕ) : Prop :=
  x.type = type ∧ x.fromId = q ∧ x.toId = m ∧ x.voteGranted = true

instance (x : Message) (type : MessageType) (q m : ℕ) : Decidable (x.Gives type q m) :=
  inferInstanceAs (Decidable (_ ∧ _))

namespace Cluster

variable (mb : Members) (Q : Finset ℕ)

/-- The members of `Q` can get from `c` to `c'` by themselves. -/
def Continues (c c' : Cluster) : Prop :=
  ∃ as : List Action, (∀ a ∈ as, a.Within Q) ∧ exec (Cluster.step mb) c as = some c'

/-- The members of `Q` can elect a leader by themselves. -/
def Electable (c : Cluster) : Prop :=
  ∃ c', c.Continues mb Q c' ∧ ∃ n ∈ Q, (c'.nodes n).r.role = .leader

/-- The nodes as elections see them. -/
def stances (c : Cluster) (n : ℕ) : Stance := (c.nodes n).r.stance

/-- The members of `Q` that would grant a pre-vote to `m`, which counts its own, or have granted it
one. -/
def backers (c : Cluster) (m : ℕ) : Finset ℕ :=
  Q.filter fun q => q = m ∨ (c.stances q).Grants ((c.stances m).request .preVote m q) ∨
    ∃ x ∈ c.net, x.Gives .preVoteResponse q m

/-- Some member of `Q` gets the pre-votes of a majority. -/
def Winnable (c : Cluster) : Prop := ∃ m ∈ Q, Majority mb.set (c.backers Q m)

/-- The members of `Q` that have voted for `m` in its term. -/
def voters (c : Cluster) (m : ℕ) : Finset ℕ :=
  Q.filter fun q => ∃ x ∈ c.net, x.Gives .requestVoteResponse q m ∧ x.term = (c.stances m).term

/-- Some candidate of `Q` has a majority with the votes of members of `Q` that are on their way to
it. -/
def Winning (c : Cluster) : Prop :=
  ∃ m ∈ Q, (c.stances m).role = .candidate ∧ (c.voters Q m).Nonempty ∧
    mb.ids.length < 2 * ((c.stances m).votes ∪ c.voters Q m).card

/-- No member of `Q` comes to lead, and none becomes a candidate with the pre-votes of members of
`Q` alone. -/
def Calm (c c' : Cluster) : Prop := ∀ n ∈ Q, (c'.nodes n).r.role ≠ .leader ∧
  ((c'.nodes n).r.role = .candidate → (c.nodes n).r.role = .candidate ∨
    ¬(c'.nodes n).r.preVotesReceived ⊆ Q)

/-- The members of `Q` can get from `c` to `c'` by themselves, and calmly. -/
def Drifts : Cluster → Cluster → Prop :=
  Relation.ReflTransGen fun c c' => (∃ a : Action, a.Within Q ∧ c.step mb a = some c') ∧ Calm Q c c'

/-- The members of `Q` follow, and there is no message between two of them. -/
def Quiet (c : Cluster) : Prop :=
  (∀ n ∈ Q, (c.nodes n).r.role = .follower) ∧ ∀ x ∈ c.net, ¬(x.fromId ∈ Q ∧ x.toId ∈ Q)

instance (c : Cluster) : Decidable (c.Quiet Q) := inferInstanceAs (Decidable (_ ∧ _))

instance (c : Cluster) : Decidable (c.Winnable mb Q) :=
  inferInstanceAs (Decidable (∃ m ∈ Q, Majority mb.set (c.backers Q m)))

/-- The nodes are in states that a run can lead to. -/
def Regular (c : Cluster) : Prop := ∃ A, Sim False mb c A

/-- Whoever is counted by a node that asks for pre-votes has granted it one. -/
def Counted (c : Cluster) : Prop := ∀ n ∈ mb.ids, (c.nodes n).r.role = .preCandidate →
  ∀ p ∈ (c.nodes n).r.preVotesReceived, p = n ∨ ∃ x ∈ c.net, x.Gives .preVoteResponse p n

/-- Node `n` has become `r`, and has sent its messages. -/
structure Turned (c : Cluster) (n : ℕ) (r : Raft) (c' : Cluster) : Prop where
  regular : c'.Regular mb
  stances_eq : c'.stances = Function.update c.stances n r.stance
  timer_eq : (c'.nodes n).r.timer = r.timer
  others : ∀ p ≠ n, c'.nodes p = c.nodes p
  net_eq : c'.net = c.net ++ r.msgs

variable (m : ℕ) (c₀ : Cluster)

/-- Since `c₀`, node `m` has asked for pre-votes and counted those of `seen`. -/
structure Polling (seen : Finset ℕ) (c : Cluster) : Prop where
  regular : c.Regular mb
  stances_eq : c.stances =
    Function.update c₀.stances m { (c₀.stances m).preCandidate m with preVotes := seen }
  requests : ∀ p ∈ mb.ids, p ≠ m → (c₀.stances m).request .preVote m p ∈ c.net
  sent : ∀ x ∈ c₀.net, x ∈ c.net
  self : m ∈ seen
  few : 2 * seen.card ≤ mb.ids.length

/-- Since `c₀`, node `m` has become a candidate and asked everybody for a vote. -/
structure Campaigning (c : Cluster) : Prop where
  regular : c.Regular mb
  stances_eq : ∃ pre, c.stances =
    Function.update c₀.stances m ({ c₀.stances m with preVotes := pre }.candidate m)
  requests : ∀ p ∈ mb.ids, p ≠ m → ((c₀.stances m).candidate m).request .requestVote m p ∈ c.net

/-- Node `m` has asked everybody for a vote of a term that no member of `Q` is beyond, and `seen`
have reached it. -/
structure Leveling (t : ℕ) (seen : Finset ℕ) (c : Cluster) : Prop where
  regular : c.Regular mb
  idle : ∀ q ∈ Q, (c.stances q).role ≠ .leader
  le_term : ∀ q ∈ Q, (c.stances q).term ≤ t
  term_eq : ∀ q ∈ seen, (c.stances q).term = t
  requests : ∀ p ∈ mb.ids, p ≠ m →
    ∃ x ∈ c.net, x.type = .requestVote ∧ x.fromId = m ∧ x.toId = p ∧ x.term = t
  self : m ∈ seen

/-- Since `c₀`, node `m` has become a candidate and counted the votes of `seen`. -/
structure Electing (seen : Finset ℕ) (c : Cluster) : Prop where
  regular : c.Regular mb
  candidate :
    ∃ pre, c.stances m = { { c₀.stances m with preVotes := pre }.candidate m with votes := seen }
  waiting : ∀ q ∈ Q, q ∉ seen → c.stances q = c₀.stances q
  requests : ∀ p ∈ mb.ids, p ≠ m → ((c₀.stances m).candidate m).request .requestVote m p ∈ c.net
  self : m ∈ seen
  few : 2 * seen.card ≤ mb.ids.length

/-- Since `c₀`, the candidate `m` has counted the votes of `seen`, which were on their way. -/
structure Tallying (seen : Finset ℕ) (c : Cluster) : Prop where
  regular : c.Regular mb
  candidate : c.stances m = { c₀.stances m with votes := (c₀.stances m).votes ∪ seen }
  sent : ∀ x ∈ c₀.net, x ∈ c.net
  few : seen.Nonempty → 2 * ((c₀.stances m).votes ∪ seen).card ≤ mb.ids.length

end Cluster

variable {mb : Members} {Q : Finset ℕ} {c c' c'' : Cluster} {n m q : ℕ}

namespace Cluster

theorem Continues.refl (c : Cluster) : c.Continues mb Q c :=
  ⟨[], fun _ h => absurd h List.not_mem_nil, rfl⟩

theorem Continues.trans (h : c.Continues mb Q c') (h' : c'.Continues mb Q c'') :
    c.Continues mb Q c'' := by
  obtain ⟨as, has, hrun⟩ := h
  obtain ⟨bs, hbs, hrun'⟩ := h'
  exact ⟨as ++ bs, fun a ha => (List.mem_append.mp ha).elim (has a) (hbs a),
    exec_append.mpr ⟨c', hrun, hrun'⟩⟩

theorem step_mem_net {a : Action} (h : c.step mb a = some c') {x : Message} (hx : x ∈ c.net) :
    x ∈ c'.net := by
  cases step_cases h with
  | ran => exact List.mem_append_left _ hx
  | compacted | restarted => exact hx

theorem Continues.mem_net (h : c.Continues mb Q c') {x : Message} (hx : x ∈ c.net) :
    x ∈ c'.net := by
  obtain ⟨as, -, hrun⟩ := h
  exact exec_induct (P := fun _ _ => True) (I := fun c => x ∈ c.net)
    (fun _ _ _ hx _ hstep => step_mem_net hstep hx) hx (along_of_all (fun _ _ => trivial) c as) hrun

theorem Electable.of_continues (h : c.Continues mb Q c') (h' : c'.Electable mb Q) :
    c.Electable mb Q := by
  obtain ⟨c'', hc'', hl⟩ := h'
  exact ⟨c'', h.trans hc'', hl⟩

/-- Members of `Q` are dealt with one after another, until the goal is reached. -/
theorem Continues.each {I : Finset ℕ → Cluster → Prop} {D : Cluster → Prop} (todo : Finset ℕ)
    (hstep : ∀ seen c, I seen c → ∀ q ∈ todo, q ∉ seen →
      ∃ c', c.Continues mb Q c' ∧ (D c' ∨ I (insert q seen) c')) {seen : Finset ℕ} (hc : I seen c) :
    ∃ c', c.Continues mb Q c' ∧ (D c' ∨ I (seen ∪ todo) c') := by
  have hall : ∀ t, t ⊆ todo → ∃ c', c.Continues mb Q c' ∧ (D c' ∨ I (seen ∪ t) c') := by
    intro t
    induction t using Finset.induction_on with
    | empty => exact fun _ => ⟨c, .refl c, Or.inr (by rwa [Finset.union_empty])⟩
    | insert q t hq ih =>
      intro hsub
      obtain ⟨c₁, h₁, hD | hI⟩ := ih ((Finset.subset_insert q t).trans hsub)
      · exact ⟨c₁, h₁, Or.inl hD⟩
      rw [Finset.union_insert]
      by_cases hseen : q ∈ seen ∪ t
      · exact ⟨c₁, h₁, Or.inr (by rwa [Finset.insert_eq_self.mpr hseen])⟩
      · obtain ⟨c₂, h₂, hres⟩ := hstep _ _ hI q (hsub (Finset.mem_insert_self q t)) hseen
        exact ⟨c₂, h₁.trans h₂, hres⟩
  exact hall todo subset_rfl

namespace Regular

theorem spans (h : c.Regular mb) (hn : n ∈ mb.ids) : ∃ l b, Spans (c.nodes n).r l b := by
  obtain ⟨A, hA⟩ := h
  exact ⟨_, _, (hA.node n hn).live.spans⟩

theorem id_eq (h : c.Regular mb) (hn : n ∈ mb.ids) : (c.nodes n).r.id = n := by
  obtain ⟨A, hA⟩ := h
  exact (hA.node n hn).live.mirrors.id_eq

theorem msgs_eq (h : c.Regular mb) (hn : n ∈ mb.ids) : (c.nodes n).r.msgs = [] := by
  obtain ⟨A, hA⟩ := h
  exact (hA.node n hn).msgs_eq

theorem mem_peers (h : c.Regular mb) (hn : n ∈ mb.ids) {p : ℕ} :
    p ∈ (c.nodes n).r.peers ↔ p ≠ n ∧ p ∈ mb.ids := by
  obtain ⟨A, hA⟩ := h
  exact (hA.node n hn).live.mem_peers

theorem step (h : c.Regular mb) {a : Action} (hstep : c.step mb a = some c') : c'.Regular mb := by
  obtain ⟨A, hA⟩ := h
  obtain ⟨A', hA', -⟩ := hA.step False.elim hstep
  exact ⟨A', hA'⟩

/-- A call that returns is followed by a `Persist` that returns. -/
theorem act (h : c.Regular mb) (hn : n ∈ mb.ids) {op : Op} (hdel : c.deliverable op) {r : Raft}
    (hrun : op.run (c.nodes n).r = some r) :
    ∃ c', c.step mb (.run n op none) = some c' ∧ Turned mb c n r c' := by
  obtain ⟨A, hA⟩ := id h
  obtain ⟨A', d', rd, nd', hp, hnd, hm, -⟩ :=
    (hA.called hn hdel False.elim hrun).persist (hA.node n hn)
  have hstep : c.step mb (.run n op none) = some {
      nodes := Function.update c.nodes n nd'
      net := c.net ++ rd.messages
      reads := c.reads ++ rd.readStates.map fun rs => (n, rs) } := by
    simp only [Cluster.step, if_pos (And.intro hn hdel), hrun, Cluster.finish, hp]
  refine ⟨_, hstep, h.step hstep, ?_, ?_, fun p hpn => Function.update_of_ne hpn _ _, by rw [hm]⟩
  · funext p
    show (Function.update c.nodes n nd' p).r.stance = _
    by_cases hpn : p = n
    · subst hpn
      rw [Function.update_self, Function.update_self, hnd]
      rfl
    · rw [Function.update_of_ne hpn, Function.update_of_ne hpn]
      rfl
  · show (Function.update c.nodes n nd' n).r.timer = _
    rw [Function.update_self, hnd]
    rfl

/-- A call of an election is a continuation. -/
theorem continues (h : c.Regular mb) (hQ : Q ⊆ mb.set) (op : Op)
    (hin : (Action.run n op none).Within Q) (hn : n ∈ Q) (hdel : c.deliverable op) {r : Raft}
    (hrun : op.run (c.nodes n).r = some r) : ∃ c', c.Continues mb Q c' ∧ Turned mb c n r c' := by
  obtain ⟨c', hstep, hres⟩ := h.act (mb.mem_set.mp (hQ hn)) hdel hrun
  refine ⟨c', ⟨[_], fun a ha => ?_, exec_singleton.mpr hstep⟩, hres⟩
  rw [List.mem_singleton.mp ha]
  exact hin

/-- A message from `m` to `q` is delivered. -/
theorem deliver (h : c.Regular mb) (hQ : Q ⊆ mb.set) (hm : m ∈ Q) (hq : q ∈ Q) {x : Message}
    (hx : x ∈ c.net) (hfrom : x.fromId = m) (hto : x.toId = q) {r : Raft}
    (hrun : (c.nodes q).r.step x = some r) : ∃ c', c.Continues mb Q c' ∧ Turned mb c q r c' :=
  h.continues hQ (.step x) ⟨hq, hfrom ▸ hm, hto⟩ hq hx hrun

theorem hasMajorityCount_iff (h : c.Regular mb) (hn : n ∈ mb.ids) {k : ℕ} :
    (c.nodes n).r.hasMajorityCount k = true ↔ mb.ids.length < 2 * k := by
  obtain ⟨A, hA⟩ := h
  have hpeers : (c.nodes n).r.peers = (mb.config n).peers := (hA.node n hn).live.mirrors.peers_eq
  rw [Raft.hasMajorityCount_iff, hpeers, mb.length_peers hn]
  omega

/-! ## Pre-votes -/

/-- A tick of a node that does not lead. -/
theorem tick_cases (h : c.Regular mb) (hQ : Q ⊆ mb.set) (hm : m ∈ Q) (hp : ∃ p ∈ mb.ids, p ≠ m)
    (hr : (c.stances m).role ≠ .leader) : ∃ c', c.Continues mb Q c' ∧ c'.Regular mb ∧
      (c'.stances = c.stances ∧ (c.nodes m).r.timer.1 + 1 < (c.nodes m).r.timer.2 ∧
          (c'.nodes m).r.timer = ((c.nodes m).r.timer.1 + 1, (c.nodes m).r.timer.2) ∨
        c'.stances = Function.update c.stances m ((c.stances m).preCandidate m) ∧
          ∀ p ∈ mb.ids, p ≠ m → (c.stances m).request .preVote m p ∈ c'.net) := by
  have hmid : m ∈ mb.ids := mb.mem_set.mp (hQ hm)
  obtain ⟨p, hpid, hpm⟩ := hp
  obtain ⟨l, b, hsp⟩ := h.spans hmid
  have hpeers : (c.nodes m).r.peers ≠ [] := List.ne_nil_of_mem ((h.mem_peers hmid).mpr ⟨hpm, hpid⟩)
  obtain ⟨r, hrun, hcases⟩ := hsp.tick_of_follower hpeers hr
  obtain ⟨c', hc', h', hst', htm', -, hnet⟩ := h.continues hQ .tick hm hm trivial hrun
  refine ⟨c', hc', h', ?_⟩
  rcases hcases with ⟨hlt, hst, -, htm⟩ | ⟨-, hst, hmsgs⟩
  · refine Or.inl ⟨?_, hlt, htm'.trans htm⟩
    rw [hst', hst]
    exact Function.update_eq_self m c.stances
  · rw [hst, h.id_eq hmid] at hst'
    refine Or.inr ⟨hst', fun p hp hne => ?_⟩
    rw [hnet, hmsgs, h.id_eq hmid]
    exact List.mem_append_right _ (List.mem_append_right _
      (List.mem_map.mpr ⟨p, (h.mem_peers hmid).mpr ⟨hne, hp⟩, rfl⟩))

/-- A node that does not lead times out. -/
theorem exists_timeout {s : ℕ → Stance} {D : Cluster → Prop}
    (htick : ∀ {c : Cluster}, c.Regular mb → c.stances = s → ∃ c', c.Continues mb Q c' ∧
      (c'.Regular mb ∧ c'.stances = s ∧ (c.nodes m).r.timer.1 + 1 < (c.nodes m).r.timer.2 ∧
        (c'.nodes m).r.timer = ((c.nodes m).r.timer.1 + 1, (c.nodes m).r.timer.2) ∨ D c'))
    (k : ℕ) : ∀ {c : Cluster}, c.Regular mb → c.stances = s →
      (c.nodes m).r.timer.2 ≤ (c.nodes m).r.timer.1 + k → ∃ c', c.Continues mb Q c' ∧ D c' := by
  -- on the ticks that are left
  induction k with
  | zero =>
    intro c h hs hk
    obtain ⟨c', hc', ⟨-, -, hlt, -⟩ | hD⟩ := htick h hs
    · omega
    · exact ⟨c', hc', hD⟩
  | succ k ih =>
    intro c h hs hk
    obtain ⟨c₁, hc₁, ⟨h₁, hs₁, -, htm⟩ | hD⟩ := htick h hs
    · obtain ⟨c', hc', hD⟩ := ih h₁ hs₁ (by rw [htm]; dsimp only; omega)
      exact ⟨c', hc₁.trans hc', hD⟩
    · exact ⟨c₁, hc₁, hD⟩

/-- The only member of a cluster leads when it times out. -/
theorem alone (h : c.Regular mb) (hQ : Q ⊆ mb.set) (hm : m ∈ Q) (hr : (c.stances m).role ≠ .leader)
    (hp : ∀ p ∈ mb.ids, p = m) : c.Electable mb Q := by
  have hmid : m ∈ mb.ids := mb.mem_set.mp (hQ hm)
  refine (exists_timeout (m := m) (D := fun c' => ∃ n ∈ Q, (c'.nodes n).r.role = .leader)
    (fun {c₁} h₁ hs₁ => ?_) _ h rfl (Nat.le_add_left _ _)).imp fun c' hc' => hc'
  obtain ⟨l, b, hsp⟩ := h₁.spans hmid
  have hpeers : (c₁.nodes m).r.peers = [] := List.eq_nil_iff_forall_not_mem.mpr fun p hpp =>
    ((h₁.mem_peers hmid).mp hpp).1 (hp p ((h₁.mem_peers hmid).mp hpp).2)
  have hr₁ : (c₁.stances m).role ≠ .leader := by rwa [hs₁]
  obtain ⟨r, hrun, hcases⟩ := hsp.tick_alone hpeers hr₁
  obtain ⟨c', hc', h', hst', htm', -, -⟩ := h₁.continues hQ .tick hm hm trivial hrun
  refine ⟨c', hc', ?_⟩
  rcases hcases with ⟨hlt, hst, htm⟩ | hl
  · refine Or.inl ⟨h', ?_, hlt, htm'.trans htm⟩
    rw [hst', hst, ← hs₁]
    exact Function.update_eq_self m c₁.stances
  · refine Or.inr ⟨m, hm, ?_⟩
    have hrole : (c'.stances m).role = .leader := by rw [hst', Function.update_self]; exact hl
    exact hrole

/-- A node that times out asks for pre-votes. -/
theorem exists_preCandidate (h : c.Regular mb) (hQ : Q ⊆ mb.set) (hm : m ∈ Q)
    (hp : ∃ p ∈ mb.ids, p ≠ m) (hr : (c.stances m).role ≠ .leader) : ∃ c', c.Continues mb Q c' ∧
      c'.Regular mb ∧ c'.stances = Function.update c.stances m ((c.stances m).preCandidate m) ∧
      ∀ p ∈ mb.ids, p ≠ m → (c.stances m).request .preVote m p ∈ c'.net := by
  refine exists_timeout (m := m) (s := c.stances) (fun {c₁} h₁ hs₁ => ?_) _ h rfl
    (Nat.le_add_left _ _)
  obtain ⟨c', hc', h', ⟨hsame, hlt, htm⟩ | hres⟩ := h₁.tick_cases hQ hm hp (by rwa [hs₁])
  · exact ⟨c', hc', Or.inl ⟨h', hsame.trans hs₁, hlt, htm⟩⟩
  · rw [hs₁] at hres
    exact ⟨c', hc', Or.inr ⟨h', hres⟩⟩

/-- A member of `Q` is asked for a pre-vote and grants it. -/
theorem grant_preVote (h : c.Regular mb) (hQ : Q ⊆ mb.set) (hm : m ∈ Q) (hq : q ∈ Q)
    (hx : (c.stances m).request .preVote m q ∈ c.net)
    (hg : (c.stances q).Grants ((c.stances m).request .preVote m q)) :
    ∃ c', c.Continues mb Q c' ∧ c'.Regular mb ∧ c'.stances = c.stances ∧
      ∃ y ∈ c'.net, y.Gives .preVoteResponse q m := by
  have hqid : q ∈ mb.ids := mb.mem_set.mp (hQ hq)
  set x := (c.stances m).request .preVote m q with hxdef
  set y := (c.nodes q).r.preVoteAnswer x with hydef
  obtain ⟨l, b, hsp⟩ := h.spans hqid
  have hrun : (c.nodes q).r.step x = some
      { (c.nodes q).r with msgs := (c.nodes q).r.msgs ++ [y] } := by
    rw [Raft.step_preVote (h.id_eq hqid).symm rfl]
    exact hsp.handlePreVote x
  obtain ⟨c', hc', h'⟩ := h.deliver hQ hm hq hx rfl rfl hrun
  refine ⟨c', hc', h'.regular, h'.stances_eq.trans (Function.update_eq_self q _), y, ?_, rfl,
    h.id_eq hqid, rfl, decide_eq_true hg⟩
  rw [h'.net_eq]
  exact List.mem_append_right _ (List.mem_append_right _ (List.mem_singleton_self y))

/-- A pre-vote is counted. -/
theorem count_preVote (h : c.Regular mb) (hQ : Q ⊆ mb.set) (hm : m ∈ Q) (hq : q ∈ Q) (hne : q ≠ m)
    (hr : (c.stances m).role = .preCandidate) {y : Message} (hy : y ∈ c.net)
    (hg : y.Gives .preVoteResponse q m) : ∃ c', c.Continues mb Q c' ∧ c'.Regular mb ∧
      if mb.ids.length < 2 * (insert q (c.stances m).preVotes).card then
        c'.stances = Function.update c.stances m
            ({ c.stances m with preVotes := insert q (c.stances m).preVotes }.candidate m) ∧
          ∀ p ∈ mb.ids, p ≠ m → ((c.stances m).candidate m).request .requestVote m p ∈ c'.net
      else c'.stances = Function.update c.stances m
        { c.stances m with preVotes := insert q (c.stances m).preVotes } := by
  obtain ⟨hty, hfrom, hto, hgranted⟩ := hg
  have hmid : m ∈ mb.ids := mb.mem_set.mp (hQ hm)
  have hpeers : (c.nodes m).r.peers ≠ [] :=
    List.ne_nil_of_mem ((h.mem_peers hmid).mpr ⟨hne, mb.mem_set.mp (hQ hq)⟩)
  obtain ⟨l, b, hsp⟩ := h.spans hmid
  obtain ⟨r, hrun, hres⟩ := hsp.handlePreVoteResponse (m := y) hpeers hr hgranted
  rw [← Raft.step_preVoteResponse (hto.trans (h.id_eq hmid).symm) hty] at hrun
  obtain ⟨c', hc', h'⟩ := h.deliver hQ hq hm hy hfrom hto hrun
  refine ⟨c', hc', h'.regular, ?_⟩
  rw [hfrom, h.id_eq hmid] at hres
  have hcount := h.hasMajorityCount_iff hmid (k := (insert q (c.stances m).preVotes).card)
  by_cases hmaj : mb.ids.length < 2 * (insert q (c.stances m).preVotes).card
  · rw [if_pos hmaj]
    obtain ⟨hs, hmsgs⟩ := (if_pos (hcount.mpr hmaj)).mp hres
    refine ⟨by rw [h'.stances_eq, hs]; rfl, fun p hp hpm => ?_⟩
    rw [h'.net_eq, hmsgs]
    exact List.mem_append_right _ (List.mem_append_right _
      (List.mem_map.mpr ⟨p, (h.mem_peers hmid).mpr ⟨hpm, hp⟩, rfl⟩))
  · rw [if_neg hmaj]
    obtain ⟨hs, -⟩ := (if_neg fun hc => hmaj (hcount.mp hc)).mp hres
    rw [h'.stances_eq, hs]
    rfl

/-- A backer's pre-vote is counted. -/
theorem polled {c₀ : Cluster} {seen : Finset ℕ} (h : Polling mb m c₀ seen c)
    (hQ : Q ⊆ mb.set) (hm : m ∈ Q) (hq : q ∈ c₀.backers Q m) (hseen : q ∉ seen) :
    ∃ c', c.Continues mb Q c' ∧ (Campaigning mb m c₀ c' ∨ Polling mb m c₀ (insert q seen) c') := by
  obtain ⟨hqQ, hback⟩ := Finset.mem_filter.mp hq
  have hne : q ≠ m := fun heq => hseen (heq ▸ h.self)
  have hstm : c.stances m = { (c₀.stances m).preCandidate m with preVotes := seen } := by
    rw [h.stances_eq, Function.update_self]
  have hstq : c.stances q = c₀.stances q := by rw [h.stances_eq, Function.update_of_ne hne]
  have hreq : (c.stances m).request .preVote m q = (c₀.stances m).request .preVote m q := by
    rw [hstm]
    rfl
  -- the answer is on its way, or `q` is asked for it
  obtain ⟨c₁, hc₁, h₁, hst₁, y, hy, hgives⟩ : ∃ c₁, c.Continues mb Q c₁ ∧ c₁.Regular mb ∧
      c₁.stances = c.stances ∧ ∃ y ∈ c₁.net, y.Gives .preVoteResponse q m := by
    rcases hback.resolve_left hne with hgrants | ⟨y, hy, hgives⟩
    · exact h.regular.grant_preVote hQ hm hqQ
        (by rw [hreq]; exact h.requests q (mb.mem_set.mp (hQ hqQ)) hne)
          (by rw [hreq, hstq]; exact hgrants)
    · exact ⟨c, .refl c, h.regular, rfl, y, h.sent y hy, hgives⟩
  obtain ⟨c', hc', h', hres⟩ := h₁.count_preVote hQ hm hqQ hne (by rw [hst₁, hstm]; rfl) hy hgives
  refine ⟨c', hc₁.trans hc', ?_⟩
  rw [hst₁, hstm] at hres
  split_ifs at hres with hmaj
  · left
    refine ⟨h', ⟨insert q seen, ?_⟩, hres.2⟩
    rw [hres.1, h.stances_eq, Function.update_idem]
    rfl
  · right
    refine ⟨h', ?_, fun p hp hpm => (hc₁.trans hc').mem_net (h.requests p hp hpm),
      fun x hx => (hc₁.trans hc').mem_net (h.sent x hx), Finset.mem_insert_of_mem h.self,
        not_lt.mp hmaj⟩
    rw [hres, h.stances_eq, Function.update_idem]

/-- Where there is another member, one alone is no majority. -/
theorem two_mul_card_singleton_le (hQ : Q ⊆ mb.set) (hm : m ∈ Q) (hp : ∃ p ∈ mb.ids, p ≠ m) :
    2 * ({m} : Finset ℕ).card ≤ mb.ids.length := by
  obtain ⟨p, hpid, hpm⟩ := hp
  have hpair : ({m, p} : Finset ℕ) ⊆ mb.set := by
    intro x hx
    rcases Finset.mem_insert.mp hx with rfl | hx
    · exact hQ hm
    · rw [Finset.mem_singleton.mp hx]
      exact mb.mem_set.mpr hpid
  have hcard := Finset.card_le_card hpair
  rw [Finset.card_pair hpm.symm, mb.card_set] at hcard
  rw [Finset.card_singleton]
  omega

/-- **Whoever would get the pre-votes of a majority becomes a candidate**, and asks everybody for a
vote. -/
theorem campaign (h : c.Regular mb) (hQ : Q ⊆ mb.set) (hm : m ∈ Q)
    (hr : (c.stances m).role ≠ .leader) (hp : ∃ p ∈ mb.ids, p ≠ m)
    (hwin : Majority mb.set (c.backers Q m)) : ∃ c', c.Continues mb Q c' ∧
      Campaigning mb m c c' := by
  obtain ⟨c₁, hc₁, h₁, hst₁, hnet₁⟩ := h.exists_preCandidate hQ hm hp hr
  have hself : m ∈ c.backers Q m := Finset.mem_filter.mpr ⟨hm, Or.inl rfl⟩
  have hstart : Polling mb m c {m} c₁ := by
    exact ⟨h₁, hst₁, hnet₁, fun _ => hc₁.mem_net, Finset.mem_singleton_self m,
      two_mul_card_singleton_le hQ hm hp⟩
  obtain ⟨c₂, hc₂, hD | hI⟩ := Continues.each (c.backers Q m)
    (fun seen c' hc' q hq hseen => polled hc' hQ hm hq hseen) hstart
  · exact ⟨c₂, hc₁.trans hc₂, hD⟩
  · -- all backers are counted, but they are a majority
    have hfew := hI.few
    rw [Finset.union_eq_right.mpr (Finset.singleton_subset_iff.mpr hself)] at hfew
    have := hwin.2
    rw [mb.card_set] at this
    omega

/-! ## One term -/

/-- A member of `Q` in a higher term turns a candidate down, which then follows in that term. -/
theorem turned_down {c₀ : Cluster} {z : ℕ} (h : Campaigning mb m c₀ c) (hQ : Q ⊆ mb.set)
    (hm : m ∈ Q) (hz : z ∈ Q) (hlt : (c₀.stances m).term + 1 < (c₀.stances z).term) :
    ∃ c', c.Continues mb Q c' ∧ c'.Regular mb ∧
      ∃ s : Stance, c'.stances = Function.update c₀.stances m s ∧ s.term = (c₀.stances z).term ∧
        s.role = .follower ∧ s.logEnd = (c₀.stances m).logEnd := by
  have hmid : m ∈ mb.ids := mb.mem_set.mp (hQ hm)
  have hzid : z ∈ mb.ids := mb.mem_set.mp (hQ hz)
  have hne : z ≠ m := by
    rintro rfl
    omega
  obtain ⟨pre, hst⟩ := h.stances_eq
  have hstz : (c.nodes z).r.stance = c₀.stances z :=
    (congrFun hst z).trans (Function.update_of_ne hne _ _)
  have hstm : (c.nodes m).r.stance = { c₀.stances m with preVotes := pre }.candidate m :=
    (congrFun hst m).trans (Function.update_self m _ _)
  have hzterm : (c.nodes z).r.currentTerm = (c₀.stances z).term := congrArg Stance.term hstz
  set x := ((c₀.stances m).candidate m).request .requestVote m z with hxdef
  set y := (c.nodes z).r.voteAnswer x (c.nodes z).r.currentTerm false with hydef
  have hrun₁ : (c.nodes z).r.step x = some
      { (c.nodes z).r with msgs := (c.nodes z).r.msgs ++ [y] } := by
    rw [Raft.step_requestVote (h.regular.id_eq hzid).symm rfl]
    exact Spans.handleRequestVote_old (hlt.trans_eq hzterm.symm)
  have hlt₂ : (c.nodes m).r.currentTerm < y.term :=
    (congrArg Stance.term hstm).trans_lt (hlt.trans_eq hzterm.symm)
  obtain ⟨r, hrun₂, hres, -⟩ := Spans.handleRequestVoteResponse_new hlt₂
  rw [← Raft.step_requestVoteResponse (h.regular.id_eq hmid).symm rfl] at hrun₂
  obtain ⟨c₁, hc₁, h₁⟩ := h.regular.deliver hQ hm hz (h.requests z hzid hne) rfl rfl hrun₁
  have hy : y ∈ c₁.net :=
    h₁.net_eq ▸ List.mem_append_right _ (List.mem_append_right _ (List.mem_singleton_self y))
  obtain ⟨c', hc', h'⟩ :=
    h₁.regular.deliver hQ hz hm hy (h.regular.id_eq hzid) rfl (by rwa [h₁.others m hne.symm])
  refine ⟨c', hc₁.trans hc', h'.regular, r.stance, ?_, ?_, ?_, ?_⟩
  · have hsame : Function.update c.stances z (c.nodes z).r.stance = c.stances :=
      Function.update_eq_self z _
    rw [h'.stances_eq, h₁.stances_eq, show Raft.stance
      { (c.nodes z).r with msgs := (c.nodes z).r.msgs ++ [y] } = (c.nodes z).r.stance from rfl,
          hsame, hst, Function.update_idem]
  · rw [hres]
    exact hzterm
  · rw [hres]
    rfl
  · rw [hres, hstm]
    rfl

/-- Who is in a higher term keeps its backers. -/
theorem backers_subset {c₀ : Cluster} {s : Stance}
    (hst : c.stances = Function.update c₀.stances m s) (hlt : (c₀.stances m).term + 1 < s.term)
    (hlog : s.logEnd = (c₀.stances m).logEnd) (hnet : ∀ x ∈ c₀.net, x ∈ c.net) :
    c₀.backers Q m ⊆ c.backers Q m := by
  intro q hq
  obtain ⟨hqQ, hback⟩ := Finset.mem_filter.mp hq
  refine Finset.mem_filter.mpr ⟨hqQ, ?_⟩
  by_cases hqm : q = m
  · exact Or.inl hqm
  right
  rcases hback.resolve_left hqm with ⟨hterm, -, hend⟩ | ⟨x, hx, hgives⟩
  swap
  · exact Or.inr ⟨x, hnet x hx, hgives⟩
  left
  rw [hst, Function.update_self, Function.update_of_ne hqm]
  have hterm' : (c₀.stances q).term ≤ (c₀.stances m).term + 1 := hterm
  refine ⟨?_, Or.inr (Or.inr ?_), ?_⟩
  · show _ ≤ s.term + 1
    omega
  · show _ < s.term + 1
    omega
  · show _ ≤ s.logEnd
    rw [hlog]
    exact hend

/-- A candidate whose term is not behind asks for the votes of that term. -/
theorem leveling_of_campaigning {c₀ : Cluster} (h : Campaigning mb m c₀ c)
    (hidle : ∀ q ∈ Q, (c₀.stances q).role ≠ .leader)
    (hle : ∀ q ∈ Q, (c₀.stances q).term ≤ (c₀.stances m).term + 1) :
    Leveling mb Q m ((c₀.stances m).term + 1) {m} c := by
  obtain ⟨pre, hst⟩ := h.stances_eq
  have hself : c.stances m = { c₀.stances m with preVotes := pre }.candidate m := by
    rw [hst, Function.update_self]
  have hother : ∀ q ≠ m, c.stances q = c₀.stances q := fun q hq => by
    rw [hst, Function.update_of_ne hq]
  refine ⟨h.regular, fun q hq => ?_, fun q hq => ?_, fun q hq => ?_, fun p hp hpm => ?_,
    Finset.mem_singleton_self m⟩
  · by_cases hqm : q = m
    · rw [hqm, hself]
      exact Role.noConfusion
    · rw [hother q hqm]
      exact hidle q hq
  · by_cases hqm : q = m
    · rw [hqm, hself]
      exact le_rfl
    · rw [hother q hqm]
      exact hle q hq
  · rw [Finset.mem_singleton.mp hq, hself]
    rfl
  · exact ⟨_, h.requests p hp hpm, rfl, rfl, rfl, rfl⟩

/-- Whoever would get the pre-votes of a majority becomes a candidate of a term that is not
behind. -/
theorem exists_leveling (h : c.Regular mb) (hQ : Q ⊆ mb.set) (hm : m ∈ Q) (hp : ∃ p ∈ mb.ids, p ≠ m)
    (hidle : ∀ q ∈ Q, (c.stances q).role ≠ .leader) (hwin : Majority mb.set (c.backers Q m)) :
    ∃ c' t, c.Continues mb Q c' ∧ Leveling mb Q m t {m} c' := by
  obtain ⟨c₁, hc₁, h₁⟩ := h.campaign hQ hm (hidle m hm) hp hwin
  -- the member of `Q` whose term is the highest may turn it down
  obtain ⟨z, hz, hmax⟩ := Finset.exists_max_image Q (fun q => (c.stances q).term) ⟨m, hm⟩
  by_cases hlt : (c.stances m).term + 1 < (c.stances z).term
  · obtain ⟨c₂, hc₂, h₂, s, hst, hterm, hrole, hlog⟩ := turned_down h₁ hQ hm hz hlt
    have hsub : c.backers Q m ⊆ c₂.backers Q m :=
      backers_subset hst (by omega) hlog fun _ => (hc₁.trans hc₂).mem_net
    have hwin₂ : Majority mb.set (c₂.backers Q m) := by
      refine ⟨(Finset.filter_subset _ _).trans hQ, hwin.2.trans_le ?_⟩
      exact Nat.mul_le_mul_left 2 (Finset.card_le_card hsub)
    have hidle₂ : ∀ q ∈ Q, (c₂.stances q).role ≠ .leader := fun q hq => by
      rw [hst]
      by_cases hqm : q = m
      · rw [hqm, Function.update_self, hrole]
        exact Role.noConfusion
      · rw [Function.update_of_ne hqm]
        exact hidle q hq
    have hle₂ : ∀ q ∈ Q, (c₂.stances q).term ≤ (c₂.stances m).term + 1 := fun q hq => by
      rw [hst, Function.update_self, hterm]
      by_cases hqm : q = m
      · rw [hqm, Function.update_self, hterm]
        exact Nat.le_succ _
      · rw [Function.update_of_ne hqm]
        exact (hmax q hq).trans (Nat.le_succ _)
    obtain ⟨c₃, hc₃, h₃⟩ := h₂.campaign hQ hm (hidle₂ m hm) hp hwin₂
    exact ⟨c₃, _, (hc₁.trans hc₂).trans hc₃, leveling_of_campaigning h₃ hidle₂ hle₂⟩
  · exact ⟨c₁, _, hc₁, leveling_of_campaigning h₁ hidle fun q hq =>
      (hmax q hq).trans (not_lt.mp hlt)⟩

/-- A member of `Q` gets the request, and has reached its term. -/
theorem leveled {t : ℕ} {seen : Finset ℕ} (h : Leveling mb Q m t seen c) (hQ : Q ⊆ mb.set)
    (hm : m ∈ Q) (hq : q ∈ Q) (hseen : q ∉ seen) : ∃ c', c.Continues mb Q c' ∧
      Leveling mb Q m t (insert q seen) c' := by
  have hqid : q ∈ mb.ids := mb.mem_set.mp (hQ hq)
  have hne : q ≠ m := fun heq => hseen (heq ▸ h.self)
  obtain ⟨x, hx, hty, hfrom, hto, ht⟩ := h.requests q hqid hne
  obtain ⟨l, b, hsp⟩ := h.regular.spans hqid
  have hrun : ∃ r, (c.nodes q).r.step x = some r ∧ r.stance.term = t ∧ r.stance.role ≠ .leader := by
    rw [Raft.step_requestVote (hto.trans (h.regular.id_eq hqid).symm) hty]
    rcases (h.le_term q hq).lt_or_eq with hlt | heq
    · obtain ⟨r, hrun, hst, -⟩ := hsp.handleRequestVote_new (m := x) (hlt.trans_eq ht.symm)
      refine ⟨r, hrun, ?_, ?_⟩
      · rw [hst]
        exact ht
      · rw [hst]
        exact Role.noConfusion
    · obtain ⟨r, hrun, hterm, hrole, -⟩ := hsp.handleRequestVote_same (m := x) (ht.trans heq.symm)
      exact ⟨r, hrun, hterm.trans heq, fun hl => h.idle q hq (hrole.symm.trans hl)⟩
  obtain ⟨r, hrun, hterm, hrole⟩ := hrun
  obtain ⟨c', hc', h'⟩ := h.regular.deliver hQ hm hq hx hfrom hto hrun
  have hself : c'.stances q = r.stance := by rw [h'.stances_eq, Function.update_self]
  have hother : ∀ p ≠ q, c'.stances p = c.stances p := fun p hp => by
    rw [h'.stances_eq, Function.update_of_ne hp]
  refine ⟨c', hc', h'.regular, fun p hp => ?_, fun p hp => ?_, fun p hp => ?_, fun p hp hpm => ?_,
    Finset.mem_insert_of_mem h.self⟩
  · by_cases hpq : p = q
    · rwa [hpq, hself]
    · rw [hother p hpq]
      exact h.idle p hp
  · by_cases hpq : p = q
    · rw [hpq, hself, hterm]
    · rw [hother p hpq]
      exact h.le_term p hp
  · by_cases hpq : p = q
    · rw [hpq, hself, hterm]
    · rw [hother p hpq]
      exact h.term_eq p ((Finset.mem_insert.mp hp).resolve_left hpq)
  · obtain ⟨x', hx', hres⟩ := h.requests p hp hpm
    exact ⟨x', h'.net_eq ▸ List.mem_append_left _ hx', hres⟩

/-! ## The election -/

/-- A vote is counted. -/
theorem count_vote (h : c.Regular mb) (hQ : Q ⊆ mb.set) (hm : m ∈ Q) (hq : q ∈ Q)
    (hr : (c.stances m).role = .candidate) {x : Message} (hx : x ∈ c.net)
    (hg : x.Gives .requestVoteResponse q m) (hterm : x.term = (c.stances m).term) :
    ∃ c', c.Continues mb Q c' ∧ ((∃ n ∈ Q, (c'.nodes n).r.role = .leader) ∨
      c'.Regular mb ∧ 2 * (insert q (c.stances m).votes).card ≤ mb.ids.length ∧
        c'.stances = Function.update c.stances m
          { c.stances m with votes := insert q (c.stances m).votes }) := by
  obtain ⟨hty, hfrom, hto, hgranted⟩ := hg
  have hmid : m ∈ mb.ids := mb.mem_set.mp (hQ hm)
  obtain ⟨l, b, hsp⟩ := h.spans hmid
  obtain ⟨r, hrun, hres⟩ := hsp.handleRequestVoteResponse (m := x) hterm hr hgranted
  rw [← Raft.step_requestVoteResponse (hto.trans (h.id_eq hmid).symm) hty] at hrun
  obtain ⟨c', hc', h'⟩ := h.deliver hQ hq hm hx hfrom hto hrun
  have hself : c'.stances m = r.stance := by rw [h'.stances_eq, Function.update_self]
  have hcount := h.hasMajorityCount_iff hmid (k := (insert q (c.stances m).votes).card)
  rw [hfrom] at hres
  refine ⟨c', hc', ?_⟩
  by_cases hmaj : mb.ids.length < 2 * (insert q (c.stances m).votes).card
  · exact Or.inl ⟨m, hm, (congrArg Stance.role hself).trans ((if_pos (hcount.mpr hmaj)).mp hres)⟩
  · obtain ⟨hs, -⟩ := (if_neg fun hc => hmaj (hcount.mp hc)).mp hres
    exact Or.inr ⟨h'.regular, not_lt.mp hmaj, by rw [h'.stances_eq, hs]; rfl⟩

/-- **Votes that are on their way elect a candidate.** -/
theorem electable_of_winning (h : c.Regular mb) (hQ : Q ⊆ mb.set) (hwin : c.Winning mb Q) :
    c.Electable mb Q := by
  obtain ⟨m, hm, hr, hne, hmaj⟩ := hwin
  have hstep : ∀ seen c', Tallying mb m c seen c' → ∀ q ∈ c.voters Q m, q ∉ seen →
      ∃ c'', c'.Continues mb Q c'' ∧
        ((∃ n ∈ Q, (c''.nodes n).r.role = .leader) ∨ Tallying mb m c (insert q seen) c'') := by
    intro seen c' hc' q hq _
    obtain ⟨hqQ, x, hx, hgives, hterm⟩ := Finset.mem_filter.mp hq
    have hst := hc'.candidate
    obtain ⟨c'', hc'', hres⟩ :=
      hc'.regular.count_vote hQ hm hqQ (by rw [hst]; exact hr) (hc'.sent x hx) hgives
        (by rw [hst]; exact hterm)
    refine ⟨c'', hc'', hres.imp_right ?_⟩
    rintro ⟨hreg, hfew, hst''⟩
    rw [hst] at hfew hst''
    rw [← Finset.union_insert] at hfew hst''
    exact ⟨hreg,
      by rw [hst'', Function.update_self], fun y hy => hc''.mem_net (hc'.sent y hy), fun _ => hfew⟩
  have hstart : Tallying mb m c ∅ c :=
    ⟨h, by rw [Finset.union_empty], fun _ hx => hx, fun hempty =>
      absurd hempty Finset.not_nonempty_empty⟩
  obtain ⟨c', hc', hD | hI⟩ := Continues.each (c.voters Q m) hstep hstart
  · exact ⟨c', hc', hD⟩
  · -- all votes are counted, and they are a majority
    have hfew := hI.few
    rw [Finset.empty_union] at hfew
    exact absurd hmaj (not_lt.mpr (hfew hne))

/-- A vote is asked for and counted. -/
theorem voted {c₀ : Cluster} {seen : Finset ℕ} (h : Electing mb Q m c₀ seen c) (hQ : Q ⊆ mb.set)
    (hm : m ∈ Q) (hq : q ∈ Q) (hseen : q ∉ seen)
    (hterm : (c₀.stances q).term < (c₀.stances m).term + 1)
    (hlog : (c₀.stances q).logEnd ≤ (c₀.stances m).logEnd) : ∃ c', c.Continues mb Q c' ∧
      ((∃ n ∈ Q, (c'.nodes n).r.role = .leader) ∨ Electing mb Q m c₀ (insert q seen) c') := by
  have hmid : m ∈ mb.ids := mb.mem_set.mp (hQ hm)
  have hqid : q ∈ mb.ids := mb.mem_set.mp (hQ hq)
  have hne : q ≠ m := fun heq => hseen (heq ▸ h.self)
  obtain ⟨pre, hstm⟩ := h.candidate
  have hstq : (c.nodes q).r.stance = c₀.stances q := h.waiting q hq hseen
  set x := ((c₀.stances m).candidate m).request .requestVote m q with hxdef
  have hlogq : (c.nodes q).r.logEnd ≤ x.logEnd := (congrArg Stance.logEnd hstq).trans_le hlog
  obtain ⟨l, b, hsp⟩ := h.regular.spans hqid
  obtain ⟨r₁, hrun₁, -, hmsgs⟩ := hsp.handleRequestVote_new (m := x)
    ((congrArg Stance.term hstq).trans_lt hterm)
  rw [← Raft.step_requestVote (h.regular.id_eq hqid).symm rfl] at hrun₁
  set y := (c.nodes q).r.voteAnswer x x.term (decide ((c.nodes q).r.logEnd ≤ x.logEnd)) with hydef
  obtain ⟨c₁, hc₁, h₁⟩ := h.regular.deliver hQ hm hq (h.requests q hqid hne) rfl rfl hrun₁
  have hy : y ∈ c₁.net := by
    rw [h₁.net_eq, hmsgs]
    exact List.mem_append_right _ (List.mem_append_right _ (List.mem_singleton_self y))
  have hst₁ :
      c₁.stances m = { { c₀.stances m with preVotes := pre }.candidate m with votes := seen } := by
    rw [h₁.stances_eq, Function.update_of_ne hne.symm, hstm]
  obtain ⟨c', hc', hres⟩ := h₁.regular.count_vote hQ hm hq (by rw [hst₁]; rfl) hy
    ⟨rfl, h.regular.id_eq hqid, rfl, decide_eq_true hlogq⟩ (by rw [hst₁]; rfl)
  refine ⟨c', hc₁.trans hc', hres.imp_right ?_⟩
  rintro ⟨hreg, hfew, hst'⟩
  rw [hst₁] at hfew hst'
  refine ⟨hreg, ⟨pre, by rw [hst', Function.update_self]⟩, fun p hp hps => ?_,
    fun p hp hpm => (hc₁.trans hc').mem_net (h.requests p hp hpm),
      Finset.mem_insert_of_mem h.self, hfew⟩
  have hpm : p ≠ m := fun heq => hps (heq ▸ Finset.mem_insert_of_mem h.self)
  have hpq : p ≠ q := fun heq => hps (heq ▸ Finset.mem_insert_self p seen)
  rw [hst', Function.update_of_ne hpm, h₁.stances_eq, Function.update_of_ne hpq]
  exact h.waiting p hp fun hin => hps (Finset.mem_insert_of_mem hin)

/-- **Where all members of a majority are in one term, the one whose log ends last is elected.** -/
theorem electable_of_term_eq {t : ℕ} (h : c.Regular mb) (hQ : Majority mb.set Q)
    (hp : ∀ m ∈ Q, ∃ p ∈ mb.ids, p ≠ m) (hne : Q.Nonempty)
    (hidle : ∀ q ∈ Q, (c.stances q).role ≠ .leader) (hterm : ∀ q ∈ Q, (c.stances q).term = t) :
    c.Electable mb Q := by
  obtain ⟨x, hx, hmax⟩ := Finset.exists_max_image Q (fun q => (c.stances q).logEnd) hne
  have hall : c.backers Q x = Q := by
    refine Finset.filter_true_of_mem fun q hq => Or.inr (Or.inl ⟨?_, Or.inr (Or.inr ?_), hmax q hq⟩)
    · rw [hterm q hq, show ((c.stances x).request .preVote x q).term = t from hterm x hx]
      exact Nat.le_succ t
    · rw [hterm q hq, show ((c.stances x).request .preVote x q).term = t from hterm x hx]
      exact Nat.lt_succ_self t
  obtain ⟨c₁, hc₁, h₁⟩ := h.campaign hQ.1 hx (hidle x hx) (hp x hx) (by rwa [hall])
  have hstart : Electing mb Q x c {x} c₁ := by
    obtain ⟨pre, hst⟩ := h₁.stances_eq
    refine ⟨h₁.regular, ⟨pre, ?_⟩, fun q _ hqx => ?_, h₁.requests, Finset.mem_singleton_self x, ?_⟩
    · rw [hst, Function.update_self]
      rfl
    · rw [hst, Function.update_of_ne (Finset.notMem_singleton.mp hqx)]
    · exact two_mul_card_singleton_le hQ.1 hx (hp x hx)
  obtain ⟨c₂, hc₂, hD | hI⟩ :=
    Continues.each Q (fun seen c' hc' q hq hseen => voted hc' hQ.1 hx hq hseen
      (by rw [hterm q hq, hterm x hx]; exact Nat.lt_succ_self t) (hmax q hq)) hstart
  · exact ⟨c₂, hc₁.trans hc₂, hD⟩
  · -- all of them have voted, and they are a majority
    have hfew := hI.few
    rw [Finset.union_eq_right.mpr (Finset.singleton_subset_iff.mpr hx)] at hfew
    have := hQ.2
    rw [mb.card_set] at this
    omega

/-- **A majority that has a leader, or can win a round of pre-votes, can elect a leader.** -/
theorem electable (h : c.Regular mb) (hQ : Majority mb.set Q)
    (hwin : (∃ n ∈ Q, (c.nodes n).r.role = .leader) ∨ c.Winnable mb Q) : c.Electable mb Q := by
  by_cases hlead : ∃ n ∈ Q, (c.nodes n).r.role = .leader
  · exact ⟨c, .refl c, hlead⟩
  have hidle : ∀ q ∈ Q, (c.stances q).role ≠ .leader := fun q hq hl => hlead ⟨q, hq, hl⟩
  obtain ⟨m, hm, hback⟩ := hwin.resolve_left hlead
  by_cases hp : ∃ p ∈ mb.ids, p ≠ m
  · obtain ⟨c₁, t, hc₁, h₁⟩ := h.exists_leveling hQ.1 hm hp hidle hback
    have hstep : ∀ seen c, Leveling mb Q m t seen c → ∀ q ∈ Q, q ∉ seen →
        ∃ c', c.Continues mb Q c' ∧ (False ∨ Leveling mb Q m t (insert q seen) c') :=
      fun seen c' hc' q hq hseen =>
        (leveled hc' hQ.1 hm hq hseen).imp fun c'' hc'' => ⟨hc''.1, Or.inr hc''.2⟩
    obtain ⟨c₂, hc₂, hD | h₂⟩ := Continues.each (D := fun _ => False) Q hstep h₁
    · exact hD.elim
    · refine .of_continues (hc₁.trans hc₂)
        (h₂.regular.electable_of_term_eq hQ (fun n hn => ?_) ⟨m, hm⟩ h₂.idle fun q hq =>
          h₂.term_eq q (Finset.mem_union_right _ hq))
      by_cases hnm : n = m
      · rwa [hnm]
      · exact ⟨m, mb.mem_set.mp (hQ.1 hm), fun heq => hnm heq.symm⟩
  · push Not at hp
    exact h.alone hQ.1 hm (hidle m hm) hp

end Regular

/-! ## What is on its way -/

/-- Where nobody can win, every member of `Q` has a peer. -/
theorem exists_peer (hQ : Q ⊆ mb.set) (hno : ¬c.Winnable mb Q) (hn : n ∈ Q) :
    ∃ p ∈ mb.ids, p ≠ n := by
  by_contra hp
  push Not at hp
  have hone : mb.set ⊆ {n} := fun p hpset => Finset.mem_singleton.mpr (hp p (mb.mem_set.mp hpset))
  have hcard := (Finset.card_le_card hone).trans_eq (Finset.card_singleton n)
  have hself : 0 < (c.backers Q n).card :=
    Finset.card_pos.mpr ⟨n, Finset.mem_filter.mpr ⟨hn, Or.inl rfl⟩⟩
  exact hno ⟨n, hn, (Finset.filter_subset _ _).trans hQ, by omega⟩

theorem Counted.step (h : c.Counted mb) (hreg : c.Regular mb) {a : Action}
    (hstep : c.step mb a = some c') : c'.Counted mb := by
  intro n hn hrole p hp
  have hold : (c.nodes n).r.role = .preCandidate → p ∈ (c.nodes n).r.preVotesReceived →
      p = n ∨ ∃ x ∈ c'.net, x.Gives .preVoteResponse p n := fun hr hp =>
    (h n hn hr p hp).imp_right fun ⟨x, hx, hgives⟩ => ⟨x, step_mem_net hstep hx, hgives⟩
  by_cases hself : n = a.node
  swap
  · rw [step_of_ne hstep hself] at hrole hp
    exact hold hrole hp
  subst hself
  obtain ⟨A, hA⟩ := id hreg
  cases hA.reacts hstep with
  | restarted _ fresh => cases fresh.role_eq.symm.trans hrole
  | @called op r _ sent run self =>
    have hballot := Op.run_ballot run
    rw [← self] at hballot
    have hnew : ∀ {m : Message}, c.deliverable (.step m) → m.type = .preVoteResponse →
        m.voteGranted = true → m.toId = (c.nodes a.node).r.id →
          (c.nodes a.node).r.role = .preCandidate →
        p ∈ insert m.fromId (c.nodes a.node).r.preVotesReceived →
          p = a.node ∨ ∃ x ∈ c'.net, x.Gives .preVoteResponse p a.node := by
      intro m hm hty hg hto hr hp
      rcases Finset.mem_insert.mp hp with rfl | hp
      · exact Or.inr ⟨m, step_mem_net hstep hm, hty, rfl, hto.trans (hreg.id_eq hn), hg⟩
      · exact hold hr hp
    have hone : p ∈ ({(c.nodes a.node).r.id} : Finset ℕ) → p = a.node := fun hp =>
      (Finset.mem_singleton.mp hp).trans (hreg.id_eq hn)
    have hrole' : (c'.nodes a.node).r.election.role = .preCandidate := hrole
    have hp' : p ∈ (c'.nodes a.node).r.election.preVotes := hp
    generalize (c'.nodes a.node).r.election = s at hballot hrole' hp'
    cases hballot with
    | kept | restarted | ticked => exact hold hrole' hp'
    | followed | elected => cases hrole'
    | polled | alone => exact Or.inl (hone hp')
    | counted type granted role dst => exact hnew sent type granted dst role hp'
    | campaigned _ type granted role _ dst => exact hnew sent type granted dst role hp'

theorem Runs.counted {as : List Action} (h : Cluster.Runs mb as c) : c.Counted mb := by
  suffices hall : c.Regular mb ∧ c.Counted mb from hall.2
  exact exec_induct (P := fun _ _ => True) (I := fun c => c.Regular mb ∧ c.Counted mb)
    (fun _ _ _ hc _ hstep => ⟨hc.1.step hstep, hc.2.step hc.1 hstep⟩)
    ⟨⟨_, sim_init False mb⟩, fun _ _ hr => by cases hr⟩ (along_of_all (fun _ _ => trivial) _ as) h

/-- A step that is not calm is the end of an election or of a round of pre-votes, which could be
foreseen. -/
theorem winning_or_winnable (h : c.Regular mb) (hc : c.Counted mb) (hQ : Q ⊆ mb.set)
    (hidle : ∀ n ∈ Q, (c.nodes n).r.role ≠ .leader) {a : Action} (ha : a.Within Q)
    (hstep : c.step mb a = some c') (hcalm : ¬Calm Q c c') : c.Winning mb Q ∨ c.Winnable mb Q := by
  obtain ⟨n, hnQ, hnot⟩ :
      ∃ n ∈ Q, ¬((c'.nodes n).r.role ≠ .leader ∧
        ((c'.nodes n).r.role = .candidate → (c.nodes n).r.role = .candidate ∨
          ¬(c'.nodes n).r.preVotesReceived ⊆ Q)) := by
    by_contra hno
    exact hcalm fun n hn => by_contra fun hnot => hno ⟨n, hn, hnot⟩
  by_cases hself : n = a.node
  swap
  · rw [step_of_ne hstep hself] at hnot
    exact absurd ⟨hidle n hnQ, Or.inl⟩ hnot
  subst hself
  have hn : a.node ∈ mb.ids := mb.mem_set.mp (hQ hnQ)
  have hid := h.id_eq hn
  obtain ⟨A, hA⟩ := id h
  cases hA.reacts hstep with
  | restarted _ fresh =>
    have hrole : (c'.nodes a.node).r.role = .follower := fresh.role_eq
    rw [hrole] at hnot
    exact absurd ⟨Role.noConfusion, Role.noConfusion⟩ hnot
  | @called op r act sent run self =>
    have hballot := Op.run_ballot run
    rw [← self] at hballot
    have hfrom : ∀ {m : Message}, op = .step m → m.fromId ∈ Q := by
      rintro m rfl
      rcases act with hact | ⟨index, data, -, hop⟩
      · rw [hact] at ha
        exact ha.2.1
      · cases hop
    have halone : (c.nodes a.node).r.peers = [] → c.Winnable mb Q := by
      intro hpeers
      by_contra hno
      obtain ⟨p, hp, hpn⟩ := exists_peer hQ hno hnQ
      have hmem := (h.mem_peers hn).mpr ⟨hpn, hp⟩
      rw [hpeers] at hmem
      exact absurd hmem List.not_mem_nil
    have hnot' : ¬((c'.nodes a.node).r.election.role ≠ .leader ∧
      ((c'.nodes a.node).r.election.role = .candidate → (c.nodes a.node).r.role = .candidate ∨
        ¬(c'.nodes a.node).r.election.preVotes ⊆ Q)) := hnot
    generalize (c'.nodes a.node).r.election = s at hballot hnot'
    cases hballot with
    | kept | restarted | ticked => exact absurd ⟨hidle _ hnQ, Or.inl⟩ hnot'
    | followed | polled => exact absurd ⟨Role.noConfusion, Role.noConfusion⟩ hnot'
    | counted _ _ role => exact absurd ⟨hidle _ hnQ, Or.inl⟩ hnot'
    | alone _ _ _ peers => exact Or.inr (halone peers)
    | @elected m type granted role term enough dst =>
      have hm : m.fromId ∈ c.voters Q a.node :=
        Finset.mem_filter.mpr ⟨hfrom rfl, m, sent, ⟨type, rfl, dst.trans hid, granted⟩, term⟩
      refine Or.inl ⟨a.node, hnQ, role, ⟨_, hm⟩,
        ((h.hasMajorityCount_iff hn).mp enough).trans_le ?_⟩
      exact Nat.mul_le_mul_left 2
        (Finset.card_le_card
          (Finset.insert_subset (Finset.mem_union_right _ hm) Finset.subset_union_left))
    | @campaigned m k role' timeout type granted role enough dst next =>
      rcases next with rfl | peers
      swap
      · exact Or.inr (halone peers)
      have hsub : insert m.fromId (c.nodes a.node).r.preVotesReceived ⊆ Q := by
        by_contra hno
        exact hnot' ⟨Role.noConfusion, fun _ => Or.inr hno⟩
      have hback : insert m.fromId (c.nodes a.node).r.preVotesReceived ⊆ c.backers Q a.node := by
        intro p hp
        refine Finset.mem_filter.mpr ⟨hsub hp, ?_⟩
        rcases Finset.mem_insert.mp hp with rfl | hp
        · exact Or.inr (Or.inr ⟨m, sent, type, rfl, dst.trans hid, granted⟩)
        · exact (hc _ hn role p hp).imp_right Or.inr
      refine Or.inr ⟨a.node, hnQ, (Finset.filter_subset _ _).trans hQ, ?_⟩
      rw [mb.card_set]
      exact ((h.hasMajorityCount_iff hn).mp enough).trans_le
        (Nat.mul_le_mul_left 2 (Finset.card_le_card hback))

/-- **Before somebody leads, somebody is winning or can win.** -/
theorem exists_drift (hQ : Q ⊆ mb.set) {as : List Action} (has : ∀ a ∈ as, a.Within Q)
    (hrun : exec (Cluster.step mb) c as = some c') (h : c.Regular mb) (hc : c.Counted mb)
    (hidle : ∀ n ∈ Q, (c.nodes n).r.role ≠ .leader)
    (hlead : ∃ n ∈ Q, (c'.nodes n).r.role = .leader) : ∃ c₁, c.Drifts mb Q c₁ ∧
    (c₁.Winning mb Q ∨ c₁.Winnable mb Q) := by
  induction as generalizing c with
  | nil =>
    obtain ⟨n, hn, hl⟩ := hlead
    obtain rfl := Option.some.inj hrun
    exact absurd hl (hidle n hn)
  | cons a as ih =>
    obtain ⟨ha, has⟩ := List.forall_mem_cons.mp has
    obtain ⟨c₁, hstep, hrest⟩ := exec_cons.mp hrun
    by_cases hcalm : Calm Q c c₁
    · obtain ⟨c₂, hd, hres⟩ :=
        ih has hrest (h.step hstep) (hc.step h hstep) fun n hn => (hcalm n hn).1
      exact ⟨c₂, .head ⟨⟨a, ha, hstep⟩, hcalm⟩ hd, hres⟩
    · exact ⟨c, .refl, winning_or_winnable h hc hQ hidle ha hstep hcalm⟩

theorem Drifts.continues (h : c.Drifts mb Q c') (hreg : c.Regular mb) :
    c.Continues mb Q c' ∧ c'.Regular mb := by
  induction h with
  | refl => exact ⟨.refl c, hreg⟩
  | tail _ hstep ih =>
    obtain ⟨a, ha, hstep⟩ := hstep.1
    refine ⟨ih.1.trans ⟨[a], fun b hb => ?_, exec_singleton.mpr hstep⟩, ih.2.step hstep⟩
    rwa [List.mem_singleton.mp hb]

/-! ## Dead ends -/

/-- Since `s₀`, the node has at most asked for pre-votes, and got them from backers only. -/
structure Waits (s₀ s : Stance) (backers : Finset ℕ) : Prop where
  term_eq : s.term = s₀.term
  vote_eq : s.vote = s₀.vote
  logEnd_eq : s.logEnd = s₀.logEnd
  role_eq : s.role = .follower ∨ s.role = .preCandidate ∧ s.preVotes ⊆ backers

/-- A message of a round of pre-votes that started from `c₀`. -/
def OfRound (Q : Finset ℕ) (c₀ : Cluster) (x : Message) : Prop :=
  (∃ p, x = (c₀.stances x.fromId).request .preVote x.fromId p) ∨
    x.type = .preVoteResponse ∧ (x.voteGranted = true → x.fromId ∈ c₀.backers Q x.toId)

/-- Since `c₀`, the members of `Q` have only asked each other for pre-votes. -/
structure Stuck (mb : Members) (Q : Finset ℕ) (c₀ c : Cluster) : Prop where
  regular : c.Regular mb
  waits : ∀ n ∈ Q, Waits (c₀.stances n) (c.stances n) (c₀.backers Q n)
  sent : ∀ x ∈ c.net, x.fromId ∈ Q → x.toId ∈ Q → OfRound Q c₀ x

namespace Stuck

variable {c₀ : Cluster}

theorem of_quiet (h : c.Regular mb) (hquiet : c.Quiet Q) : Stuck mb Q c c where
  regular := h
  waits := fun n hn => ⟨rfl, rfl, rfl, Or.inl (hquiet.1 n hn)⟩
  sent := fun x hx hfrom hto => absurd ⟨hfrom, hto⟩ (hquiet.2 x hx)

/-- A call after which the node still waits, and has sent messages of the round, keeps the others
waiting. -/
theorem turned (h : Stuck mb Q c₀ c) {r : Raft} (h' : Turned mb c n r c')
    (hw : Waits (c₀.stances n) r.stance (c₀.backers Q n)) (hmsgs : ∀ x ∈ r.msgs, OfRound Q c₀ x) :
    Stuck mb Q c₀ c' where
  regular := h'.regular
  waits := fun p hp => by
    rw [h'.stances_eq]
    by_cases hpn : p = n
    · rw [hpn, Function.update_self]
      exact hw
    · rw [Function.update_of_ne hpn]
      exact h.waits p hp
  sent := fun x hx hfrom hto => by
    rw [h'.net_eq] at hx
    rcases List.mem_append.mp hx with hx | hx
    · exact h.sent x hx hfrom hto
    · exact hmsgs x hx

theorem acts (h : Stuck mb Q c₀ c) (hQ : Q ⊆ mb.set) (hn : n ∈ Q) (op : Op)
    (hdel : c.deliverable op) {r : Raft} (hrun : op.run (c.nodes n).r = some r)
    (hw : Waits (c₀.stances n) r.stance (c₀.backers Q n)) (hmsgs : ∀ x ∈ r.msgs, OfRound Q c₀ x)
    (hstep : c.step mb (.run n op none) = some c') : Stuck mb Q c₀ c' := by
  obtain ⟨c'', hstep', h'⟩ := h.regular.act (mb.mem_set.mp (hQ hn)) hdel hrun
  obtain rfl := Option.some.inj (hstep.symm.trans hstep')
  exact h.turned h' hw hmsgs

/-- A node that times out asks for pre-votes with the log and the term it has. -/
theorem tick (h : Stuck mb Q c₀ c) (hQ : Q ⊆ mb.set) (hno : ¬c₀.Winnable mb Q) (hn : n ∈ Q)
    (hstep : c.step mb (.run n .tick none) = some c') : Stuck mb Q c₀ c' := by
  have hnid : n ∈ mb.ids := mb.mem_set.mp (hQ hn)
  have hw : Waits (c₀.stances n) (c.nodes n).r.stance (c₀.backers Q n) := h.waits n hn
  obtain ⟨p, hpid, hpn⟩ := exists_peer hQ hno hn
  obtain ⟨l, b, hsp⟩ := h.regular.spans hnid
  have hpeers : (c.nodes n).r.peers ≠ [] :=
    List.ne_nil_of_mem ((h.regular.mem_peers hnid).mpr ⟨hpn, hpid⟩)
  have hrole : (c.nodes n).r.role ≠ .leader := by
    rcases hw.role_eq with hr | ⟨hr, -⟩
    · exact fun hl => Role.noConfusion (hr.symm.trans hl)
    · exact fun hl => Role.noConfusion (hr.symm.trans hl)
  obtain ⟨r, hrun, hcases⟩ := hsp.tick_of_follower hpeers hrole
  refine h.acts hQ hn .tick trivial hrun ?_ ?_ hstep
  · rcases hcases with ⟨-, hst, -⟩ | ⟨-, hst, -⟩
    · rwa [hst]
    · rw [hst, h.regular.id_eq hnid]
      exact ⟨hw.term_eq, hw.vote_eq, hw.logEnd_eq, Or.inr ⟨rfl, Finset.singleton_subset_iff.mpr
        (Finset.mem_filter.mpr ⟨hn, Or.inl rfl⟩)⟩⟩
  · intro x hx
    rcases hcases with ⟨-, -, hm, -⟩ | ⟨-, -, hm⟩
    · rw [hm, h.regular.msgs_eq hnid] at hx
      exact absurd hx List.not_mem_nil
    · rw [hm, h.regular.msgs_eq hnid, List.nil_append] at hx
      obtain ⟨p, -, rfl⟩ := List.mem_map.mp hx
      left
      refine ⟨p, ?_⟩
      rw [h.regular.id_eq hnid]
      show Stance.request _ _ n p = Stance.request _ _ n p
      rw [Stance.request, Stance.request, hw.term_eq, hw.logEnd_eq]

/-- A pre-vote is granted by backers only. -/
theorem preVote (h : Stuck mb Q c₀ c) (hQ : Q ⊆ mb.set) {x : Message} (hx : x ∈ c.net)
    (hto : x.toId ∈ Q) {p : ℕ} (hreq : x = (c₀.stances x.fromId).request .preVote x.fromId p)
    (hstep : c.step mb (.run x.toId (.step x) none) = some c') : Stuck mb Q c₀ c' := by
  have hnid : x.toId ∈ mb.ids := mb.mem_set.mp (hQ hto)
  have hw : Waits (c₀.stances x.toId) (c.nodes x.toId).r.stance (c₀.backers Q x.toId) :=
    h.waits _ hto
  obtain ⟨l, b, hsp⟩ := h.regular.spans hnid
  have hty : x.type = .preVote := congrArg Message.type hreq
  have hp : x.toId = p := congrArg Message.toId hreq
  have hrun : (c.nodes x.toId).r.step x = some { (c.nodes x.toId).r with
      msgs := (c.nodes x.toId).r.msgs ++ [(c.nodes x.toId).r.preVoteAnswer x] } := by
    rw [Raft.step_preVote (h.regular.id_eq hnid).symm hty]
    exact hsp.handlePreVote x
  refine h.acts hQ hto (.step x) hx hrun hw (fun y hy => ?_) hstep
  rw [show Raft.msgs { (c.nodes x.toId).r with
    msgs := (c.nodes x.toId).r.msgs ++ [(c.nodes x.toId).r.preVoteAnswer x] } = _ from rfl,
    h.regular.msgs_eq hnid, List.nil_append, List.mem_singleton] at hy
  subst hy
  refine Or.inr ⟨rfl, fun hg => ?_⟩
  obtain ⟨hterm, hvote, hend⟩ : (c.nodes x.toId).r.stance.Grants x := of_decide_eq_true hg
  rw [hw.term_eq] at hterm hvote
  rw [hw.vote_eq] at hvote
  rw [hw.logEnd_eq] at hend
  show (c.nodes x.toId).r.id ∈ c₀.backers Q x.fromId
  rw [h.regular.id_eq hnid, backers, Finset.mem_filter, hp, ← hreq, ← hp]
  exact ⟨hto, Or.inr (Or.inl ⟨hterm, hvote, hend⟩)⟩

/-- There are never enough pre-votes. -/
theorem preVoteResponse (h : Stuck mb Q c₀ c) (hQ : Q ⊆ mb.set) (hno : ¬c₀.Winnable mb Q)
    {x : Message} (hx : x ∈ c.net) (hto : x.toId ∈ Q) (hty : x.type = .preVoteResponse)
    (hback : x.voteGranted = true → x.fromId ∈ c₀.backers Q x.toId)
    (hstep : c.step mb (.run x.toId (.step x) none) = some c') : Stuck mb Q c₀ c' := by
  have hnid : x.toId ∈ mb.ids := mb.mem_set.mp (hQ hto)
  have hw : Waits (c₀.stances x.toId) (c.nodes x.toId).r.stance (c₀.backers Q x.toId) :=
    h.waits _ hto
  have hquiet : ∀ y ∈ (c.nodes x.toId).r.msgs, OfRound Q c₀ y := by
    rw [h.regular.msgs_eq hnid]
    exact fun y hy => absurd hy List.not_mem_nil
  by_cases hcount : (c.nodes x.toId).r.role = .preCandidate ∧ x.voteGranted = true
  · obtain ⟨hr, hg⟩ := hcount
    obtain ⟨p, hpid, hpn⟩ := exists_peer hQ hno hto
    have hpeers : (c.nodes x.toId).r.peers ≠ [] :=
      List.ne_nil_of_mem ((h.regular.mem_peers hnid).mpr ⟨hpn, hpid⟩)
    obtain ⟨l, b, hsp⟩ := h.regular.spans hnid
    obtain ⟨r, hrun, hres⟩ := hsp.handlePreVoteResponse hpeers hr hg
    rw [← Raft.step_preVoteResponse (h.regular.id_eq hnid).symm hty] at hrun
    have hsub : insert x.fromId (c.nodes x.toId).r.preVotesReceived ⊆ c₀.backers Q x.toId := by
      rcases hw.role_eq with hf | ⟨-, hsub⟩
      · exact Role.noConfusion (hr.symm.trans hf)
      · exact Finset.insert_subset (hback hg) hsub
    have hfew : ¬(c.nodes x.toId).r.hasMajorityCount
        (insert x.fromId (c.nodes x.toId).r.preVotesReceived).card = true := fun hmaj => by
      have hlt := (h.regular.hasMajorityCount_iff hnid).mp hmaj
      have hle := Finset.card_le_card hsub
      refine hno ⟨x.toId, hto, (Finset.filter_subset _ _).trans hQ, ?_⟩
      rw [mb.card_set]
      omega
    obtain ⟨hst, hm⟩ := (if_neg hfew).mp hres
    refine h.acts hQ hto (.step x) hx hrun ?_ (by rwa [hm]) hstep
    rw [hst]
    exact ⟨hw.term_eq, hw.vote_eq, hw.logEnd_eq, Or.inr ⟨hr, hsub⟩⟩
  · have hrun : (c.nodes x.toId).r.step x = some (c.nodes x.toId).r := by
      rw [Raft.step_preVoteResponse (h.regular.id_eq hnid).symm hty]
      exact Spans.handlePreVoteResponse_ignored fun hr =>
        Bool.eq_false_iff.mpr fun hg => hcount ⟨hr, hg⟩
    exact h.acts hQ hto (.step x) hx hrun hw hquiet hstep

/-- What the members of `Q` do by themselves changes nothing. -/
theorem step (h : Stuck mb Q c₀ c) (hQ : Q ⊆ mb.set) (hno : ¬c₀.Winnable mb Q) {a : Action}
    (ha : a.Within Q) (hstep : c.step mb a = some c') : Stuck mb Q c₀ c' := by
  match a, ha with
  | .run n .tick none, hn => exact h.tick hQ hno hn hstep
  | .run _ (.step x) none, ⟨hto, hfrom, rfl⟩ =>
    have hx : x ∈ c.net := by
      rw [Cluster.step] at hstep
      split_ifs at hstep with hdel
      exact hdel.2
    rcases h.sent x hx hfrom hto with ⟨p, hreq⟩ | ⟨hty, hback⟩
    · exact h.preVote hQ hx hto hreq hstep
    · exact h.preVoteResponse hQ hno hx hto hty hback hstep

/-- **Where nobody can win a round of pre-votes, nobody is ever elected.** -/
theorem not_electable (h : Stuck mb Q c c) (hQ : Q ⊆ mb.set) (hno : ¬c.Winnable mb Q) :
    ¬c.Electable mb Q := by
  rintro ⟨c', ⟨as, has, hrun⟩, n, hn, hl⟩
  have h' : Stuck mb Q c c' := exec_induct (I := Stuck mb Q c) (P := fun _ a => a.Within Q)
    (fun _ _ _ hc ha hs => hc.step hQ hno ha hs) h (along_of_forall has c) hrun
  rcases (h'.waits n hn).role_eq with hr | ⟨hr, -⟩
  · exact Role.noConfusion (hr.symm.trans hl)
  · exact Role.noConfusion (hr.symm.trans hl)

end Stuck

end Cluster

/-- **Electoral dead ends.** From every state that a run leads to, a majority can elect a leader by
itself if and only if it has one, or drifts to a state in which a candidate has enough votes on
their way to it, or a member would get the pre-votes of enough others. Where its members follow, and
no message between them is on its way, one must be able to win in the state itself. -/
theorem electoral_dead_end {as : List Action} (h : Cluster.Runs mb as c) (hQ : Majority mb.set Q) :
    (c.Electable mb Q ↔ (∃ n ∈ Q, (c.nodes n).r.role = .leader) ∨
      ∃ c', c.Drifts mb Q c' ∧ (c'.Winning mb Q ∨ c'.Winnable mb Q)) ∧
      (c.Quiet Q → (c.Electable mb Q ↔ c.Winnable mb Q)) := by
  have hreg : c.Regular mb := Cluster.Runs.sim h
  refine ⟨⟨fun he => ?_, fun hor => ?_⟩, fun hquiet =>
    ⟨fun he => ?_, fun hwin => hreg.electable hQ (Or.inr hwin)⟩⟩
  · obtain ⟨c', ⟨as, has, hrun⟩, hlead⟩ := he
    by_cases hl : ∃ n ∈ Q, (c.nodes n).r.role = .leader
    · exact Or.inl hl
    · exact Or.inr
        (Cluster.exists_drift hQ.1 has hrun hreg h.counted (fun n hn hr => hl ⟨n, hn, hr⟩) hlead)
  · rcases hor with hl | ⟨c', hd, hres⟩
    · exact hreg.electable hQ (Or.inl hl)
    · obtain ⟨hc', hreg'⟩ := hd.continues hreg
      refine .of_continues hc' ?_
      rcases hres with hwin | hwin
      · exact hreg'.electable_of_winning hQ.1 hwin
      · exact hreg'.electable hQ (Or.inr hwin)
  · by_contra hno
    exact (Cluster.Stuck.of_quiet hreg hquiet).not_electable hQ.1 hno he

/-- When node one of three is gone after its first commit, the others can elect a leader. -/
theorem electoral_dead_end_three : ∃ c, Cluster.Runs .three commitOne c ∧
    c.Electable .three {2, 3} := by
  have hrun : ((exec (Cluster.step .three) (Cluster.init .three) commitOne).map fun c =>
      decide (c.Winnable .three {2, 3})) = some true := by
    decide +kernel
  obtain ⟨c, hc, hwin⟩ := Option.map_eq_some_iff.mp hrun
  exact ⟨c, hc, (electoral_dead_end hc (by decide)).1.mpr
    (Or.inr ⟨c, .refl, Or.inr (of_decide_eq_true hwin)⟩)⟩

/-- Node three is elected with the vote of node one, and gives node one an entry. It restarts, and
asks node two for its pre-vote and its vote. Then it is gone. -/
def deadEndRun : List Action :=
  electBy 3 1 0 1 0 0 0 ++
  [.run 3 (.propose [[7]]) none,
    .run 1 (.step { type := .appendEntries, fromId := 3, toId := 1, term := 1,
                    entries := [⟨1, 1, [7]⟩] }) none,
    .crash 3] ++
  (electBy 3 2 1 2 0 1 1).dropLast

/-- **A dead end.** Node one cannot win: node two has voted in the term after node one's. Node two
cannot win: its log is behind. Neither learns anything from the other's answers. -/
theorem no_leader_any_more : ∃ c, Cluster.Runs .three deadEndRun c ∧
    Majority Members.three.set {1, 2} ∧ ¬c.Electable .three {1, 2} := by
  have hrun : ((exec (Cluster.step .three) (Cluster.init .three) deadEndRun).map fun c =>
      decide (c.Quiet {1, 2} ∧ ¬c.Winnable .three {1, 2})) = some true := by
    decide +kernel
  obtain ⟨c, hc, hdec⟩ := Option.map_eq_some_iff.mp hrun
  obtain ⟨hquiet, hno⟩ := of_decide_eq_true hdec
  have hmaj : Majority Members.three.set {1, 2} := by decide
  exact ⟨c, hc, hmaj, (Cluster.Stuck.of_quiet (Cluster.Runs.sim hc) hquiet).not_electable
    hmaj.1 hno⟩

end KvStore
