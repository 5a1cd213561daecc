import KvStore.Raft.Ballot

/-!
# Pre-votes and a healthy leader

A leader `L` of term `t` keeps in touch with the other members of a majority `Q`: each of them has
processed an `AppendEntries` of `L` less than `ElectionTick` of its own ticks ago. Can a node
outside `Q` still make a term rise?

* `lastHeard L t q as`: the ticks of `q` since it last processed an `AppendEntries` of term `t` from
  `L`.
* `Attentive`: as long as there are few of them, `q` follows (`Attentive.step`, for every run).
* `Action.Undisturbed`: `L` does not die, the members of `Q` refuse the pre-votes that nodes outside
  ask them for, and the pre-votes they granted before do not arrive any more.
* `pre_vote_protects`: then no term rises above `t`.
* `pre_vote_disrupts`: a follower of a healthy leader grants its pre-vote to a node whose log is no
  shorter. So a node that has been cut off and comes back gets a majority, and starts a new term.
-/

namespace KvStore

open Consensus Machine

/-- The ticks of `q` since it last processed an `AppendEntries` of term `t` from `L`, after one more
action. -/
def Action.hears (L t q : ℕ) (since : Option ℕ) : Action → Option ℕ
  | .run n (.step m) none =>
    if n = q ∧ m.type = .appendEntries ∧ m.fromId = L ∧ m.toId = q ∧
      m.term = t then some 0 else since
  | .run n .tick _ => if n = q then since.map (· + 1) else since
  | _ => since

/-- The ticks of `q` since it last processed an `AppendEntries` of term `t` from `L`, if it ever
has. -/
def lastHeard (L t q : ℕ) (as : List Action) : Option ℕ := as.foldl (Action.hears L t q) none

/-- Every other member of `Q` has processed an `AppendEntries` of term `t` from `L` within its last
`ElectionTick` ticks. -/
def InTouch (mb : Members) (Q : Finset ℕ) (L t : ℕ) (as : List Action) : Prop :=
  ∀ q ∈ Q, q ≠ L → ∃ k < (mb.config q).electionTick, lastHeard L t q as = some k

/-- The message that the action delivers. -/
def Action.message : Action → Option Message
  | .run _ (.step m) _ => some m
  | _ => none

/-- The leader `L` does not die. A member of `Q` that is asked for a pre-vote from outside does not
grant it, and nobody outside counts one that a member of `Q` had granted before, in a message of
`old`. -/
structure Action.Undisturbed (Q : Finset ℕ) (L : ℕ) (old : List Message) (c : Cluster)
    (a : Action) : Prop where
  alive : a.node = L → ¬a.Kills c
  refused : ∀ m ∈ a.message, a.node ∈ Q → m.fromId ∉ Q → m.type = .preVote →
    ¬(c.nodes a.node).r.stance.Grants m
  late : ∀ m ∈ a.message, a.node ∉ Q → m.fromId ∈ Q → m.type = .preVoteResponse →
    m.voteGranted = true → m ∉ old

variable {mb : Members} {Q : Finset ℕ} {L t q n : ℕ} {as : List Action} {c c' : Cluster}
    {a : Action}

theorem lastHeard_concat : lastHeard L t q (as ++ [a]) = a.hears L t q (lastHeard L t q as) := by
  rw [lastHeard, List.foldl_append]
  rfl

/-- Actions that do not count. -/
theorem lastHeard_append {bs : List Action} {k : ℕ} (h : lastHeard L t q as = some k)
    (hbs : ∀ a ∈ bs, a.hears L t q (some k) = some k) : lastHeard L t q (as ++ bs) = some k := by
  induction bs generalizing as with
  | nil => rwa [List.append_nil]
  | cons b bs ih =>
    rw [← List.singleton_append, ← List.append_assoc]
    refine ih ?_ fun a ha => hbs a (List.mem_cons_of_mem b ha)
    rw [lastHeard_concat, h, hbs b List.mem_cons_self]

theorem Action.hears_of_ne (hq : q ≠ a.node) (since : Option ℕ) : a.hears L t q since = since := by
  match a, hq with
  | .run n (.step m) none, hq => exact if_neg fun h => hq h.1.symm
  | .run n .tick _, hq => exact if_neg fun h => hq h.symm
  | .run _ (.step _) (some _), _ => rfl
  | .run _ (.propose _) _, _ => rfl
  | .run _ (.readIndex _) _, _ => rfl
  | .run _ (.createSnapshot _ _) _, _ => rfl
  | .compact _ _ _, _ => rfl
  | .crash _, _ => rfl

/-- The count starts at an `AppendEntries`, and goes up at a tick. -/
theorem Action.hears_cases {since : Option ℕ} {k : ℕ} (h : a.hears L t a.node since = some k) :
    (∃ m, a = .run a.node (.step m) none ∧ m.type = .appendEntries ∧ m.toId = a.node ∧ m.term = t) ∨
      ∃ j ≤ k, since = some j ∧ ∀ cut, a = .run a.node .tick cut → j + 1 = k := by
  match a, h with
  | .run n (.step m) none, h =>
    rw [Action.hears] at h
    split_ifs at h with hm
    · exact Or.inl ⟨m, rfl, hm.2.1, hm.2.2.2.1, hm.2.2.2.2⟩
    · exact Or.inr ⟨k, le_rfl, h, fun cut heq => by cases heq⟩
  | .run n .tick cut, h =>
    rw [Action.hears] at h
    rw [if_pos (show n = (Action.run n .tick cut).node from rfl)] at h
    obtain ⟨j, hj, rfl⟩ := Option.map_eq_some_iff.mp h
    exact Or.inr ⟨j, Nat.le_succ j, hj, fun _ _ => rfl⟩
  | .run _ (.step _) (some _), h => exact Or.inr ⟨k, le_rfl, h, fun cut heq => by cases heq⟩
  | .run _ (.propose _) _, h => exact Or.inr ⟨k, le_rfl, h, fun cut heq => by cases heq⟩
  | .run _ (.readIndex _) _, h => exact Or.inr ⟨k, le_rfl, h, fun cut heq => by cases heq⟩
  | .run _ (.createSnapshot _ _) _, h => exact Or.inr ⟨k, le_rfl, h, fun cut heq => by cases heq⟩
  | .compact _ _ _, h => exact Or.inr ⟨k, le_rfl, h, fun cut heq => by cases heq⟩
  | .crash _, h => exact Or.inr ⟨k, le_rfl, h, fun cut heq => by cases heq⟩

/-! ## Followers that hear from their leader -/

/-- The timers, pre-votes and messages of a run. A node that has heard from `L` not long ago
follows, unless its term is beyond `t`. -/
structure Attentive (mb : Members) (L t : ℕ) (as : List Action) (c : Cluster) : Prop where
  sim : ∃ A, Sim False mb c A
  timed : ∀ n ∈ mb.ids, (c.nodes n).r.electionTick = (mb.config n).electionTick ∧
    (mb.config n).electionTick ≤ (c.nodes n).r.randomizedElectionTimeout
  known : ∀ n ∈ mb.ids, (c.nodes n).r.preVotesReceived ⊆ mb.set
  net : ∀ x ∈ c.net, x.term ≤ (c.nodes x.fromId).r.currentTerm
  heard : ∀ n ∈ mb.ids, ∀ k < (mb.config n).electionTick, lastHeard L t n as = some k →
    t < (c.nodes n).r.currentTerm ∨ (c.nodes n).r.role = .follower ∧
      (c.nodes n).r.electionElapsed ≤ k

namespace Attentive

theorem init : Attentive mb L t [] (Cluster.init mb) where
  sim := ⟨_, sim_init False mb⟩
  timed := fun _ _ => ⟨rfl, Nat.le_add_right _ _⟩
  known := fun _ _ => Finset.empty_subset _
  net := fun _ hx => absurd hx List.not_mem_nil
  heard := fun _ _ _ _ h => by cases h

/-- Timeouts are never shorter than `ElectionTick`. -/
theorem timed_of_ballot {r : Raft} {op : Op} {s : ElectionState} (h : Ballot r op s) {k : ℕ}
    (hr : r.electionTick = k ∧ k ≤ r.randomizedElectionTimeout) : s.electionTick = k ∧
      k ≤ s.timeout := by
  obtain ⟨rfl, hle⟩ := hr
  cases h with
  | kept | ticked | counted | elected => exact ⟨rfl, hle⟩
  | restarted hk | followed hk | polled hk | campaigned hk | alone hk => exact ⟨rfl, hk⟩

theorem known_of_ballot {r : Raft} {op : Op} {s : ElectionState} (h : Ballot r op s)
    (hr : r.preVotesReceived ⊆ mb.set) (hid : r.id ∈ mb.set)
    (hmsg : ∀ m, op = .step m → m.fromId ∈ mb.set) : s.preVotes ⊆ mb.set := by
  cases h with
  | kept | restarted | ticked | followed | elected => exact hr
  | polled | alone => exact Finset.singleton_subset_iff.mpr hid
  | counted | campaigned => exact Finset.insert_subset (hmsg _ rfl) hr

/-- A follower that has not timed out goes on following. -/
theorem heard_of_ballot {r : Raft} {op : Op} {s : ElectionState} (h : Ballot r op s) {j k : ℕ}
    (hr : r.role = .follower) (hj : r.electionElapsed ≤ j) (hjk : j ≤ k)
    (hk : k < r.randomizedElectionTimeout) (htick : op = .tick → j + 1 = k) :
    s.role = .follower ∧ s.elapsed ≤ k := by
  cases h with
  | kept => exact ⟨hr, hj.trans hjk⟩
  | restarted => exact ⟨hr, Nat.zero_le k⟩
  | ticked =>
    refine ⟨hr, ?_⟩
    have := htick rfl
    show r.electionElapsed + 1 ≤ k
    omega
  | followed => exact ⟨rfl, Nat.zero_le k⟩
  | polled _ _ late | alone _ _ late =>
    have := htick rfl
    omega
  | counted _ _ role | campaigned _ _ _ role | elected _ _ role => rw [hr] at role; cases role

section Step

variable {A : Abs} (h : Attentive mb L t as c) (hA : Sim False mb c A) (hn : a.node ∈ mb.ids)
  (hr : c.Reacts mb a c')

include h hA hn hr

omit hA in
theorem timed_step : (c'.nodes a.node).r.electionTick = (mb.config a.node).electionTick ∧
    (mb.config a.node).electionTick ≤ (c'.nodes a.node).r.randomizedElectionTimeout := by
  cases hr with
  | called _ _ run self =>
    have hs := timed_of_ballot (Op.run_ballot run) (h.timed _ hn)
    rw [← self] at hs
    exact hs
  | restarted _ fresh => exact ⟨fresh.tick_eq, fresh.le_timeout⟩

theorem known_step : (c'.nodes a.node).r.preVotesReceived ⊆ mb.set := by
  cases hr with
  | called _ sent run self =>
    have hid : (c.nodes a.node).r.id ∈ mb.set := by
      rw [show (c.nodes a.node).r.id = a.node from (hA.node _ hn).live.mirrors.id_eq]
      exact mb.mem_set.mpr hn
    have hs := known_of_ballot (Op.run_ballot run) (h.known _ hn) hid fun m hm =>
      mb.mem_set.mpr (hA.net m (by subst hm; exact sent)).src
    rw [← self] at hs
    exact hs
  | restarted _ fresh =>
    rw [show (c'.nodes a.node).r.preVotesReceived = ∅ from fresh.preVotes_eq]
    exact Finset.empty_subset _

theorem net_step (hmono : ∀ p ∈ mb.ids, (c.nodes p).r.currentTerm ≤ (c'.nodes p).r.currentTerm) :
    ∀ x ∈ c'.net, x.term ≤ (c'.nodes x.fromId).r.currentTerm := by
  have hold : ∀ x ∈ c.net, x.term ≤ (c'.nodes x.fromId).r.currentTerm := fun x hx =>
    (h.net x hx).trans (hmono _ (hA.net x hx).src)
  cases hr with
  | called _ sent run self net =>
    intro x hx
    rcases net x hx with hx | hx
    · exact hold x hx
    rcases Op.run_posted run x hx with hx | ⟨hsrc, hle, -⟩
    · rw [(hA.node _ hn).msgs_eq] at hx
      exact absurd hx List.not_mem_nil
    · rw [hsrc, show (c.nodes a.node).r.id = a.node from (hA.node _ hn).live.mirrors.id_eq]
      exact hle.trans_eq (congrArg ElectionState.term self).symm
  | restarted _ _ _ net =>
    rw [net]
    exact hold

/-- A node that has heard from `L` not long ago has not timed out. -/
theorem heard_step (hmono : (c.nodes a.node).r.currentTerm ≤ (c'.nodes a.node).r.currentTerm)
    {k : ℕ} (hk : k < (mb.config a.node).electionTick)
    (hheard : lastHeard L t a.node (as ++ [a]) = some k) : t < (c'.nodes a.node).r.currentTerm ∨
      (c'.nodes a.node).r.role = .follower ∧ (c'.nodes a.node).r.electionElapsed ≤ k := by
  by_cases hbeyond : t < (c.nodes a.node).r.currentTerm
  · exact Or.inl (hbeyond.trans_le hmono)
  rw [lastHeard_concat] at hheard
  right
  cases hr with
  | restarted _ fresh => exact ⟨fresh.role_eq, (show (c'.nodes a.node).r.electionElapsed = 0 from
      fresh.elapsed_eq).trans_le (Nat.zero_le k)⟩
  | @called op r act sent run self =>
    have hs : r.election.role = .follower ∧ r.election.elapsed ≤ k := by
      rcases Action.hears_cases hheard with ⟨m, ha, hty, hto, ht⟩ | ⟨j, hjk, hj, htick⟩
      · -- the message itself
        have hop : op = .step m := by
          rcases act with hact | ⟨index, data, hact, -⟩
          · rw [ha] at hact
            exact (Action.run.inj hact).2.1.symm
          · rw [ha] at hact
            cases hact
        subst hop
        have hid : (c.nodes a.node).r.id = a.node := (hA.node _ hn).live.mirrors.id_eq
        have hrun : (c.nodes a.node).r.handleAppendEntries m = some r := by
          have hstep : (c.nodes a.node).r.step m = some r := run
          rwa [Raft.step_appendEntries (hto.trans hid.symm) hty] at hstep
        obtain ⟨k', -, he⟩ :=
          Raft.handleAppendEntries_election (by rw [ht]; exact not_lt.mp hbeyond) hrun
        rw [he]
        exact ⟨rfl, Nat.zero_le k⟩
      · obtain ⟨hrole, helapsed⟩ := (h.heard _ hn j (hjk.trans_lt hk) hj).resolve_left hbeyond
        refine heard_of_ballot (Op.run_ballot run) hrole helapsed hjk (hk.trans_le (h.timed _ hn).2)
          fun hop => ?_
        subst hop
        rcases act with hact | ⟨index, data, -, hop⟩
        · exact htick none hact
        · cases hop
    rw [← self] at hs
    exact hs

end Step

theorem step (h : Attentive mb L t as c) (hstep : c.step mb a = some c') :
    Attentive mb L t (as ++ [a]) c' := by
  obtain ⟨A, hA⟩ := h.sim
  obtain ⟨A', hA', hmoves⟩ := hA.step False.elim hstep
  have hn := Cluster.step_mem hstep
  have hr := hA.reacts hstep
  have hmono : ∀ p ∈ mb.ids, (c.nodes p).r.currentTerm ≤ (c'.nodes p).r.currentTerm :=
    fun p hp => hA.term_le hA' hmoves.toGrows hp
  refine ⟨⟨A', hA'⟩, fun p hp => ?_, fun p hp =>
    ?_, h.net_step hA hn hr hmono, fun p hp k hk hheard => ?_⟩
  · by_cases hpn : p = a.node
    · rw [hpn]
      exact h.timed_step hn hr
    · rw [Cluster.step_of_ne hstep hpn]
      exact h.timed p hp
  · by_cases hpn : p = a.node
    · rw [hpn]
      exact h.known_step hA hn hr
    · rw [Cluster.step_of_ne hstep hpn]
      exact h.known p hp
  · by_cases hpn : p = a.node
    · subst hpn
      exact h.heard_step hA hn hr (hmono _ hn) hk hheard
    · rw [lastHeard_concat, Action.hears_of_ne hpn] at hheard
      rw [Cluster.step_of_ne hstep hpn]
      exact h.heard p hp k hk hheard

/-- Every run. -/
theorem of_runs (h : Cluster.Runs mb as c) : Attentive mb L t as c := by
  have hall : Along (Cluster.step mb) (fun _ _ => True) (Cluster.init mb) as :=
    along_of_all (fun _ _ => trivial) _ as
  have hres : Attentive mb L t ([] ++ as) c :=
    exec_history (I := Attentive mb L t) (fun _ _ _ _ _ hI _ hs => hI.step hs) init hall h
  exact hres

end Attentive

/-! ## A healthy leader -/

/-- The leader leads, no term is beyond its own, and nobody outside `Q` has a pre-vote of a member
of `Q`, or will get one but for the old messages. -/
structure Calm (mb : Members) (Q : Finset ℕ) (L t : ℕ) (old : List Message) (as : List Action)
    (c : Cluster) : Prop where
  attentive : Attentive mb L t as c
  leads : (c.nodes L).r.role = .leader ∧ (c.nodes L).r.currentTerm = t
  term_le : ∀ n ∈ mb.ids, (c.nodes n).r.currentTerm ≤ t
  outside : ∀ p ∈ mb.ids, p ∉ Q → (c.nodes p).r.role = .preCandidate →
    Disjoint (c.nodes p).r.preVotesReceived Q
  sent : ∀ x ∈ c.net, x.type = .preVoteResponse → x.voteGranted = true → x.fromId ∈ Q →
    x.toId ∉ Q → x ∈ old

namespace Calm

section Call

variable {old : List Message} {A : Abs} {op : Op} (h : Calm mb Q L t old as c)

include h

/-- The members of `Q` lead or follow. -/
theorem not_preCandidate (hQ : Majority mb.set Q) (hheard : InTouch mb Q L t as) (hq : q ∈ Q) :
    (c.nodes q).r.role ≠ .preCandidate := by
  intro hr
  by_cases hqL : q = L
  · rw [hqL, h.leads.1] at hr
    cases hr
  · have hqid := mb.mem_set.mp (hQ.1 hq)
    obtain ⟨k, hk, hlast⟩ := hheard q hq hqL
    rcases h.attentive.heard q hqid k hk hlast with hlt | ⟨hf, -⟩
    · exact absurd (h.term_le q hqid) (not_le.mpr hlt)
    · rw [hf] at hr
      cases hr

/-- Nobody outside `Q` counts a pre-vote of a member of `Q`. -/
theorem disjoint_insert {m : Message} (hn : n ∈ mb.ids) (hnQ : n ∉ Q)
    (hlate : m.fromId ∈ Q → m.type = .preVoteResponse → m.voteGranted = true → m ∉ old)
    (hm : m ∈ c.net) (hto : m.toId = n) (hty : m.type = .preVoteResponse)
    (hg : m.voteGranted = true) (hr : (c.nodes n).r.role = .preCandidate) :
    Disjoint (insert m.fromId (c.nodes n).r.preVotesReceived) Q := by
  refine Finset.disjoint_insert_left.mpr ⟨fun hfrom => ?_, h.outside n hn hnQ hr⟩
  exact hlate hfrom hty hg (h.sent m hm hty hg hfrom (hto ▸ hnQ))

/-- **No call starts a term.** It may end in one of the known terms, with the leader leading and no
pre-vote of a member of `Q` outside. -/
theorem call (hA : Sim False mb c A) (hQ : Majority mb.set Q) (hL : L ∈ Q) (hn : n ∈ mb.ids)
    (hheard : InTouch mb Q L t as) (hdel : c.deliverable op)
    (hlate : ∀ m, op = .step m → n ∉ Q → m.fromId ∈ Q → m.type = .preVoteResponse →
      m.voteGranted = true → m ∉ old) {s : ElectionState} (hs : Ballot (c.nodes n).r op s) :
    s.term ≤ t ∧ (n = L → s.role = .leader ∧ s.term = t) ∧
      (n ∉ Q → s.role = .preCandidate → Disjoint s.preVotes Q) := by
  have hid : (c.nodes n).r.id = n := (hA.node n hn).live.mirrors.id_eq
  have hterm := h.term_le n hn
  have hLid := mb.mem_set.mp (hQ.1 hL)
  have hlead : n = L → (c.nodes n).r.role = .leader ∧ (c.nodes n).r.currentTerm = t := fun hnL => by
    rw [hnL]
    exact h.leads
  -- who asks for pre-votes is outside, and does not get any of `Q`
  have hpoll : ∀ {m : Message}, op = .step m → m.type = .preVoteResponse → m.voteGranted = true →
      m.toId = (c.nodes n).r.id → (c.nodes n).r.role = .preCandidate →
      n ∉ Q ∧ Disjoint (insert m.fromId (c.nodes n).r.preVotesReceived) Q := by
    rintro m rfl hty hg hto hr
    have hnQ : n ∉ Q := fun hnQ => h.not_preCandidate hQ hheard hnQ hr
    exact ⟨hnQ, h.disjoint_insert hn hnQ (hlate m rfl hnQ) hdel (hto.trans hid) hty hg hr⟩
  cases hs with
  | kept | restarted | ticked => exact ⟨hterm, hlead, h.outside n hn⟩
  | @followed m k _ cause dst =>
    have hle : m.term ≤ t := (h.attentive.net m hdel).trans (h.term_le _ (hA.net m hdel).src)
    refine ⟨hle, fun hnL => ?_, fun _ hr => by cases hr⟩
    -- only `L` sends the messages of a leader of this term, and not to itself
    obtain ⟨hl, ht⟩ := hlead hnL
    rcases cause with hlt | ⟨heq, hty⟩
    · omega
    · have hleader := (hA.node n hn).live.leader_eq hl
      have hsrc : A.leader m.term = some m.fromId := by
        rcases hty with hty | hty
        · exact ((hA.net m hdel).append hty).1
        · exact ((hA.net m hdel).snap hty).1
      rw [heq, hleader] at hsrc
      exact absurd ((Option.some.inj hsrc).symm.trans (dst.trans hid).symm) (hA.net m hdel).ne
  | polled _ role =>
    refine ⟨hterm, fun hnL => absurd (hlead hnL).1 role, fun hnQ _ => ?_⟩
    rw [hid]
    exact Finset.disjoint_singleton_left.mpr hnQ
  | counted type granted role dst =>
    obtain ⟨hnQ, hdis⟩ := hpoll rfl type granted dst role
    exact ⟨hterm, fun hnL => absurd (hnL ▸ hL) hnQ, fun _ _ => hdis⟩
  | @campaigned m k role' _ type granted role enough dst _ =>
    obtain ⟨hnQ, hdis⟩ := hpoll rfl type granted dst role
    -- what is outside `Q` is no majority
    have hsub : insert m.fromId (c.nodes n).r.preVotesReceived ⊆ mb.set :=
      Finset.insert_subset (mb.mem_set.mpr (hA.net m hdel).src) (h.attentive.known n hn)
    have hmaj : Majority mb.set (insert m.fromId (c.nodes n).r.preVotesReceived) := by
      refine ⟨hsub, ?_⟩
      have hpeers : (c.nodes n).r.peers = (mb.config n).peers :=
        (hA.node n hn).live.mirrors.peers_eq
      have hlen := mb.length_peers hn
      rw [Raft.hasMajorityCount_iff, hpeers] at enough
      rw [mb.card_set]
      omega
    obtain ⟨x, hx, hxQ⟩ := hmaj.inter hQ
    exact absurd hxQ (Finset.disjoint_left.mp hdis hx)
  | alone _ role _ peers =>
    have hnL : L = n := by
      by_contra hne
      have := (hA.node n hn).live.mem_peers.mpr ⟨hne, hLid⟩
      rw [peers] at this
      exact absurd this List.not_mem_nil
    exact absurd (hlead hnL.symm).1 role
  | elected _ _ role =>
    refine ⟨hterm, fun hnL => ⟨rfl, (hlead hnL).2⟩, fun _ hr => by cases hr⟩

end Call

theorem step {old : List Message} (h : Calm mb Q L t old as c) (hQ : Majority mb.set Q) (hL : L ∈ Q)
    (hheard : InTouch mb Q L t as) (ha : a.Undisturbed Q L old c) (hstep : c.step mb a = some c') :
    Calm mb Q L t old (as ++ [a]) c' := by
  obtain ⟨A, hA⟩ := h.attentive.sim
  have hn := Cluster.step_mem hstep
  have hmessage : ∀ {op : Op} {cut : Option ℕ}, a = .run a.node op cut → ∀ m, op = .step m →
      m ∈ a.message := by
    rintro op cut hact m rfl
    rw [hact]
    rfl
  -- what the node makes of a call
  have hcall : ∀ {op : Op} {r : Raft}, (∃ cut, a = .run a.node op cut) ∨ (∀ m, op ≠ .step m) →
      c.deliverable op → op.run (c.nodes a.node).r = some r →
      r.election.term ≤ t ∧ (a.node = L → r.election.role = .leader ∧ r.election.term = t) ∧
        (a.node ∉ Q → r.election.role = .preCandidate → Disjoint r.election.preVotes Q) := by
    intro op r hact hdel hrun
    refine h.call hA hQ hL hn hheard hdel (fun m hm hnQ => ?_) (Op.run_ballot hrun)
    rcases hact with ⟨cut, hact⟩ | hno
    · exact ha.late m (hmessage hact m hm) hnQ
    · exact absurd hm (hno m)
  have hself : (c'.nodes a.node).r.currentTerm ≤ t ∧
      (a.node = L → (c'.nodes a.node).r.role = .leader ∧ (c'.nodes a.node).r.currentTerm = t) ∧
      (a.node ∉ Q → (c'.nodes a.node).r.role = .preCandidate →
        Disjoint (c'.nodes a.node).r.preVotesReceived Q) := by
    cases hA.reacts hstep with
    | called act sent run self =>
      have hres :=
        hcall (act.imp (fun hact => ⟨none, hact⟩) (by rintro ⟨_, _, _, rfl⟩ m hm; cases hm)) sent
          run
      rw [← self] at hres
      exact hres
    | restarted kills fresh term =>
      refine ⟨?_, fun hnL => absurd kills (ha.alive hnL), fun _ hr => ?_⟩
      · rcases term with hterm | ⟨op, cut, r, hact, hdel, hrun, hterm⟩
        · rw [hterm]
          exact h.term_le _ hn
        · rw [hterm]
          exact (hcall (Or.inl ⟨cut, hact⟩) hdel hrun).1
      · rw [show (c'.nodes a.node).r.role = .follower from fresh.role_eq] at hr
        cases hr
  refine ⟨h.attentive.step hstep, ?_, fun p hp => ?_, fun p hp =>
    ?_, fun x hx hty hg hfrom hto => ?_⟩
  · by_cases hnL : L = a.node
    · rw [hnL]
      rw [hnL] at hself
      exact hself.2.1 rfl
    · rw [Cluster.step_of_ne hstep hnL]
      exact h.leads
  · by_cases hpn : p = a.node
    · rw [hpn]
      exact hself.1
    · rw [Cluster.step_of_ne hstep hpn]
      exact h.term_le p hp
  · by_cases hpn : p = a.node
    · rw [hpn]
      exact hself.2.2
    · rw [Cluster.step_of_ne hstep hpn]
      exact h.outside p hp
  · cases hA.reacts hstep with
    | restarted _ _ _ net =>
      rw [net] at hx
      exact h.sent x hx hty hg hfrom hto
    | called act sent run _ net =>
      rcases net x hx with hx | hx
      · exact h.sent x hx hty hg hfrom hto
      rcases Op.run_posted run x hx with hx | ⟨hsrc, -, hgrant⟩
      · rw [(hA.node _ hn).msgs_eq] at hx
        exact absurd hx List.not_mem_nil
      · -- it would be granted
        obtain ⟨m, rfl, hmty, hmfrom, hgrants⟩ := hgrant hty hg
        have hid : (c.nodes a.node).r.id = a.node := (hA.node _ hn).live.mirrors.id_eq
        rcases act with hact | ⟨_, _, -, hop⟩
        · exact absurd hgrants
            (ha.refused m (hmessage hact m rfl) (by rw [← hid, ← hsrc]; exact hfrom)
              (hmfrom ▸ hto) hmty)
        · cases hop

end Calm

/-- **Pre-votes protect a healthy leader** against requests that are refused. From a state of a run
in which `L` leads term `t` and no term is beyond, in every run in which the other members of the
majority `Q` stay in touch with `L` and whose steps are all `Undisturbed`, no term rises above
`t`. -/
theorem pre_vote_protects {as₀ : List Action} {c₀ : Cluster} (h₀ : Cluster.Runs mb as₀ c₀)
    (hlead : (c₀.nodes L).r.role = .leader ∧ (c₀.nodes L).r.currentTerm = t)
    (hterm : ∀ n ∈ mb.ids, (c₀.nodes n).r.currentTerm ≤ t) (hQ : Majority mb.set Q) (hL : L ∈ Q)
    (hout : ∀ p ∈ mb.ids, p ∉ Q → (c₀.nodes p).r.role = .preCandidate →
      Disjoint (c₀.nodes p).r.preVotesReceived Q)
    (hrun : exec (Cluster.step mb) c₀ as = some c)
    (hheard : ∀ bs, bs <+: as → InTouch mb Q L t (as₀ ++ bs))
    (hcalm : Along (Cluster.step mb) (fun c a => a.Undisturbed Q L c₀.net c) c₀ as) :
    ∀ n ∈ mb.ids, (c.nodes n).r.currentTerm ≤ t := by
  have hstart : Calm mb Q L t c₀.net as₀ c₀ :=
    ⟨.of_runs h₀, hlead, hterm, hout, fun x hx _ _ _ _ => hx⟩
  have hres : Calm mb Q L t c₀.net (as₀ ++ as) c :=
    exec_history (I := Calm mb Q L t c₀.net)
      (fun bs _ _ _ hbs hI ha hs => hI.step hQ hL (hheard bs hbs) ha hs) hstart hcalm hrun
  exact hres.term_le

/-! ## Three nodes -/

instance (r : Raft) : ∀ op : Op, Decidable (op.OutOfRange r)
  | .step _ => inferInstanceAs (Decidable (_ ∧ _ ∧ _ ∧ _ ∧ _ ∧ ∃ s ∈ r.log.head?, _))
  | .createSnapshot index _ =>
    inferInstanceAs (Decidable (_ ∧ (∃ first ∈ r.firstIndex, first < index) ∧
      ∃ last ∈ r.lastLogIndex, last < index))
  | .tick | .propose _ | .readIndex _ => .isFalse id

instance (c : Cluster) : ∀ a : Action, Decidable (a.Kills c)
  | .run n op none => inferInstanceAs (Decidable (op.OutOfRange (c.nodes n).r))
  | .compact n index data =>
    inferInstanceAs (Decidable (Op.OutOfRange (c.nodes n).r (.createSnapshot index data)))
  | .run _ _ (some _) | .crash _ => .isTrue trivial

instance (Q : Finset ℕ) (L : ℕ) (old : List Message) (c : Cluster) (a : Action) :
    Decidable (a.Undisturbed Q L old c) :=
  decidable_of_iff ((a.node = L → ¬a.Kills c) ∧
    (∀ m ∈ a.message, a.node ∈ Q → m.fromId ∉ Q → m.type = .preVote →
      ¬(c.nodes a.node).r.stance.Grants m) ∧
    ∀ m ∈ a.message, a.node ∉ Q → m.fromId ∈ Q → m.type = .preVoteResponse →
      m.voteGranted = true → m ∉ old)
    ⟨fun h => ⟨h.1, h.2.1, h.2.2⟩, fun h => ⟨h.alive, h.refused, h.late⟩⟩

/-- Node `q` processes the first heartbeat of node one. -/
def beatOne (q : ℕ) : Action :=
  .run q (.step { type := .appendEntries, fromId := 1, toId := q, term := 1 }) none

/-- Node three times out in term `t`, and asks node two for its pre-vote, which answers. -/
def pollTwo (t : ℕ) (granted : Bool) : List Action :=
  [.run 3 .tick none, .run 3 .tick none,
    .run 2 (.step { type := .preVote, fromId := 3, toId := 2, term := t }) none,
    .run 3
      (.step
        { type := .preVoteResponse, fromId := 2, toId := 3, term := 1, voteGranted := granted })
            none]

/-- Node two has not ticked since it heard from node one. -/
theorem inTouch_pollTwo {as : List Action} (h : lastHeard 1 1 2 as = some 0) {t : ℕ}
    {granted : Bool} {bs : List Action} (hbs : bs <+: pollTwo t granted) :
    InTouch .three {1, 2} 1 1 (as ++ bs) := by
  intro q hq hne
  obtain rfl : q = 2 := by
    rcases Finset.mem_insert.mp hq with rfl | hq
    · exact absurd rfl hne
    · exact Finset.mem_singleton.mp hq
  refine ⟨0, by decide, lastHeard_append h fun a ha => ?_⟩
  have hmem := hbs.subset ha
  simp only [pollTwo, List.mem_cons, List.not_mem_nil, or_false] at hmem
  rcases hmem with rfl | rfl | rfl | rfl <;> rfl

/-- Node three, which has not heard of term one, is refused. -/
theorem pre_vote_protects_three :
    ∃ c₀ c, Cluster.Runs .three (electBy 1 2 0 1 0 0 0 ++ [beatOne 2]) c₀ ∧
    exec (Cluster.step .three) c₀ (pollTwo 0 false) = some c ∧
      ∀ n ∈ Members.three.ids, (c.nodes n).r.currentTerm ≤ 1 := by
  have hrun :
      ((exec (Cluster.step .three) (Cluster.init .three)
        (electBy 1 2 0 1 0 0 0 ++ [beatOne 2])).bind fun c₀ =>
          (exec (Cluster.step .three) c₀ (pollTwo 0 false)).map fun _ =>
        decide (((c₀.nodes 1).r.role = .leader ∧ (c₀.nodes 1).r.currentTerm = 1) ∧
          (∀ n ∈ Members.three.ids, (c₀.nodes n).r.currentTerm ≤ 1) ∧
          (∀ p ∈ Members.three.ids, p ∉ ({1, 2} : Finset ℕ) → (c₀.nodes p).r.role = .preCandidate →
            Disjoint (c₀.nodes p).r.preVotesReceived {1, 2}) ∧
          Along (Cluster.step .three) (fun c a => a.Undisturbed {1, 2} 1 c₀.net c) c₀
            (pollTwo 0 false))) =
      some true := by
    decide +kernel
  obtain ⟨c₀, h₀, hrun⟩ := Option.bind_eq_some_iff.mp hrun
  obtain ⟨c, hc, hdec⟩ := Option.map_eq_some_iff.mp hrun
  obtain ⟨hlead, hterm, hout, hcalm⟩ := of_decide_eq_true hdec
  exact ⟨c₀, c, h₀, hc, pre_vote_protects h₀ hlead hterm (by decide) (by decide) hout hc
    (fun bs hbs => inTouch_pollTwo rfl hbs) hcalm⟩

/-- **A node that comes back starts a new term.** Node one leads term one and has just been heard by
node two. Node three has heard of the term, and times out. Its log is as long as that of node two,
which grants its pre-vote. -/
theorem pre_vote_disrupts :
    ∃ c₀ c, Cluster.Runs .three (electBy 1 2 0 1 0 0 0 ++ [beatOne 2, beatOne 3]) c₀ ∧
    (c₀.nodes 1).r.role = .leader ∧ (∀ n ∈ Members.three.ids, (c₀.nodes n).r.currentTerm = 1) ∧
    Majority Members.three.set {1, 2} ∧ exec (Cluster.step .three) c₀ (pollTwo 1 true) = some c ∧
    (∀ bs, bs <+: pollTwo 1 true →
      InTouch .three {1, 2} 1 1 (electBy 1 2 0 1 0 0 0 ++ [beatOne 2, beatOne 3] ++ bs)) ∧
    (c.nodes 3).r.currentTerm = 2 := by
  have hrun : ((exec (Cluster.step .three) (Cluster.init .three)
      (electBy 1 2 0 1 0 0 0 ++ [beatOne 2, beatOne 3])).bind
      fun c₀ => (exec (Cluster.step .three) c₀ (pollTwo 1 true)).map fun c =>
        decide ((c₀.nodes 1).r.role = .leader ∧
          (∀ n ∈ Members.three.ids, (c₀.nodes n).r.currentTerm = 1) ∧
            (c.nodes 3).r.currentTerm = 2)) =
      some true := by
    decide +kernel
  obtain ⟨c₀, h₀, hrun⟩ := Option.bind_eq_some_iff.mp hrun
  obtain ⟨c, hc, hdec⟩ := Option.map_eq_some_iff.mp hrun
  obtain ⟨hlead, hterm, hnew⟩ := of_decide_eq_true hdec
  exact ⟨c₀, c, h₀, hlead, hterm, by decide, hc, fun bs hbs => inTouch_pollTwo rfl hbs, hnew⟩

end KvStore
