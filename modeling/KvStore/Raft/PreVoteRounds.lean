import KvStore.Raft.Ballot
import KvStore.Raft.ElectoralDeadEnd

/-!
# Pre-vote rounds

A node that times out asks for pre-votes, and each timeout starts a new round. The answers bear no
round: a `PreCandidate` counts every grant it gets, also one that was given to it in an earlier
round, for another term and another log.

* `Round r op r'`: how a call leaves a node a `PreCandidate`. It starts a round, or goes on with
  one, in which term and log end stay and a granted answer is counted. `Op.run_round`: there is no
  other way.
* `Polls`: a cluster with the `PreVote`s of every node's last round, and who has granted one of
  them.
* `Polls.Current`: a `PreCandidate` gets grants only from nodes that have granted a `PreVote` of its
  last round.
* `election_backed_by_round`: along a run of such steps, who becomes a candidate has the grants of a
  majority, and what they have granted bears its term and the end of its log.
* `grant_of_earlier_round`: a candidate whose last round nobody has answered.
-/

namespace KvStore

open Consensus Machine

variable {r r' : Raft} {l : List LogEntry} {b : ℕ} {op : Op}

/-! ## The end of the log -/

/-- The log ends as before, unless the node follows or leads. -/
theorem Op.run_logEnd (h : op.run r = some r') (hs : Spans r l b) :
    r'.logEnd = r.logEnd ∨ r'.role = .follower ∨ r'.role = .leader := by
  cases Op.run_outcome h with
  | idle | waited | ticked | preVoted | counted | tallied | rejected | declined | answered =>
    exact Or.inl rfl
  | beat role round | asked role round =>
    obtain ⟨ms, f, i, rfl, -⟩ := round.eq
    exact Or.inl rfl
  | polled _ _ asks | campaigned _ _ _ _ _ asks =>
    obtain ⟨ms, rfl, -⟩ := asks
    exact Or.inl rfl
  | alone _ _ _ round | crowned _ _ _ _ _ _ round | elected _ _ _ _ _ _ round =>
    obtain ⟨ms, f, i, rfl, -⟩ := round.eq
    exact Or.inr (Or.inr rfl)
  | refused _ _ hmeets | voted _ _ hmeets =>
    rcases hmeets with rfl | ⟨-, rfl⟩
    · exact Or.inl rfl
    · exact Or.inl rfl
  | outrun | mismatched | known | installed => exact Or.inr (Or.inl rfl)
  | merged _ _ _ _ _ _ run =>
    obtain ⟨log, u, rfl⟩ := Raft.mergeEntries_eq run
    exact Or.inr (Or.inl rfl)
  | acked _ _ role _ hears run =>
    obtain ⟨states, reads, rfl⟩ := hears.eq
    obtain ⟨i, rfl, -⟩ := Raft.maybeAdvanceCommitIndex_eq run
    exact Or.inl rfl
  | nacked _ _ _ _ hears run =>
    obtain ⟨states, reads, rfl⟩ := hears.eq
    obtain ⟨x, f, rfl, -⟩ := Raft.sendAppendEntries_eq run
    exact Or.inl rfl
  | received run =>
    obtain ⟨i, rfl, -⟩ := Raft.maybeAdvanceCommitIndex_eq run
    exact Or.inl rfl
  | proposed role append round =>
    obtain ⟨log, rfl⟩ := Raft.appendDatas_eq append
    obtain ⟨ms, f, i, rfl, -⟩ := round.eq
    exact Or.inr (Or.inr role)
  | compacted run =>
    rcases hs.createSnapshot run with ⟨-, e, herr⟩ | ⟨-, -, hle, heq⟩
    · cases herr
    · have hs' : Spans r' l _ := ⟨by rw [heq], hle, hs.indexed⟩
      refine Or.inl ?_
      rw [Raft.logEnd, Raft.logEnd, hs'.lastLogTerm, hs'.lastLogIndex, hs.lastLogTerm,
        hs.lastLogIndex]

/-! ## Rounds -/

/-- The next `Tick` starts a round. -/
def Raft.TimesOut (r : Raft) : Prop :=
  r.role ≠ .leader ∧ r.randomizedElectionTimeout ≤ r.electionElapsed + 1

instance (r : Raft) : Decidable r.TimesOut := inferInstanceAs (Decidable (_ ∧ _))

/-- How a call leaves a node a `PreCandidate`. -/
inductive Round (r : Raft) (op : Op) (r' : Raft) : Prop
  | opened (tick : op = .tick) (timesOut : r.TimesOut) (preVotes : r'.preVotesReceived = {r.id})
      (msgs : r'.msgs = r.msgs ++ r.peers.map (r.stance.request .preVote r.id))
  | continued (waits : ¬(op = .tick ∧ r.TimesOut)) (role : r.role = .preCandidate)
      (preVotes : r'.preVotesReceived = r.preVotesReceived ∨ ∃ m, op = .step m ∧ m.toId = r.id ∧
        m.type = .preVoteResponse ∧ m.voteGranted = true ∧
        r'.preVotesReceived = insert m.fromId r.preVotesReceived)

/-- **A `PreCandidate` starts a round, or goes on with it**, and keeps its term and the end of its
log. -/
theorem Op.run_round (h : op.run r = some r') (hs : Spans r l b) (hp : r.peers ≠ [])
    (hrole : r'.role = .preCandidate) : Round r op r' ∧ r'.currentTerm = r.currentTerm ∧
      r'.logEnd = r.logEnd := by
  have hend : r'.logEnd = r.logEnd := by
    rcases Op.run_logEnd h hs with hend | hr | hr
    · exact hend
    · rw [hr] at hrole; cases hrole
    · rw [hr] at hrole; cases hrole
  by_cases hopens : op = .tick ∧ r.TimesOut
  · obtain ⟨rfl, hout⟩ := hopens
    obtain ⟨r₁, h₁, hcases⟩ := hs.tick_of_follower hp hout.1
    rw [show r.tick = some r' from h] at h₁
    obtain rfl := Option.some.inj h₁
    rcases hcases with ⟨hlt, -⟩ | ⟨-, hst, hmsgs⟩
    · exact absurd hout.2 (not_le.mpr hlt)
    · exact ⟨.opened rfl hout (congrArg Stance.preVotes hst) hmsgs, congrArg Stance.term hst, hend⟩
  have hballot := Op.run_ballot h
  generalize he : r'.election = s at hballot
  have hterm : r'.currentTerm = s.term := congrArg ElectionState.term he
  have hvotes : r'.preVotesReceived = s.preVotes := congrArg ElectionState.preVotes he
  have hrole' : s.role = .preCandidate := (congrArg ElectionState.role he).symm.trans hrole
  rw [hterm]
  cases hballot with
  | kept | restarted | ticked => exact ⟨.continued hopens hrole' (Or.inl hvotes), rfl, hend⟩
  | followed => cases hrole'
  | elected => cases hrole'
  | polled _ hr late => exact absurd ⟨rfl, hr, late⟩ hopens
  | alone _ _ _ peers => exact absurd peers hp
  | @counted m type granted role dst =>
    exact ⟨.continued hopens role (Or.inr ⟨m, rfl, dst, type, granted, hvotes⟩), rfl, hend⟩
  | @campaigned m _ _ _ type granted role enough dst next =>
    -- with a majority the node is a candidate
    obtain ⟨r₁, h₁, hcases⟩ := hs.handlePreVoteResponse hp role granted
    rw [← Raft.step_preVoteResponse dst type, show r.step m = some r' from h] at h₁
    obtain rfl := Option.some.inj h₁
    rw [if_pos enough] at hcases
    have hcand : r'.role = .candidate := congrArg Stance.role hcases.1
    rw [hcand] at hrole
    cases hrole

/-! ## Rounds of a cluster -/

/-- A cluster with, for every node, the `PreVote`s it sent when it last became a `PreCandidate`, and
the nodes that have answered one of them with a grant. -/
structure Polls where
  cluster : Cluster
  asked : ℕ → List Message
  granted : ℕ → Finset ℕ

namespace Polls

/-- What a step to `c` has sent. -/
def sent (P : Polls) (c : Cluster) : List Message := c.net.drop P.cluster.net.length

/-- The step to `c` answers `m` with a grant. -/
def Grants (P : Polls) (c : Cluster) (m : Message) : Prop :=
  ∃ x ∈ P.sent c, x.type = .preVoteResponse ∧ x.voteGranted = true ∧ x.toId = m.fromId

instance (P : Polls) (c : Cluster) (m : Message) : Decidable (P.Grants c m) :=
  inferInstanceAs (Decidable (∃ x ∈ P.sent c, _ ∧ _ ∧ _))

/-- A node that times out starts a round; a grant belongs to the round of the `PreVote` that it
answers. -/
def note (P : Polls) (c : Cluster) : Action → Polls
  | .run n .tick none =>
    if (P.cluster.nodes n).r.TimesOut then
      ⟨c, Function.update P.asked n (P.sent c), Function.update P.granted n ∅⟩
    else { P with cluster := c }
  | .run q (.step m) none =>
    if m ∈ P.asked m.fromId ∧ P.Grants c m then
      { P with cluster := c,
               granted := Function.update P.granted m.fromId (insert q (P.granted m.fromId)) }
    else { P with cluster := c }
  | _ => { P with cluster := c }

/-- A step of the cluster. -/
def step (mb : Members) (P : Polls) (a : Action) : Option Polls :=
  (P.cluster.step mb a).map fun c => P.note c a

/-- Nobody has asked for a pre-vote. -/
def init (mb : Members) : Polls := ⟨Cluster.init mb, fun _ => [], fun _ => ∅⟩

/-- Take the actions one after another, from the start. -/
abbrev Runs (mb : Members) (as : List Action) (P : Polls) : Prop :=
  exec (Polls.step mb) (Polls.init mb) as = some P

/-- If node `n` is a `PreCandidate`, the grant that it gets in the call comes from a node that has
granted a `PreVote` of its last round. -/
def CurrentCall (P : Polls) (n : ℕ) : Op → Prop
  | .step m => m.toId = n → m.type = .preVoteResponse → m.voteGranted = true →
      (P.cluster.nodes n).r.role = .preCandidate → m.fromId ∈ P.granted n
  | _ => True

/-- Every grant a `PreCandidate` gets comes from a node that has granted a `PreVote` of its last
round. -/
def Current (P : Polls) : Action → Prop
  | .run n op _ => P.CurrentCall n op
  | _ => True

instance (P : Polls) (n : ℕ) : DecidablePred (P.CurrentCall n)
  | .step m =>
      inferInstanceAs (Decidable (m.toId = n → m.type = .preVoteResponse → m.voteGranted = true →
        (P.cluster.nodes n).r.role = .preCandidate → m.fromId ∈ P.granted n))
  | .tick | .propose _ | .readIndex _ | .createSnapshot _ _ => .isTrue trivial

instance (P : Polls) : DecidablePred P.Current
  | .run n op _ => inferInstanceAs (Decidable (P.CurrentCall n op))
  | .compact .. | .crash _ => .isTrue trivial

variable {mb : Members} {P P' : Polls} {c : Cluster} {a : Action} {n : ℕ}

/-- The step starts a round of node `n`. -/
def Opens (P : Polls) (n : ℕ) (a : Action) : Prop :=
  a = .run n .tick none ∧ (P.cluster.nodes n).r.TimesOut

theorem note_cluster : (P.note c a).cluster = c := by
  unfold note
  split
  · split_ifs <;> rfl
  · split_ifs <;> rfl
  · rfl

theorem note_opens (h : P.Opens n a) : (P.note c a).asked n = P.sent c ∧
    (P.note c a).granted n = ∅ := by
  obtain ⟨rfl, hout⟩ := h
  simp [note, hout]

theorem note_asked (h : ¬P.Opens n a) : (P.note c a).asked n = P.asked n := by
  unfold note
  split
  next k =>
    split_ifs with hout
    · have hne : n ≠ k := by
        rintro rfl
        exact h ⟨rfl, hout⟩
      exact Function.update_of_ne hne ..
    · rfl
  · split_ifs <;> rfl
  · rfl

theorem subset_note_granted (h : ¬P.Opens n a) : P.granted n ⊆ (P.note c a).granted n := by
  unfold note
  split
  next k =>
    split_ifs with hout
    · have hne : n ≠ k := by
        rintro rfl
        exact h ⟨rfl, hout⟩
      exact (Function.update_of_ne hne ..).ge
    · exact subset_rfl
  · split_ifs
    · intro q hq
      dsimp only
      rw [Function.update_apply]
      split_ifs with heq
      · exact Finset.mem_insert_of_mem (heq ▸ hq)
      · exact hq
    · exact subset_rfl
  · exact subset_rfl

theorem note_granted_subset (hmem : a.node ∈ mb.set) (h : ∀ n, P.granted n ⊆ mb.set) (n : ℕ) :
    (P.note c a).granted n ⊆ mb.set := by
  unfold note
  split
  · split_ifs
    · dsimp only
      rw [Function.update_apply]
      split_ifs
      · exact Finset.empty_subset _
      · exact h n
    · exact h n
  · split_ifs
    · dsimp only
      rw [Function.update_apply]
      split_ifs
      · exact Finset.insert_subset hmem (h _)
      · exact h n
    · exact h n
  · exact h n

/-- Every pre-vote that a `PreCandidate` counts is one of its last round, in which it asked with its
term and the end of its log. -/
structure Backed (mb : Members) (P : Polls) : Prop where
  regular : P.cluster.Regular mb
  members : ∀ n, P.granted n ⊆ mb.set
  round : ∀ n ∈ mb.ids, (P.cluster.nodes n).r.role = .preCandidate →
    (P.cluster.nodes n).r.preVotesReceived ⊆ insert n (P.granted n) ∧
    P.asked n = (P.cluster.nodes n).r.peers.map ((P.cluster.nodes n).r.stance.request .preVote n)

theorem init_backed (mb : Members) : (Polls.init mb).Backed mb where
  regular := ⟨_, sim_init False mb⟩
  members := fun _ => Finset.empty_subset _
  round := fun _ _ hrole => by cases hrole

theorem peers_ne_nil (h : c.Regular mb) (hlen : 2 ≤ mb.ids.length) (hn : n ∈ mb.ids) :
    (c.nodes n).r.peers ≠ [] := by
  obtain ⟨A, hA⟩ := h
  intro hnil
  have hlength := mb.length_peers hn
  have hpeers : (c.nodes n).r.peers = (mb.config n).peers := (hA.node n hn).live.mirrors.peers_eq
  rw [← hpeers, hnil, List.length_nil] at hlength
  omega

/-- A call on node `n` that leaves it a `PreCandidate`. -/
theorem Backed.called (h : P.Backed mb) (hlen : 2 ≤ mb.ids.length) (hn : n ∈ mb.ids)
    (hcur : P.CurrentCall n op) (hrun : op.run (P.cluster.nodes n).r = some r)
    (hpeers : r.peers = (P.cluster.nodes n).r.peers) (hrole : r.role = .preCandidate)
    {asked : List Message} {granted : Finset ℕ}
    (hopen : op = .tick ∧ (P.cluster.nodes n).r.TimesOut → asked = r.msgs) (hkeep :
    ¬(op = .tick ∧ (P.cluster.nodes n).r.TimesOut) → asked = P.asked n ∧ P.granted n ⊆ granted) :
    r.preVotesReceived ⊆ insert n granted ∧ asked = r.peers.map (r.stance.request .preVote n) := by
  obtain ⟨l, b, hs⟩ := h.regular.spans hn
  have hid := h.regular.id_eq hn
  obtain ⟨hround, hterm, hend⟩ := Op.run_round hrun hs (peers_ne_nil h.regular hlen hn) hrole
  have hreq : r.stance.request .preVote n = (P.cluster.nodes n).r.stance.request .preVote n := by
    funext p
    simp only [Stance.request, Raft.stance, hterm, hend]
  rw [hreq, hpeers]
  cases hround with
  | opened tick timesOut preVotes msgs =>
    rw [h.regular.msgs_eq hn, hid, List.nil_append] at msgs
    rw [preVotes, hid]
    exact ⟨Finset.singleton_subset_iff.mpr (Finset.mem_insert_self n _),
      (hopen ⟨tick, timesOut⟩).trans msgs⟩
  | continued waits role preVotes =>
    obtain ⟨hvotes, hasked⟩ := h.round n hn role
    obtain ⟨hask, hsub⟩ := hkeep waits
    refine ⟨?_, hask.trans hasked⟩
    have hold := hvotes.trans (Finset.insert_subset_insert n hsub)
    rcases preVotes with heq | ⟨m, rfl, hto, hty, hg, heq⟩
    · rw [heq]
      exact hold
    · rw [heq]
      have hm : m.fromId ∈ P.granted n := hcur (hto.trans hid) hty hg role
      exact Finset.insert_subset (Finset.mem_insert_of_mem (hsub hm)) hold

/-- **A step keeps the rounds apart.** -/
theorem Backed.step (h : P.Backed mb) (hlen : 2 ≤ mb.ids.length) (hcur : P.Current a)
    (hstep : P.step mb a = some P') : P'.Backed mb := by
  obtain ⟨c', hc, rfl⟩ := Option.map_eq_some_iff.mp hstep
  have hmem := Cluster.step_mem hc
  have hregular : c'.Regular mb := by
    obtain ⟨A, hA⟩ := h.regular
    obtain ⟨A', hA', -⟩ := hA.step False.elim hc
    exact ⟨A', hA'⟩
  refine ⟨note_cluster ▸ hregular, note_granted_subset (mb.mem_set.mpr hmem) h.members,
    fun n hn hrole => ?_⟩
  rw [note_cluster] at hrole ⊢
  by_cases hne : n ≠ a.node
  · -- the step is about another node
    have hopens : ¬P.Opens n a := fun hopens => hne (by rw [hopens.1]; rfl)
    rw [Cluster.step_of_ne hc hne] at hrole ⊢
    obtain ⟨hvotes, hasked⟩ := h.round n hn hrole
    exact ⟨hvotes.trans (Finset.insert_subset_insert n (subset_note_granted hopens)),
      (note_asked hopens).trans hasked⟩
  obtain rfl := not_ne_iff.mp hne
  have hpeers : (c'.nodes a.node).r.peers = (P.cluster.nodes a.node).r.peers := by
    obtain ⟨A, hA⟩ := h.regular
    obtain ⟨A', hA'⟩ := hregular
    exact (hA'.node _ hn).live.mirrors.peers_eq.trans (hA.node _ hn).live.mirrors.peers_eq.symm
  cases Cluster.step_cases hc with
  | @ran n op r nd run sent advance =>
    obtain ⟨last, -, hadvance⟩ := Option.bind_eq_some_iff.mp advance
    obtain ⟨hst, hps⟩ : nd.r.stance = r.stance ∧ nd.r.peers = r.peers := by
      rw [← Option.some.inj hadvance]
      exact ⟨rfl, rfl⟩
    have hself : (Function.update P.cluster.nodes n nd n) = nd := Function.update_self ..
    simp only [Action.node, hself] at hrole hpeers hn ⊢
    rw [show nd.r.preVotesReceived = r.preVotesReceived from congrArg Stance.preVotes hst, hst, hps]
    refine h.called hlen hn hcur run (hps.symm.trans hpeers)
      ((congrArg Stance.role hst).symm.trans hrole) (fun hopens => ?_) fun hwaits => ?_
    · rw [(note_opens ⟨by rw [hopens.1], hopens.2⟩).1]
      exact List.drop_left ..
    · have hopens : ¬P.Opens n (.run n op none) := fun hopens => by
        injection hopens.1 with _ hop _
        exact hwaits ⟨hop, hopens.2⟩
      exact ⟨note_asked hopens, subset_note_granted hopens⟩
  | @compacted n index data r err run =>
    have hself : (P.cluster.setNode n ⟨r, (P.cluster.nodes n).storage⟩).nodes n =
      ⟨r, (P.cluster.nodes n).storage⟩ := Function.update_self ..
    simp only [Action.node, hself] at hrole hpeers hn ⊢
    have hrun : Op.run (P.cluster.nodes n).r (.createSnapshot index data) = some r := by
      simp only [Op.run, run, Option.map_some]
    have hany : P.CurrentCall n (.createSnapshot index data) := trivial
    have hopens : ¬P.Opens n (.compact n index data) := fun hopens => by cases hopens.1
    exact h.called hlen hn hany hrun hpeers hrole (fun hopens => by cases hopens.1)
      fun _ => ⟨note_asked hopens, subset_note_granted hopens⟩
  | @restarted _ nd role =>
    have hself : (P.cluster.setNode a.node nd).nodes a.node = nd := Function.update_self ..
    rw [hself, role] at hrole
    cases hrole

theorem Runs.backed {as : List Action} (h : Polls.Runs mb as P) (hlen : 2 ≤ mb.ids.length)
    (hcur : Along (Polls.step mb) Polls.Current (Polls.init mb) as) : P.Backed mb :=
  exec_induct (fun _ _ _ h hcur hstep => h.step hlen hcur hstep) (init_backed mb) hcur h

end Polls

/-- **An election is backed by the last pre-vote round**, if every grant that a `PreCandidate` gets
comes from a node that has granted a `PreVote` of its last round. Whenever a call makes a
`PreCandidate` a `Candidate`, a majority have granted one, itself included, and every `PreVote` of
the round bears its term and the end of its log. -/
theorem election_backed_by_round {mb : Members} {as : List Action} {P : Polls} {n : ℕ}
    (hrun : Polls.Runs mb as P) (hlen : 2 ≤ mb.ids.length)
    (hcur : Along (Polls.step mb) Polls.Current (Polls.init mb) as) (hn : n ∈ mb.ids)
    (hpre : (P.cluster.nodes n).r.role = .preCandidate) (hop : P.CurrentCall n op)
    (hcall : op.run (P.cluster.nodes n).r = some r') (hcand : r'.role = .candidate) :
    Majority mb.set (insert n (P.granted n)) ∧ ∀ m ∈ P.asked n, m.type = .preVote ∧ m.fromId = n ∧
      m.term = (P.cluster.nodes n).r.currentTerm ∧
    (P.cluster.nodes n).r.lastLogIndex = some m.lastLogIndex ∧
      (P.cluster.nodes n).r.lastLogTerm = some m.lastLogTerm := by
  have h := hrun.backed hlen hcur
  obtain ⟨hvotes, hasked⟩ := h.round n hn hpre
  constructor
  · refine ⟨Finset.insert_subset (mb.mem_set.mpr hn) (h.members n), ?_⟩
    have hballot := Op.run_ballot hcall
    generalize he : r'.election = s at hballot
    have hcand' : s.role = .candidate := (congrArg ElectionState.role he).symm.trans hcand
    cases hballot with
    | kept | restarted | ticked | counted =>
      have hrole : (P.cluster.nodes n).r.role = .candidate := hcand'
      rw [hpre] at hrole
      cases hrole
    | followed | polled | elected => cases hcand'
    | alone _ _ _ peers => exact absurd peers (Polls.peers_ne_nil h.regular hlen hn)
    | @campaigned m _ _ _ type granted role enough dst next =>
      -- who is counted has granted
      have hm : m.fromId ∈ P.granted n := hop (dst.trans (h.regular.id_eq hn)) type granted role
      have hsub := Finset.card_le_card (Finset.insert_subset (Finset.mem_insert_of_mem hm) hvotes)
      have hmajority := (h.regular.hasMajorityCount_iff hn).mp enough
      rw [mb.card_set]
      omega
  · intro m hm
    rw [hasked] at hm
    obtain ⟨p, -, rfl⟩ := List.mem_map.mp hm
    obtain ⟨l, b, hs⟩ := h.regular.spans hn
    simp only [Stance.request, Raft.stance, Raft.logEnd, ofLex_toLex, hs.lastLogIndex,
      hs.lastLogTerm, Option.getD_some, and_self]

/-- Node two's grant to node one, in term zero. -/
def grantOne : Message := { type := .preVoteResponse, fromId := 2, toId := 1, voteGranted := true }

/-- Node one of three has asked for pre-votes and node two has granted its own: with it, node one is
a candidate. -/
theorem election_backed_by_round_three :
    ∃ P r', Polls.Runs .three ((electBy 1 2 0 1 0 0 0).take 3) P ∧ grantOne ∈ P.cluster.net ∧
    (P.cluster.nodes 1).r.step grantOne = some r' ∧ r'.role = .candidate ∧
    Majority Members.three.set (insert 1 (P.granted 1)) ∧ ∀ m ∈ P.asked 1, m.type = .preVote ∧
      m.fromId = 1 ∧ m.term = (P.cluster.nodes 1).r.currentTerm ∧
    (P.cluster.nodes 1).r.lastLogIndex = some m.lastLogIndex ∧
      (P.cluster.nodes 1).r.lastLogTerm = some m.lastLogTerm := by
  have hrun :
    ((exec (Polls.step .three) (Polls.init .three) ((electBy 1 2 0 1 0 0 0).take 3)).bind fun P =>
      ((P.cluster.nodes 1).r.step grantOne).map fun r' => decide (grantOne ∈ P.cluster.net ∧
        r'.role = .candidate ∧ (P.cluster.nodes 1).r.role = .preCandidate ∧
          P.CurrentCall 1 (.step grantOne) ∧
        Along (Polls.step .three) Polls.Current (Polls.init .three)
          ((electBy 1 2 0 1 0 0 0).take 3))) =
      some true := by
    decide +kernel
  obtain ⟨P, h, hrun⟩ := Option.bind_eq_some_iff.mp hrun
  obtain ⟨r', hr', hrun⟩ := Option.map_eq_some_iff.mp hrun
  obtain ⟨hnet, hcand, hpre, hop, hcur⟩ := of_decide_eq_true hrun
  have hcall : Op.run (P.cluster.nodes 1).r (.step grantOne) = some r' := hr'
  exact ⟨P, r', h, hnet, hr', hcand, election_backed_by_round h (by decide) hcur (by decide) hpre
    hop hcall hcand⟩

/-- Node two grants node one a pre-vote in term zero. Then it elects node three, whose entry node
one gets. Node one times out again and asks for pre-votes in term one. -/
def secondRound : List Action :=
  (electBy 1 2 0 1 0 0 0).take 3 ++ electBy 3 2 0 1 0 0 0 ++
  [.run 3 (.propose [[7]]) none,
    .run 1
      (.step
        { type := .appendEntries, fromId := 3, toId := 1, term := 1, entries := [⟨1, 1, [7]⟩] })
            none,
    .run 1 .tick none, .run 1 .tick none]

/-- The grant of the first round is delivered in the second, and makes node one a candidate. Nobody
has granted a `PreVote` of the second round. -/
theorem grant_of_earlier_round : ∃ P r', Polls.Runs .three secondRound P ∧
    (P.cluster.nodes 1).r.role = .preCandidate ∧ grantOne ∈ P.cluster.net ∧
    (P.cluster.nodes 1).r.step grantOne = some r' ∧ r'.role = .candidate ∧ P.granted 1 = ∅ ∧
    ¬Majority Members.three.set (insert 1 (P.granted 1)) := by
  have hrun : ((exec (Polls.step .three) (Polls.init .three) secondRound).bind fun P =>
      ((P.cluster.nodes 1).r.step grantOne).map fun r' =>
        decide ((P.cluster.nodes 1).r.role = .preCandidate ∧ grantOne ∈ P.cluster.net ∧
          r'.role = .candidate ∧ P.granted 1 = ∅)) = some true := by
    decide +kernel
  obtain ⟨P, h, hrun⟩ := Option.bind_eq_some_iff.mp hrun
  obtain ⟨r', hr', hrun⟩ := Option.map_eq_some_iff.mp hrun
  obtain ⟨hpre, hnet, hcand, hgranted⟩ := of_decide_eq_true hrun
  refine ⟨P, r', h, hpre, hnet, hr', hcand, hgranted, ?_⟩
  rw [hgranted]
  decide

end KvStore
