import KvStore.Raft.Campaign
import KvStore.Raft.Emits

/-!
# Election timers and pre-votes

What a call does to a node's role and term, to its election timer and to the pre-votes it has
counted, and which messages it sends.

* `Ballot r op s`: the outcomes `s` of the call `op` on the node `r`. A node follows because of a
  higher term, or of a leader of its own term; it asks for pre-votes when it times out; its term
  goes up by itself only with the pre-votes of a majority.
* `Op.run_ballot`: every call has one of them.
* `Posted r op r'`: what is sent bears the node's id and a term it has reached, and a pre-vote is
  given only if `Stance.Grants` says so.
* `Cluster.Reacts`: what a step of the cluster does to the node it is about.
-/

namespace KvStore

open Machine

/-- A node's part in elections, apart from its log and its vote. -/
structure ElectionState where
  role : Role
  term : ℕ
  preVotes : Finset ℕ
  electionTick : ℕ
  elapsed : ℕ
  timeout : ℕ

/-- What elections see of a node. -/
def Raft.election (r : Raft) : ElectionState :=
  ⟨r.role, r.currentTerm, r.preVotesReceived, r.electionTick, r.electionElapsed,
    r.randomizedElectionTimeout⟩

/-- The timer starts again, with the timeout `k`. -/
def ElectionState.restart (s : ElectionState) (k : ℕ) : ElectionState :=
  { s with elapsed := 0, timeout := k }

/-- The node follows, in the given term. -/
def ElectionState.follow (s : ElectionState) (term : ℕ) : ElectionState :=
  { s with role := .follower, term := term }

/-- The outcomes of a call. -/
inductive Ballot (r : Raft) : Op → ElectionState → Prop
  | kept {op : Op} : Ballot r op r.election
  | restarted {op : Op} {k : ℕ} (timeout : r.electionTick ≤ k) : Ballot r op (r.election.restart k)
  | ticked (early : r.electionElapsed + 1 < r.randomizedElectionTimeout) :
      Ballot r .tick { r.election with elapsed := r.electionElapsed + 1 }
  | followed {m : Message} {k : ℕ} (timeout : r.electionTick ≤ k)
      (cause : r.currentTerm < m.term ∨
        m.term = r.currentTerm ∧ (m.type = .appendEntries ∨ m.type = .installSnapshot))
      (dst : m.toId = r.id) : Ballot r (.step m) ((r.election.follow m.term).restart k)
  | polled {k : ℕ} (timeout : r.electionTick ≤ k) (role : r.role ≠ .leader)
      (late : r.randomizedElectionTimeout ≤ r.electionElapsed + 1) :
      Ballot r .tick ({ r.election with role := .preCandidate, preVotes := {r.id} }.restart k)
  | counted {m : Message} (type : m.type = .preVoteResponse) (granted : m.voteGranted = true)
      (role : r.role = .preCandidate) (dst : m.toId = r.id) :
      Ballot r (.step m) { r.election with preVotes := insert m.fromId r.preVotesReceived }
  | campaigned {m : Message} {k : ℕ} {role' : Role} (timeout : r.electionTick ≤ k)
      (type : m.type = .preVoteResponse) (granted : m.voteGranted = true)
    (role : r.role = .preCandidate)
      (enough : r.hasMajorityCount (insert m.fromId r.preVotesReceived).card = true)
    (dst : m.toId = r.id)
      (next : role' = .candidate ∨ r.peers = []) :
      Ballot r (.step m) ({ r.election with
        role := role'
        term := r.currentTerm + 1
        preVotes := insert m.fromId r.preVotesReceived }.restart k)
  | alone {k : ℕ} {role' : Role} (timeout : r.electionTick ≤ k) (role : r.role ≠ .leader)
      (late : r.randomizedElectionTimeout ≤ r.electionElapsed + 1) (peers : r.peers = []) :
      Ballot r .tick ({ r.election with
        role := role'
        term := r.currentTerm + 1
        preVotes := {r.id} }.restart k)
  | elected {m : Message} (type : m.type = .requestVoteResponse) (granted : m.voteGranted = true)
      (role : r.role = .candidate) (term : m.term = r.currentTerm)
      (enough : r.hasMajorityCount (insert m.fromId r.votesReceived).card = true)
    (dst : m.toId = r.id) :
      Ballot r (.step m) { r.election with role := .leader }

variable {r r' : Raft} {m : Message} {op : Op}

/-! ## Calls -/

/-- A node that gets an `AppendEntries` of a term that is not behind follows, and its timer starts
again. -/
theorem Raft.handleAppendEntries_election (hle : r.currentTerm ≤ m.term)
    (h : r.handleAppendEntries m = some r') :
    ∃ k, r.electionTick ≤ k ∧ r'.election = (r.election.follow m.term).restart k := by
  refine ⟨r.electionTick + r.rnd 0 % r.electionTick, Nat.le_add_right _ _, ?_⟩
  simp only [Raft.handleAppendEntries, if_neg (not_lt.mpr hle), Raft.becomeFollower_eq hle,
    Option.bind_eq_bind, Option.bind_eq_some_iff, pure] at h
  obtain ⟨last, -, prevTerm, -, h⟩ := h
  split_ifs at h
  · obtain rfl := Option.some.inj h
    rfl
  all_goals
    simp only [Option.bind_eq_some_iff] at h
    obtain ⟨r₂, h₂, last', -, h⟩ := h
    obtain ⟨log, u, rfl⟩ := Raft.mergeEntries_eq h₂
    obtain rfl := Option.some.inj h
    rfl

namespace Ballot

/-- The message of a leader that is not behind. -/
theorem of_leader {k : ℕ} (hk : r.electionTick ≤ k)
    (hty : m.type = .appendEntries ∨ m.type = .installSnapshot) (hto : m.toId = r.id)
    (hle : r.currentTerm ≤ m.term) : Ballot r (.step m) ((r.election.follow m.term).restart k) :=
  .followed hk (hle.lt_or_eq.imp_right fun heq => ⟨heq.symm, hty⟩) hto

end Ballot

/-- **What a call does to role, term, timer and pre-votes.** -/
theorem Op.run_ballot (h : op.run r = some r') : Ballot r op r'.election := by
  -- a timer that starts again has at least `electionTick` to run
  have hk : r.electionTick ≤ r.electionTick + r.rnd 0 % r.electionTick := Nat.le_add_right _ _
  have hk' : r.electionTick ≤ r.electionTick + r.rnd 1 % r.electionTick := Nat.le_add_right _ _
  cases Op.run_outcome h with
  | idle | waited | preVoted | tallied | rejected | declined | answered => exact .kept
  | beat _ round | asked _ round =>
    obtain ⟨ms, f, i, rfl, -⟩ := round.eq
    exact .kept
  | ticked early => exact .ticked early
  | polled role late asks =>
    obtain ⟨ms, rfl, -⟩ := asks
    exact .polled hk role late
  | alone role late peers round =>
    obtain ⟨ms, f, i, rfl, -⟩ := round.eq
    exact .alone hk' role late peers
  | counted type dst granted role => exact .counted type granted role dst
  | campaigned type dst granted role enough asks =>
    obtain ⟨ms, rfl, -⟩ := asks
    exact .campaigned hk type granted role enough dst (Or.inl rfl)
  | crowned type dst granted role enough peers round =>
    obtain ⟨ms, f, i, rfl, -⟩ := round.eq
    exact .campaigned hk type granted role enough dst (Or.inr peers)
  | refused _ dst hmeets =>
    rcases hmeets with rfl | ⟨lt, rfl⟩
    · exact .kept
    · exact .followed hk (Or.inl lt) dst
  | voted _ dst hmeets =>
    rcases hmeets with rfl | ⟨lt, rfl⟩
    · exact .restarted hk
    · exact .followed hk' (Or.inl lt) dst
  | elected type dst granted role term enough round =>
    obtain ⟨ms, f, i, rfl, -⟩ := round.eq
    exact .elected type granted role term enough dst
  | outrun _ dst lt => exact .followed hk (Or.inl lt) dst
  | mismatched type dst le => exact .of_leader hk (Or.inl type) dst le
  | merged type dst le _ _ _ run =>
    obtain ⟨log, u, rfl⟩ := Raft.mergeEntries_eq run
    exact .of_leader hk (Or.inl type) dst le
  | acked _ _ _ _ hears run =>
    obtain ⟨states, reads, rfl⟩ := hears.eq
    obtain ⟨i, rfl, -⟩ := Raft.maybeAdvanceCommitIndex_eq run
    exact .kept
  | nacked _ _ _ _ hears run =>
    obtain ⟨states, reads, rfl⟩ := hears.eq
    obtain ⟨x, f, rfl, -⟩ := Raft.sendAppendEntries_eq run
    exact .kept
  | known type dst le | installed type dst le => exact .of_leader hk (Or.inr type) dst le
  | received run =>
    obtain ⟨i, rfl, -⟩ := Raft.maybeAdvanceCommitIndex_eq run
    exact .kept
  | proposed _ append round =>
    obtain ⟨log, rfl⟩ := Raft.appendDatas_eq append
    obtain ⟨ms, f, i, rfl, -⟩ := round.eq
    exact .kept
  | compacted run =>
    rcases Raft.createSnapshot_eq run with ⟨rfl, -⟩ | ⟨-, log, u, snap, rfl⟩
    · exact .kept
    · exact .kept

/-! ## Messages -/

/-- What the call `op` has sent since `r` bears the node's id and a term it has reached, and gives a
pre-vote only if it is granted. -/
def Posted (r : Raft) (op : Op) (r' : Raft) : Prop :=
  ∀ x ∈ r'.msgs, x ∈ r.msgs ∨ x.fromId = r.id ∧ x.term ≤ r'.currentTerm ∧
    (x.type = .preVoteResponse → x.voteGranted = true →
      ∃ m, op = .step m ∧ m.type = .preVote ∧ m.fromId = x.toId ∧ r.stance.Grants m)

/-- The end of the log is not behind, where `logOK` says so. -/
theorem Raft.logEnd_le_of_logOK (h : r.logOK m = some true) : r.logEnd ≤ m.logEnd := by
  simp only [Raft.logOK, Option.bind_eq_bind, Option.bind_eq_some_iff, pure, Option.some.injEq,
    decide_eq_true_eq] at h
  obtain ⟨t, ht, i, hi, hle⟩ := h
  rw [Raft.logEnd, Message.logEnd, ht, hi, Prod.Lex.toLex_le_toLex]
  exact hle.imp_right fun h => ⟨h.1.symm, h.2⟩

/-- **What a call sends.** -/
theorem Op.run_posted (h : op.run r = some r') : Posted r op r' := by
  refine fun x hx => (Op.run_emits h x hx).imp_right fun hsent =>
    ⟨hsent.src, hsent.term_le, fun hty hg => ?_⟩
  obtain ⟨m, hop, hpre, hsrc, hterm, hvote, hlog⟩ := hsent.grant hty hg
  exact ⟨m, hop, hpre, hsrc, hterm, hvote, Raft.logEnd_le_of_logOK hlog⟩

/-! ## In the cluster -/

/-- The node dies in the step. -/
def Action.Kills (c : Cluster) : Action → Prop
  | .run n op none => op.OutOfRange (c.nodes n).r
  | .compact n index data => Op.OutOfRange (c.nodes n).r (.createSnapshot index data)
  | .run _ _ (some _) | .crash _ => True

/-- The node has just been opened. -/
structure ElectionState.Fresh (cfg : Config) (s : ElectionState) : Prop where
  role_eq : s.role = .follower
  preVotes_eq : s.preVotes = ∅
  tick_eq : s.electionTick = cfg.electionTick
  elapsed_eq : s.elapsed = 0
  le_timeout : cfg.electionTick ≤ s.timeout

/-- What a step does to its node: a call, whose messages may be sent, or a restart. -/
inductive Cluster.Reacts (mb : Members) (c : Cluster) (a : Action) (c' : Cluster) : Prop
  | called {op : Op} {r : Raft}
      (act : a = .run a.node op none ∨
        ∃ index data, a = .compact a.node index data ∧ op = .createSnapshot index data)
      (sent : c.deliverable op) (run : op.run (c.nodes a.node).r = some r)
      (self : (c'.nodes a.node).r.election = r.election)
    (net : ∀ x ∈ c'.net, x ∈ c.net ∨ x ∈ r.msgs)
  | restarted (kills : a.Kills c) (fresh : (c'.nodes a.node).r.election.Fresh (mb.config a.node))
      (term : (c'.nodes a.node).r.currentTerm = (c.nodes a.node).r.currentTerm ∨
        ∃ op cut r, a = .run a.node op cut ∧ c.deliverable op ∧ op.run (c.nodes a.node).r = some r ∧
          (c'.nodes a.node).r.currentTerm = r.currentTerm)
      (net : c'.net = c.net)

variable {mb : Members} {c c' : Cluster} {a : Action} {n : ℕ}

theorem Raft.start_fresh (cfg : Config) : (Raft.start cfg).election.Fresh cfg :=
  ⟨rfl, rfl, rfl, rfl, Nat.le_add_right _ _⟩

theorem openNode_election {cfg : Config} {d : List Record} {nd : Node} {snap : Option Snapshot}
    (h : openNode cfg d = .ok (some (nd, snap))) : nd.r.election.Fresh cfg := by
  obtain ⟨r, hr, hcases⟩ := openNode_cases h
  obtain ⟨log, first, u, rfl, -⟩ := Raft.restoreState_eq hr
  obtain ⟨hrole, hvotes, htick, helapsed, htimeout⟩ := Raft.start_fresh cfg
  rcases hcases with ⟨-, rfl, -⟩ | ⟨-, -, rfl⟩
  · exact ⟨hrole, hvotes, htick, helapsed, htimeout⟩
  · exact ⟨hrole, hvotes, htick, helapsed, htimeout⟩

namespace Sim

variable {S : Prop} {A : Abs}

theorem restart_reacts {d : List Record} (hkills : a.Kills c)
    (hstep : c.restart mb a.node d = some c')
    (hterm : (c'.nodes a.node).r.currentTerm = (c.nodes a.node).r.currentTerm ∨
      ∃ op cut r, a = .run a.node op cut ∧ c.deliverable op ∧ op.run (c.nodes a.node).r = some r ∧
        (c'.nodes a.node).r.currentTerm = r.currentTerm) : c.Reacts mb a c' := by
  obtain ⟨nd, snap, hopen, rfl⟩ := Cluster.restart_cases hstep
  refine .restarted hkills ?_ hterm rfl
  show (Function.update c.nodes a.node nd a.node).r.election.Fresh _
  rw [Function.update_self]
  exact openNode_election hopen

/-- A node that is opened on what it had stored has its old term. -/
theorem restart_self_reacts (h : Sim S mb c A) (hn : a.node ∈ mb.ids) (hkills : a.Kills c)
    (hstep : c.restart mb a.node (c.nodes a.node).storage = some c') : c.Reacts mb a c' := by
  have h' := h.restart hn h.good (Moves.refl [] A) (h.node _ hn).durable hstep
  exact restart_reacts hkills hstep (Or.inl
    ((h'.node _ hn).live.mirrors.term_eq.symm.trans (h.node _ hn).live.mirrors.term_eq))

/-- A node whose `Persist` was cut short has its old term, or the one of the call. -/
theorem restart_cut_term (h : Sim S mb c A) (hn : n ∈ mb.ids) {r : Raft} {k : ℕ}
    {new : List LogEntry} (hcall : Called S mb A n new (c.nodes n).r r)
    (hstep : c.finish mb n r (some k) = some c') : ∃ d, c.restart mb n d = some c' ∧
    ((c'.nodes n).r.currentTerm = (c.nodes n).r.currentTerm ∨
      (c'.nodes n).r.currentTerm = r.currentTerm) := by
  obtain ⟨A', -, -, hu, -⟩ := hcall.unsaved (h.node n hn)
  obtain ⟨d, hcut, hd⟩ := hu.persistCut k
  have hstep' : c.restart mb n d = some c' := by
    simpa only [Cluster.finish, hcut] using hstep
  refine ⟨d, hstep', ?_⟩
  obtain ⟨nd, snap, hopen, rfl⟩ := Cluster.restart_cases hstep'
  have hnode : (c.setNode n nd).nodes n = nd := by
    show Function.update c.nodes n nd n = nd
    rw [Function.update_self]
  have hterm : ∀ {hs l b}, Holds d hs l b → nd.r.currentTerm = hs.term := fun hholds => by
    obtain ⟨nd', snap', hopen', -, hr⟩ := hholds.openNode (mb.valid n hn)
    rw [hopen] at hopen'
    cases hopen'
    exact hr.term_eq
  rw [hnode]
  rcases hd with hd | ⟨-, hd⟩ | hd | ⟨-, -, j, -, -, hd⟩
  · exact Or.inl (hterm hd)
  · exact Or.inr (hterm hd)
  · exact Or.inr (hterm hd)
  · exact Or.inr (hterm hd)

/-- **What a step does to its node.** -/
theorem reacts (h : Sim False mb c A) (hstep : c.step mb a = some c') : c.Reacts mb a c' := by
  have hn := Cluster.step_mem hstep
  cases a with
  | run n op cut =>
    rw [Cluster.step] at hstep
    split_ifs at hstep with hcond
    cases hrun : op.run (c.nodes n).r with
    | none =>
      rw [hrun] at hstep
      have hkills : (Action.run n op cut).Kills c := by
        cases cut with
        | none => exact (h.run_none_iff hcond.1 hcond.2).mp hrun
        | some k => trivial
      exact h.restart_self_reacts (a := .run n op cut) hn hkills hstep
    | some r =>
      simp only [hrun] at hstep
      have hcall := h.called hcond.1 hcond.2 False.elim hrun
      cases cut with
      | none =>
        obtain ⟨A', d', rd, nd', hp, hnd, hm, -⟩ := hcall.persist (h.node n hcond.1)
        simp only [Cluster.finish, hp] at hstep
        obtain rfl := Option.some.inj hstep
        refine .called (Or.inl rfl) hcond.2 hrun ?_ fun x hx => ?_
        · show (Function.update c.nodes n nd' n).r.election = _
          rw [Function.update_self, hnd]
          rfl
        · rw [hm] at hx
          exact List.mem_append.mp hx
      | some k =>
        obtain ⟨d, hstep', hterm⟩ := h.restart_cut_term hcond.1 hcall hstep
        exact restart_reacts (a := .run n op (some k)) trivial hstep'
          (hterm.imp_right fun ht => ⟨op, some k, r, rfl, hcond.2, hrun, ht⟩)
  | compact n index data =>
    rw [Cluster.step] at hstep
    split_ifs at hstep with hmem
    cases hrun : (c.nodes n).r.createSnapshot index data with
    | none =>
      rw [hrun] at hstep
      have hnone : Op.run (c.nodes n).r (.createSnapshot index data) = none := by
        simp only [Op.run, hrun, Option.map_none]
      have hdel : c.deliverable (.createSnapshot index data) := trivial
      have hkills : (Action.compact n index data).Kills c := (h.run_none_iff hmem hdel).mp hnone
      exact h.restart_self_reacts (a := .compact n index data) hn hkills hstep
    | some res =>
      obtain ⟨r, err⟩ := res
      simp only [hrun] at hstep
      obtain rfl := Option.some.inj hstep
      have hsome : Op.run (c.nodes n).r (.createSnapshot index data) = some r := by
        simp only [Op.run, hrun, Option.map_some]
      refine .called (Or.inr ⟨index, data, rfl, rfl⟩) trivial hsome ?_ fun x hx => Or.inl hx
      show (Function.update c.nodes n _ n).r.election = _
      rw [Function.update_self]
  | crash n =>
    rw [Cluster.step] at hstep
    split_ifs at hstep
    exact h.restart_self_reacts (a := .crash n) hn trivial hstep

end Sim

/-- A step is about one node. -/
theorem Cluster.step_of_ne (h : c.step mb a = some c') {p : ℕ} (hp : p ≠ a.node) :
    c'.nodes p = c.nodes p := by
  cases Cluster.step_cases h with
  | ran => exact Function.update_of_ne hp _ _
  | compacted => exact Function.update_of_ne hp _ _
  | restarted => exact Function.update_of_ne hp _ _

end KvStore
