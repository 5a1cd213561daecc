import KvStore.Raft.LogAccess
import Mathlib

/-!
# The steps of an election

What an election is about, without the log and the timers: `Stance`. On a node that has a log, the
calls of an election do to its stance, and send, what the lemmas of this module say.

* `Stance.Grants`: whether a pre-vote is granted. It is, unless the request is two terms behind, or
  the vote of the term it asks for is taken, or its log is behind; that the node hears from a leader
  makes no difference.
* `Spans.tick_of_follower`, `Spans.handlePreVote`, `Spans.handlePreVoteResponse`: the rounds of
  pre-votes.
* `Spans.handleRequestVote_old`, `_same`, `_new`, `Spans.handleRequestVoteResponse`: the rounds of
  votes.
-/

namespace KvStore

open Consensus Machine

/-- What elections look at. -/
structure Stance where
  term : ℕ
  vote : ℕ
  role : Role
  /-- The term and the index of the last entry, in the order of up-to-dateness. -/
  logEnd : ℕ ×ₗ ℕ
  votes : Finset ℕ
  preVotes : Finset ℕ

/-- The end of the log that a vote request speaks of. -/
def Message.logEnd (m : Message) : ℕ ×ₗ ℕ := toLex (m.lastLogTerm, m.lastLogIndex)

namespace Stance

/-- The pre-vote that the message asks for is granted. -/
def Grants (s : Stance) (m : Message) : Prop :=
  s.term ≤ m.term + 1 ∧ (s.vote = 0 ∨ s.vote = m.fromId ∨ s.term < m.term + 1) ∧ s.logEnd ≤ m.logEnd

instance (s : Stance) (m : Message) : Decidable (s.Grants m) :=
  inferInstanceAs (Decidable (_ ∧ _ ∧ _))

/-- A vote request. -/
def request (s : Stance) (type : MessageType) (src dst : ℕ) : Message where
  type := type
  fromId := src
  toId := dst
  term := s.term
  lastLogIndex := (ofLex s.logEnd).2
  lastLogTerm := (ofLex s.logEnd).1

/-- The node with the given id asks for pre-votes. -/
def preCandidate (s : Stance) (id : ℕ) : Stance :=
  { s with role := .preCandidate, preVotes := {id} }

/-- The node with the given id asks for votes, in the next term. -/
def candidate (s : Stance) (id : ℕ) : Stance :=
  { s with term := s.term + 1, vote := id, role := .candidate, votes := {id} }

/-- The node follows, in a higher term. -/
def follower (s : Stance) (term vote : ℕ) : Stance :=
  { s with term := term, vote := vote, role := .follower }

end Stance

namespace Raft

/-- The term and the index of the last entry. -/
def logEnd (r : Raft) : ℕ ×ₗ ℕ := toLex (r.lastLogTerm.getD 0, r.lastLogIndex.getD 0)

/-- What an election sees of a node. -/
def stance (r : Raft) : Stance :=
  ⟨r.currentTerm, r.votedFor, r.role, r.logEnd, r.votesReceived, r.preVotesReceived⟩

/-- The ticks since the last reset, and the ticks that make a timeout. -/
def timer (r : Raft) : ℕ × ℕ := (r.electionElapsed, r.randomizedElectionTimeout)

/-- The answer to a request for a pre-vote. -/
def preVoteAnswer (r : Raft) (m : Message) : Message where
  type := .preVoteResponse
  fromId := r.id
  toId := m.fromId
  term := r.currentTerm
  voteGranted := decide (r.stance.Grants m)

/-- The answer to a request for a vote. -/
def voteAnswer (r : Raft) (m : Message) (term : ℕ) (granted : Bool) : Message where
  type := .requestVoteResponse
  fromId := r.id
  toId := m.fromId
  term := term
  voteGranted := granted

theorem step_preVote {r : Raft} {m : Message} (hto : m.toId = r.id) (hty : m.type = .preVote) :
    r.step m = r.handlePreVote m := by
  simp [step, hto, hty]

theorem step_preVoteResponse {r : Raft} {m : Message} (hto : m.toId = r.id)
    (hty : m.type = .preVoteResponse) : r.step m = r.handlePreVoteResponse m := by
  simp [step, hto, hty]

theorem step_requestVote {r : Raft} {m : Message} (hto : m.toId = r.id)
    (hty : m.type = .requestVote) : r.step m = r.handleRequestVote m := by
  simp [step, hto, hty]

theorem step_requestVoteResponse {r : Raft} {m : Message} (hto : m.toId = r.id)
    (hty : m.type = .requestVoteResponse) : r.step m = r.handleRequestVoteResponse m := by
  simp [step, hto, hty]

theorem step_appendEntries {r : Raft} {m : Message} (hto : m.toId = r.id)
    (hty : m.type = .appendEntries) : r.step m = r.handleAppendEntries m := by
  simp [step, hto, hty]

end Raft

namespace Spans

variable {r r' : Raft} {l : List LogEntry} {b : ℕ} {m : Message}

theorem logOK (h : Spans r l b) (m : Message) :
    r.logOK m = some (decide (r.logEnd ≤ m.logEnd)) := by
  have hiff : r.logEnd ≤ m.logEnd ↔ Consensus.lastTerm LogEntry.term l < m.lastLogTerm ∨
      m.lastLogTerm = Consensus.lastTerm LogEntry.term l ∧ l.length ≤ m.lastLogIndex := by
    rw [Raft.logEnd, Message.logEnd, h.lastLogTerm, h.lastLogIndex, Prod.Lex.toLex_le_toLex]
    simp only [Option.getD_some, eq_comm]
  simp only [Raft.logOK, h.lastLogTerm, h.lastLogIndex, Option.bind_eq_bind, Option.bind_some,
    pure, hiff]

theorem sendVoteRequest (h : Spans r l b) (type : MessageType) (p : ℕ) :
    r.sendVoteRequest type p =
      some { r with msgs := r.msgs ++ [r.stance.request type r.id p] } := by
  simp only [Raft.sendVoteRequest, Raft.send, Stance.request, Raft.stance, Raft.logEnd,
    h.lastLogTerm, h.lastLogIndex, Option.bind_eq_bind, Option.bind_some, pure, Option.getD_some,
      ofLex_toLex]

/-- A request to every peer. -/
theorem sendVoteRequests (h : Spans r l b) (type : MessageType) (ps : List ℕ) :
    ps.foldlM (fun r p => r.sendVoteRequest type p) r =
      some { r with msgs := r.msgs ++ ps.map (r.stance.request type r.id) } := by
  induction ps generalizing r with
  | nil => simp
  | cons p ps ih =>
    have h' : Spans { r with msgs := r.msgs ++ [r.stance.request type r.id p] } l b :=
      h.of_log_eq rfl
    rw [List.foldlM_cons, h.sendVoteRequest]
    refine (ih h').trans ?_
    rw [List.append_assoc]
    rfl

/-! ## Pre-votes -/

theorem becomePreCandidate (h : Spans r l b) (hp : r.peers ≠ []) :
    ∃ r', r.becomePreCandidate = some r' ∧ r'.stance = r.stance.preCandidate r.id ∧
    r'.msgs = r.msgs ++ r.peers.map (r.stance.request .preVote r.id) := by
  unfold Raft.becomePreCandidate
  dsimp only
  split_ifs with hnil
  · exact absurd hnil hp
  · refine ⟨_, sendVoteRequests (l := l) (b := b) ?_ _ _, rfl, rfl⟩
    exact h.of_log_eq rfl

/-- A tick of a node that does not lead: one tick more, or the start of a round of pre-votes. -/
theorem tick_of_follower (h : Spans r l b) (hp : r.peers ≠ []) (hr : r.role ≠ .leader) :
    ∃ r', r.tick = some r' ∧
      (r.electionElapsed + 1 < r.randomizedElectionTimeout ∧ r'.stance = r.stance ∧
          r'.msgs = r.msgs ∧ r'.timer = (r.electionElapsed + 1, r.randomizedElectionTimeout) ∨
        r.randomizedElectionTimeout ≤ r.electionElapsed + 1 ∧
          r'.stance = r.stance.preCandidate r.id ∧
            r'.msgs = r.msgs ++ r.peers.map (r.stance.request .preVote r.id)) := by
  unfold Raft.tick
  dsimp only
  rw [if_neg hr]
  split_ifs with ht
  · obtain ⟨r', hrun, hst, hm⟩ := becomePreCandidate
      (r := { r with electionElapsed := r.electionElapsed + 1 }) (h.of_log_eq rfl) hp
    exact ⟨r', hrun, Or.inr ⟨ht, hst, hm⟩⟩
  · exact ⟨_, rfl, Or.inl ⟨not_le.mp ht, rfl, rfl, rfl⟩⟩

theorem becomeCandidate_alone (h : Spans r l b) (hp : r.peers = []) :
    ∃ r', r.becomeCandidate = some r' ∧ r'.role = .leader := by
  unfold Raft.becomeCandidate
  dsimp only
  split_ifs with hnil
  · have h₁ : Spans r.campaigning l b := h.of_log_eq rfl
    obtain ⟨r', hrun⟩ := becomeLeader_some h₁
    exact ⟨r', hrun, Raft.becomeLeader_role hrun⟩
  · exact absurd hp hnil

/-- A node without peers that times out leads. -/
theorem tick_alone (h : Spans r l b) (hp : r.peers = []) (hr : r.role ≠ .leader) :
    ∃ r', r.tick = some r' ∧
      (r.electionElapsed + 1 < r.randomizedElectionTimeout ∧ r'.stance = r.stance ∧
          r'.timer = (r.electionElapsed + 1, r.randomizedElectionTimeout) ∨ r'.role = .leader) := by
  unfold Raft.tick Raft.becomePreCandidate
  dsimp only
  rw [if_neg hr]
  split_ifs with ht hnil
  · have h₁ : Spans (Raft.polling { r with electionElapsed := r.electionElapsed + 1 }) l b :=
      h.of_log_eq rfl
    obtain ⟨r', hrun, hl⟩ := h₁.becomeCandidate_alone hp
    exact ⟨r', hrun, Or.inr hl⟩
  · exact absurd hp hnil
  · exact ⟨_, rfl, Or.inl ⟨not_le.mp ht, rfl, rfl⟩⟩

theorem handlePreVote (h : Spans r l b) (m : Message) :
    r.handlePreVote m = some { r with msgs := r.msgs ++ [r.preVoteAnswer m] } := by
  unfold Raft.handlePreVote
  dsimp only
  split_ifs with hlt
  · have hno : ¬r.stance.Grants m := fun hg => absurd hg.1 (not_le.mpr hlt)
    simp only [Raft.send, Raft.preVoteAnswer, hno, decide_false]
  · have hg : r.stance.Grants m ↔
        (r.votedFor = 0 ∨ r.votedFor = m.fromId ∨ r.currentTerm < m.term + 1) ∧
          r.logEnd ≤ m.logEnd := by
      rw [Stance.Grants]
      exact and_iff_right (not_lt.mp hlt)
    rw [h.logOK]
    simp only [Option.bind_eq_bind, Option.bind_some, pure, Raft.send, Raft.preVoteAnswer, hg,
      decide_eq_true_eq]

theorem becomeCandidate (h : Spans r l b) (hp : r.peers ≠ []) : ∃ r', r.becomeCandidate = some r' ∧
    r'.stance = r.stance.candidate r.id ∧
    r'.msgs = r.msgs ++ r.peers.map ((r.stance.candidate r.id).request .requestVote r.id) := by
  unfold Raft.becomeCandidate
  dsimp only
  split_ifs with hnil
  · exact absurd hnil hp
  · refine ⟨_, sendVoteRequests (l := l) (b := b) ?_ _ _, rfl, rfl⟩
    exact h.of_log_eq rfl

theorem handlePreVoteResponse_ignored (h : r.role = .preCandidate → m.voteGranted = false) :
    r.handlePreVoteResponse m = some r := by
  unfold Raft.handlePreVoteResponse
  by_cases hr : r.role = .preCandidate
  · rw [if_neg (not_not.mpr hr), if_pos (by rw [h hr]; rfl)]
  · rw [if_pos hr]

/-- A granted pre-vote is counted; a majority of them makes a candidate. -/
theorem handlePreVoteResponse (h : Spans r l b) (hp : r.peers ≠ []) (hr : r.role = .preCandidate)
    (hg : m.voteGranted = true) : ∃ r', r.handlePreVoteResponse m = some r' ∧
      if r.hasMajorityCount (insert m.fromId r.preVotesReceived).card then
        r'.stance =
            { r.stance with preVotes := insert m.fromId r.preVotesReceived }.candidate r.id ∧
          r'.msgs = r.msgs ++ r.peers.map ((r.stance.candidate r.id).request .requestVote r.id)
      else r'.stance = { r.stance with preVotes := insert m.fromId r.preVotesReceived } ∧
        r'.msgs = r.msgs := by
  unfold Raft.handlePreVoteResponse
  dsimp only
  rw [if_neg (not_not.mpr hr), if_neg (by rw [hg]; decide)]
  have hmaj :
      Raft.hasMajorityCount { r with preVotesReceived := insert m.fromId r.preVotesReceived } =
      r.hasMajorityCount := rfl
  rw [hmaj]
  split_ifs with hc
  · exact becomeCandidate (r := { r with preVotesReceived := insert m.fromId r.preVotesReceived })
      (h.of_log_eq rfl) hp
  · exact ⟨_, rfl, rfl, rfl⟩

/-! ## Votes -/

/-- A request of a lower term is turned down, with the higher term. -/
theorem handleRequestVote_old (hlt : m.term < r.currentTerm) :
    r.handleRequestVote m =
      some { r with msgs := r.msgs ++ [r.voteAnswer m r.currentTerm false] } := by
  unfold Raft.handleRequestVote
  dsimp only
  rw [if_neg (Nat.lt_asymm hlt), if_pos hlt]
  rfl

/-- A request of the node's own term leaves term and log alone. -/
theorem handleRequestVote_same (h : Spans r l b) (heq : m.term = r.currentTerm) :
    ∃ r', r.handleRequestVote m = some r' ∧ r'.currentTerm = r.currentTerm ∧ r'.role = r.role ∧
      r'.logEnd = r.logEnd := by
  unfold Raft.handleRequestVote
  dsimp only
  rw [if_neg heq.not_gt, if_neg heq.not_lt, h.logOK]
  simp only [Option.bind_eq_bind, Option.bind_some, pure]
  refine ⟨_, rfl, ?_⟩
  split_ifs <;> exact ⟨rfl, rfl, rfl⟩

theorem becomeFollower_new {t : ℕ} (hlt : r.currentTerm < t) :
    (r.becomeFollower t).stance = r.stance.follower t 0 ∧ (r.becomeFollower t).msgs = r.msgs ∧
      (r.becomeFollower t).id = r.id := by
  rw [Raft.becomeFollower, if_pos hlt]
  exact ⟨rfl, rfl, rfl⟩

/-- A request of a higher term gets the vote, if its log is not behind. -/
theorem handleRequestVote_new (h : Spans r l b) (hlt : r.currentTerm < m.term) :
    ∃ r', r.handleRequestVote m = some r' ∧
      r'.stance = r.stance.follower m.term (if r.logEnd ≤ m.logEnd then m.fromId else 0) ∧
      r'.msgs = r.msgs ++ [r.voteAnswer m m.term (decide (r.logEnd ≤ m.logEnd))] := by
  have h₁ := h.becomeFollower m.term
  obtain ⟨hst, hmsgs, hid⟩ := becomeFollower_new hlt
  unfold Raft.handleRequestVote
  dsimp only
  rw [if_pos hlt]
  generalize r.becomeFollower m.term = r₁ at h₁ hst hmsgs hid
  have hterm : r₁.currentTerm = m.term := congrArg Stance.term hst
  have hvote : r₁.votedFor = 0 := congrArg Stance.vote hst
  have hend : r₁.logEnd = r.logEnd := congrArg Stance.logEnd hst
  have hans : ∀ g, r.voteAnswer m m.term g = r₁.voteAnswer m r₁.currentTerm g := fun g => by
    rw [Raft.voteAnswer, Raft.voteAnswer, hterm, hid]
  rw [if_neg (by rw [hterm]; exact lt_irrefl _), h₁.logOK, hend, hans, ← hmsgs]
  simp only [Option.bind_eq_bind, Option.bind_some, pure, hvote, true_or, true_and,
    decide_eq_true_eq]
  refine ⟨_, rfl, ?_⟩
  by_cases hok : r.logEnd ≤ m.logEnd
  · rw [if_pos hok, if_pos hok]
    refine ⟨?_, by rw [decide_eq_true hok]; rfl⟩
    show { r₁.stance with vote := m.fromId } = _
    rw [hst]
    rfl
  · rw [if_neg hok, if_neg hok]
    exact ⟨hst, by rw [decide_eq_false hok]; rfl⟩

/-- An answer of a higher term ends the candidacy. -/
theorem handleRequestVoteResponse_new (hlt : r.currentTerm < m.term) :
    ∃ r', r.handleRequestVoteResponse m = some r' ∧ r'.stance = r.stance.follower m.term 0 ∧
      r'.msgs = r.msgs :=
  ⟨_, if_pos hlt, (becomeFollower_new hlt).1, (becomeFollower_new hlt).2.1⟩

/-- A vote is counted; a majority of them makes a leader. -/
theorem handleRequestVoteResponse (h : Spans r l b) (heq : m.term = r.currentTerm)
    (hr : r.role = .candidate) (hg : m.voteGranted = true) :
    ∃ r', r.handleRequestVoteResponse m = some r' ∧
      if r.hasMajorityCount (insert m.fromId r.votesReceived).card then r'.role = .leader
      else r'.stance = { r.stance with votes := insert m.fromId r.votesReceived } ∧
        r'.msgs = r.msgs := by
  unfold Raft.handleRequestVoteResponse
  dsimp only
  rw [if_neg heq.not_gt, if_neg (by simp [heq, hr]), if_neg (by rw [hg]; decide)]
  have hmaj : Raft.hasMajorityCount { r with votesReceived := insert m.fromId r.votesReceived } =
      r.hasMajorityCount := rfl
  rw [hmaj]
  split_ifs with hc
  · obtain ⟨r', hrun⟩ :=
      becomeLeader_some (r := { r with votesReceived := insert m.fromId r.votesReceived })
      (h.of_log_eq rfl)
    exact ⟨r', hrun, Raft.becomeLeader_role hrun⟩
  · exact ⟨_, rfl, rfl, rfl⟩

end Spans

end KvStore
