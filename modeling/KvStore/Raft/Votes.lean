import KvStore.Raft.Moves

/-!
# Votes, simulated

The four handlers of an election. None of them changes the log, so all of them are `Quiet`:

* `Live.granted`: a granted vote is the abstract `grant`, and the voter's log is no more up to date
  than the candidate's;
* `Live.handleRequestVoteResponse`: a vote that arrives is one the sender cast in this term.
-/

namespace KvStore

open Consensus

variable {S : Prop} {mb : Members} {A A' : Abs} {n : ℕ} {r r' : Raft} {m : Message}

namespace Live

/-! ## Replies without content -/

/-- A message that claims nothing: a refusal, or a pre-vote reply. -/
def Plain (m : Message) : Prop :=
  m.type = .preVoteResponse ∨ (m.type = .requestVoteResponse ∧ m.voteGranted = false) ∨
    (m.type = .appendEntriesResponse ∧ m.success = false)

theorem sendPlain (h : Live S mb A n r.view) (hne : r.id ≠ m.toId) (hm : Plain m) :
    Live S mb A n (r.send m).view := by
  refine h.send ?_ fun _ => ?_
  · exact
      { src := h.id_mem
        ne := hne
        vote := fun ht => by rcases hm with hm | ⟨hm, hb⟩ | ⟨hm, hb⟩ <;> simp_all
        granted := fun ht hv => by rcases hm with hm | ⟨hm, hb⟩ | ⟨hm, hb⟩ <;> simp_all
        append := fun ht => by rcases hm with hm | ⟨hm, hb⟩ | ⟨hm, hb⟩ <;> simp_all
        snap := fun ht => by rcases hm with hm | ⟨hm, hb⟩ | ⟨hm, hb⟩ <;> simp_all }
  · exact
      { append := fun ht => by rcases hm with hm | ⟨hm, hb⟩ | ⟨hm, hb⟩ <;> simp_all
        reply := fun ht hs => by rcases hm with hm | ⟨hm, hb⟩ | ⟨hm, hb⟩ <;> simp_all
        snap := fun ht => by rcases hm with hm | ⟨hm, hb⟩ | ⟨hm, hb⟩ <;> simp_all
        snapReply := fun ht => by rcases hm with hm | ⟨hm, hb⟩ | ⟨hm, hb⟩ <;> simp_all }

/-- A message from somebody else is answered to somebody else. -/
theorem ne_from (hm : MsgOk mb A m) (hto : m.toId = r.id) : r.id ≠ m.fromId :=
  fun heq => hm.ne (by rw [hto, heq])

/-! ## Votes -/

theorem handlePreVote (h : Live S mb A n r.view) (hm : MsgOk mb A m) (hto : m.toId = r.id)
    (hrun : r.handlePreVote m = some r') : Quiet S mb A n r r' := by
  have hne := ne_from hm hto
  unfold Raft.handlePreVote at hrun
  dsimp only at hrun
  split_ifs at hrun with hlt
  · obtain rfl := Option.some.inj hrun
    exact (h.sendPlain hne (Or.inl rfl)).quiet rfl
  · obtain ⟨ok, -, hrun⟩ := Option.bind_eq_some_iff.mp hrun
    obtain rfl := Option.some.inj hrun
    exact (h.sendPlain hne (Or.inl rfl)).quiet rfl

theorem handlePreVoteResponse (h : Live S mb A n r.view)
    (hrun : r.handlePreVoteResponse m = some r') : Quiet S mb A n r r' := by
  unfold Raft.handlePreVoteResponse at hrun
  dsimp only at hrun
  split_ifs at hrun with h1 h2 h3
  · obtain rfl := Option.some.inj hrun
    exact h.quiet rfl
  · obtain rfl := Option.some.inj hrun
    exact h.quiet rfl
  · have h' : Live S mb A n
        { r with preVotesReceived := insert m.fromId r.preVotesReceived }.view := h
    obtain ⟨r₁, hrun₁, A₁, hlive, hmoves, hlog, hd⟩ := h'.becomeCandidate
    rw [hrun₁] at hrun
    obtain rfl := Option.some.inj hrun
    exact ⟨A₁, hlive, hmoves, hlog, hd⟩
  · obtain rfl := Option.some.inj hrun
    exact h.quiet rfl

/-- The voter's own log is no more up to date than the candidate's. -/
theorem upToDate_of_logOK (h : Live S mb A n r.view) {c : List LogEntry}
    (hlen : m.lastLogIndex = c.length) (hterm : m.lastLogTerm = lastTerm LogEntry.term c)
    (hok : r.logOK m = some true) : UpToDate LogEntry.term (A.log n) c := by
  simp only [Raft.logOK, h.spans.lastLogTerm, h.spans.lastLogIndex, Option.bind_eq_bind,
    Option.bind_some, pure, Option.some.injEq, decide_eq_true_eq, hlen, hterm] at hok
  rcases hok with hlt | ⟨heq, hle⟩
  · exact Or.inl hlt
  · exact Or.inr ⟨heq.symm, hle⟩

/-- **A granted vote is `grant`.** -/
theorem granted (h : Live S mb A n r.view) (hm : MsgOk mb A m) (hto : m.toId = r.id)
    (hty : m.type = .requestVote) (hterm : m.term = r.currentTerm)
    (hcan : r.votedFor = 0 ∨ r.votedFor = m.fromId) (hok : r.logOK m = some true) :
    Quiet S mb A n r ({ r with votedFor := m.fromId }.resetElectionTimeout.send
      { type := .requestVoteResponse, toId := m.fromId, voteGranted := true }) := by
  obtain ⟨hself, hlen, hlast⟩ := hm.vote hty
  have hid : r.id = n := h.mirrors.id_eq
  have hAterm : A.term n = r.currentTerm := h.mirrors.term_eq
  have hne0 : m.fromId ≠ 0 := mb.ne_zero hm.src
  have hvote : A.vote n r.currentTerm = none ∨ A.vote n r.currentTerm = some m.fromId := by
    have hv : A.vote n r.currentTerm = if r.votedFor = 0 then none else some r.votedFor :=
      h.mirrors.vote_eq
    rcases hcan with h0 | hf
    · rw [if_pos h0] at hv
      exact Or.inl hv
    · rw [if_neg (by rw [hf]; exact hne0), hf] at hv
      exact Or.inr hv
  rw [hterm] at hself hlen hlast
  have hup := h.upToDate_of_logOK hlen hlast hok
  have hext := ext_grant (τ := LogEntry.term) hvote
  have hgood : Good S mb (A.grant n m.fromId r.currentTerm) :=
    ⟨wf_grant h.good.wf hAterm hself hvote, h.good.indexed,
      fun hS => safe_grant h.good.wf (h.good.safe hS) hself hvote hup⟩
  have hnew : (A.grant n m.fromId r.currentTerm).vote n r.currentTerm = some m.fromId :=
    grant_vote_self
  have hlive : Live S mb (A.grant n m.fromId r.currentTerm) n
      { r with votedFor := m.fromId }.resetElectionTimeout.view :=
    { good := hgood
      mirrors :=
        { __ := h.mirrors
          vote_eq := by
            show (A.grant n m.fromId r.currentTerm).vote n r.currentTerm =
              if m.fromId = 0 then none else some m.fromId
            rw [hnew, if_neg hne0]
          candidate := fun hr => by
            obtain ⟨h1, h2, h3, h4⟩ := h.mirrors.candidate hr
            exact ⟨hext.vote_keep _ _ _ h1, h2, h3,
              fun q hq => ⟨(h4 q hq).1, hext.vote_keep _ _ _ (h4 q hq).2⟩⟩ }
      msgs := fun x hx => (h.msgs x hx).mono hext.toGrows
      secure := fun hS =>
        { commit := (h.secure hS).commit.grows hext.toGrows
          snap_le_commit := (h.secure hS).snap_le_commit
          leads := fun hr =>
            { __ := (h.secure hS).leads hr
              acked := fun p hp => (((h.secure hS).leads hr).acked p hp).mono hext.toGrows } }
      msgsSafe := fun hS x hx => (h.msgsSafe hS x hx).mono hext.toGrows }
  refine ⟨_, hlive.send ?_ fun _ => ?_, .of_hist_eq hext rfl, rfl, rfl⟩
  · exact
      { src := h.id_mem
        ne := ne_from hm hto
        vote := fun ht => by cases ht
        granted := fun _ _ => by
          show (A.grant n m.fromId r.currentTerm).vote r.id r.currentTerm = some m.fromId
          rw [hid]
          exact hnew
        append := fun ht => by cases ht
        snap := fun ht => by cases ht }
  · exact
      { append := fun ht => by cases ht
        reply := fun ht => by cases ht
        snap := fun ht => by cases ht
        snapReply := fun ht => by cases ht }

theorem becomeFollower_id (t : ℕ) : (r.becomeFollower t).id = r.id := by
  unfold Raft.becomeFollower Raft.resetElectionTimeout
  dsimp only
  split_ifs <;> rfl

theorem handleRequestVote (h : Live S mb A n r.view) (hm : MsgOk mb A m) (hto : m.toId = r.id)
    (hty : m.type = .requestVote) (hrun : r.handleRequestVote m = some r') :
    Quiet S mb A n r r' := by
  set r₁ := if r.currentTerm < m.term then r.becomeFollower m.term else r with hr₁
  have hid₁ : r₁.id = r.id := by
    rw [hr₁]
    split_ifs
    · exact becomeFollower_id _
    · rfl
  have hquiet : Quiet S mb A n r r₁ := by
    rw [hr₁]
    split_ifs
    · exact h.becomeFollower _
    · exact h.quiet rfl
  have hterm₁ : m.term ≤ r₁.currentTerm := by
    rw [hr₁]
    split_ifs with hlt
    · rw [Raft.becomeFollower_term hlt.le]
    · omega
  have hto₁ : m.toId = r₁.id := by rw [hto, hid₁]
  refine hquiet.bind fun A₁ hlive hmoves => ?_
  have hm₁ := hm.mono hmoves.toGrows
  have hne := ne_from hm₁ hto₁
  unfold Raft.handleRequestVote at hrun
  rw [← hr₁] at hrun
  dsimp only at hrun
  split_ifs at hrun with hlt
  · obtain rfl := Option.some.inj hrun
    exact (hlive.sendPlain hne (Or.inr (Or.inl ⟨rfl, rfl⟩))).quiet rfl
  · obtain ⟨ok, hok, hrun⟩ := Option.bind_eq_some_iff.mp hrun
    obtain rfl := Option.some.inj hrun
    by_cases hgr : (r₁.votedFor = 0 ∨ r₁.votedFor = m.fromId) ∧ ok = true
    · obtain ⟨hcan, rfl⟩ := hgr
      have := hlive.granted hm₁ hto₁ hty (by omega) hcan hok
      simpa [hcan] using this
    · have := hlive.sendPlain (m := { type := .requestVoteResponse, toId := m.fromId,
                                      voteGranted := false }) hne (Or.inr (Or.inl ⟨rfl, rfl⟩))
      simp only [hgr, decide_false, Bool.false_eq_true, if_false]
      exact this.quiet rfl

theorem handleRequestVoteResponse (h : Live S mb A n r.view) (hm : MsgOk mb A m)
    (hto : m.toId = r.id) (hty : m.type = .requestVoteResponse)
    (hrun : r.handleRequestVoteResponse m = some r') : Quiet S mb A n r r' := by
  unfold Raft.handleRequestVoteResponse at hrun
  dsimp only at hrun
  split_ifs at hrun with h1 h2 h3 h4
  · obtain rfl := Option.some.inj hrun
    exact h.becomeFollower _
  · obtain rfl := Option.some.inj hrun
    exact h.quiet rfl
  · obtain rfl := Option.some.inj hrun
    exact h.quiet rfl
  all_goals
    have hterm : m.term = r.currentTerm := by omega
    have hrole : r.role = .candidate := by
      by_contra hne
      exact h2 (Or.inr hne)
    have hgranted : m.voteGranted = true := by simpa using h3
    have hid : r.id = n := h.mirrors.id_eq
    have hvote : A.vote m.fromId r.currentTerm = some n := by
      rw [← hterm, ← hid, ← hto]
      exact hm.granted hty hgranted
    have h' : Live S mb A n { r with votesReceived := insert m.fromId r.votesReceived }.view :=
      { good := h.good
        mirrors :=
          { __ := h.mirrors
            candidate := fun hr => by
              obtain ⟨c1, c2, c3, c4⟩ := h.mirrors.candidate hr
              refine ⟨c1, c2, c3, fun q hq => ?_⟩
              rcases Finset.mem_insert.mp hq with rfl | hq
              · exact ⟨hm.src, hvote⟩
              · exact c4 q hq }
        msgs := h.msgs
        secure := fun hS => { __ := h.secure hS,
                              leads := fun hr => { __ := (h.secure hS).leads hr } }
        msgsSafe := h.msgsSafe }
  · obtain ⟨r₁, hrun₁, hq⟩ := h'.becomeLeader hrole h4
    rw [hrun₁] at hrun
    obtain rfl := Option.some.inj hrun
    exact hq
  · obtain rfl := Option.some.inj hrun
    exact h'.quiet rfl

end Live

end KvStore
