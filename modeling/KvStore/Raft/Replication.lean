import KvStore.Raft.Votes

/-!
# Replication, simulated

The two handlers of a leader's bookkeeping and the handler that takes its entries in.

A call can leave the log alone (`Called.quiet`), move the snapshot boundary (`Called.shifted`), or
change the log (`Called.wrote`). The last is the one that a crash inside `Persist` can tear: it
comes with an abstract state in which the new term and vote are there and the log is still the old
one, and from which any beginning of the new log that keeps what was saved before can be stored.

* `Live.handleAppendEntriesResponse`, `Live.handleInstallSnapshotResponse`: `commit`, if anything;
* `Live.handleAppendEntries`: `store` and `acknowledge`.
-/

namespace KvStore

open Consensus

variable {S : Prop} {mb : Members} {A A' : Abs} {n : ℕ} {r r' : Raft} {m : Message}

/-! ## What a call can do -/

/-- The fields of `Persist`'s bookkeeping no call changes. -/
def Raft.stable (r : Raft) : ℕ × ℕ × ℕ := (r.stableTerm, r.stableVote, r.stableSnapshotIndex)

/-- A call of node `n` that took it from `r` to `r'`, and created the entries `new`. -/
inductive Called (S : Prop) (mb : Members) (A : Abs) (n : ℕ) (new : List LogEntry) (r r' : Raft) :
    Prop
  | quiet (h : Quiet S mb A n r r')
  | shifted (A' : Abs) (live : Live S mb A' n r'.view) (moves : Moves n new A A')
      (stable : r'.stable = r.stable)
      (lt : r.snapshot.lastIncludedIndex < r'.snapshot.lastIncludedIndex)
      (lt_unstable : r'.snapshot.lastIncludedIndex < r'.unstableIndex)
      (unstable_le : r'.unstableIndex ≤ (A'.log n).length + 1)
  | wrote (A₁ A' : Abs) (live : Live S mb A' n r'.view) (good : Good S mb A₁)
      (moves₁ : Moves n new A A₁) (moves : Moves n new A₁ A')
      (log_eq : A₁.log n = A.log n) (term_eq : A₁.term n = r'.currentTerm)
      (vote_eq : A₁.vote n r'.currentTerm = A'.vote n r'.currentTerm)
      (stable : r'.stable = r.stable) (snap_eq : r'.snapshot = r.snapshot)
      (lt_unstable : r.snapshot.lastIncludedIndex < r'.unstableIndex)
      (unstable_le : r'.unstableIndex ≤ (A'.log n).length)
      (take_eq : (A'.log n).take (r'.unstableIndex - 1) = (A.log n).take (r'.unstableIndex - 1))
      (hist : A'.log n <+: A₁.hist r'.currentTerm) (leader : A₁.leader r'.currentTerm ≠ none)
      (keeps : Keeps A₁ n ((A'.log n).take (r'.unstableIndex - 1)))

/-- A call that leaves the log alone, and then another one. -/
theorem Quiet.called {r₁ : Raft} (h : Quiet S mb A n r r₁)
    (h' : ∀ A₁, Live S mb A₁ n r₁.view → Moves n [] A A₁ → A₁.log n = A.log n →
    Called S mb A₁ n [] r₁ r') : Called S mb A n [] r r' := by
  obtain ⟨A₁, hlive, hmoves, hlog, hd⟩ := h
  have hsnap : r₁.snapshot = r.snapshot := congrArg (fun d => d.2.1) hd
  have hstable : r₁.stable = r.stable := congrArg (fun d => d.2.2.2) hd
  cases h' A₁ hlive hmoves hlog with
  | quiet h =>
    obtain ⟨A₂, hlive₂, hmoves₂, hlog₂, hd₂⟩ := h
    exact .quiet ⟨A₂, hlive₂, hmoves.trans hmoves₂, hlog₂.trans hlog, hd₂.trans hd⟩
  | shifted A₂ live moves stable lt lt_unstable unstable_le =>
    exact .shifted A₂ live (hmoves.trans moves) (stable.trans hstable) (hsnap ▸ lt) lt_unstable
      unstable_le
  | wrote A₂ A₃ live good moves₁ moves log_eq term_eq vote_eq stable snap_eq lt_unstable unstable_le
      take_eq hist leader keeps =>
    exact .wrote A₂ A₃ live good (hmoves.trans moves₁) moves (log_eq.trans hlog) term_eq vote_eq
      (stable.trans hstable) (snap_eq.trans hsnap) (hsnap ▸ lt_unstable) unstable_le
        (hlog ▸ take_eq) hist leader
      keeps

namespace Live

/-! ## What a leader is told -/

/-- What a peer acknowledged, the leader has. -/
theorem acked_le (h : Live S mb A n r.view) (hS : S) (hr : r.role = .leader) {p k : ℕ}
    (hack : Acked A r.currentTerm p k) : k ≤ (A.log n).length := by
  have hlead : A.leader r.currentTerm = some n := (h.mirrors.leader hr).1
  have hhist : A.hist r.currentTerm = A.log n := (h.mirrors.leader hr).2
  rw [← hhist]
  rcases hack with hack | ⟨u, hu, hcom⟩
  · exact hack.trans (h.good.wf.ack_le p _)
  · have hb : Backed A u k (A.hist u) := Backed.of_com (h.good.safe hS) hcom
    exact ((hb.mono hu le_rfl List.prefix_rfl).take_hist (h.good.safe hS) (by rw [hlead]; simp)).1

/-- New bookkeeping about one peer. -/
theorem told (h : Live S mb A n r.view) (hr : r.role = .leader) {p k : ℕ}
    (hack : S → Acked A r.currentTerm p k) (mi ni : ℕ → ℕ)
    (hmi : mi = Function.update r.matchIndex p k ∨ mi = r.matchIndex)
    (hni : ni = Function.update r.nextIndex p (k + 1) ∨ ni = r.nextIndex) :
    Live S mb A n { r with matchIndex := mi, nextIndex := ni }.view := by
  refine h.bookkept (fun hS _ q hq => ?_) (fun hS _ => ((h.secure hS).leads hr).sent_le) fun hS _
    q hq => ?_
  · have hk := h.acked_le hS hr (hack hS)
    have hpos : 0 < r.nextIndex q := ((h.secure hS).leads hr).next_pos q hq
    have hle : r.nextIndex q ≤ (A.log n).length + 1 := ((h.secure hS).leads hr).next_le q hq
    rcases hni with rfl | rfl
    · rw [Function.update_apply]
      split_ifs <;> omega
    · exact ⟨hpos, hle⟩
  · have hold : Acked A r.currentTerm q (r.matchIndex q) := ((h.secure hS).leads hr).acked q hq
    rcases hmi with rfl | rfl
    · rw [Function.update_apply]
      split_ifs with hqp
      · exact hqp ▸ hack hS
      · exact hold
    · exact hold

/-- A peer that refused the entries is sent an entry more. -/
theorem backedOff (h : Live S mb A n r.view) (hr : r.role = .leader) (p : ℕ) :
    Live S mb A n { r with
      nextIndex :=
        if 1 < r.nextIndex p then Function.update r.nextIndex p (r.nextIndex p - 1) else r.nextIndex
      sentIndex := Function.update r.sentIndex p 0 }.view := by
  refine h.bookkept (fun hS _ q hq => ?_) (fun hS _ q hq => ?_) fun hS _ =>
    ((h.secure hS).leads hr).acked
  · have hpos : 0 < r.nextIndex q := ((h.secure hS).leads hr).next_pos q hq
    have hle : r.nextIndex q ≤ (A.log n).length + 1 := ((h.secure hS).leads hr).next_le q hq
    split_ifs with hone
    · rw [Function.update_apply]
      split_ifs with hqp
      · subst hqp
        omega
      · exact ⟨hpos, hle⟩
    · exact ⟨hpos, hle⟩
  · rw [Function.update_apply]
    split_ifs
    · exact Nat.zero_le _
    · exact ((h.secure hS).leads hr).sent_le q hq

/-- Read requests are no part of the relation. -/
theorem ackReadIndex_view (ctx p : ℕ) : (r.ackReadIndex ctx p).view = r.view := by
  rw [r.ackReadIndex_eq]
  rfl

theorem ackReadIndex_durable (ctx p : ℕ) : (r.ackReadIndex ctx p).durable = r.durable := by
  rw [r.ackReadIndex_eq]
  rfl

/-- A message to a leader of the message's term comes from one of its peers. -/
theorem from_mem_peers (h : Live S mb A n r.view) (hm : MsgOk mb A m) (hto : m.toId = r.id) :
    m.fromId ∈ r.peers := by
  have hid : r.id = n := h.mirrors.id_eq
  exact h.mem_peers.mpr ⟨fun heq => hm.ne (by rw [heq, hto, hid]), hm.src⟩

theorem handleAppendEntriesResponse (h : Live S mb A n r.view) (hm : MsgOk mb A m)
    (hsafe : S → MsgSafe A m) (hto : m.toId = r.id) (hty : m.type = .appendEntriesResponse)
    (hrun : r.handleAppendEntriesResponse m = some r') : Quiet S mb A n r r' := by
  unfold Raft.handleAppendEntriesResponse at hrun
  dsimp only at hrun
  rcases Raft.response_cases hrun with ⟨-, rfl⟩ | rfl | ⟨hterm, hrole, hrun⟩
  · exact h.becomeFollower _
  · exact h.quiet rfl
  set r₁ := if m.readContext ≠ 0 then r.ackReadIndex m.readContext m.fromId else r with hr₁
  obtain ⟨hview, hdur⟩ : r₁.view = r.view ∧ r₁.durable = r.durable := by
    rw [hr₁]
    split_ifs
    · exact ⟨ackReadIndex_view _ _, ackReadIndex_durable _ _⟩
    · exact ⟨rfl, rfl⟩
  have h₁ : Live S mb A n r₁.view := by rw [hview]; exact h
  have hrole₁ : r₁.role = .leader := (congrArg View.role hview).trans hrole
  have hterm₁ : m.term = r₁.currentTerm := hterm.trans (congrArg View.currentTerm hview).symm
  have hid₁ : r₁.id = r.id := congrArg View.id hview
  have hto₁ : m.toId = r₁.id := by rw [hto, hid₁]
  have hp := h₁.from_mem_peers hm hto₁
  by_cases hsucc : m.success = true
  · -- the peer has the entries
    rw [if_pos hsucc] at hrun
    have hack : S → Acked A r₁.currentTerm m.fromId m.matchIndex := fun hS => by
      rw [← hterm₁]
      exact (hsafe hS).reply hty hsucc
    have h₂ := h₁.told hrole₁ hack
      (if r₁.matchIndex m.fromId < m.matchIndex then
        Function.update r₁.matchIndex m.fromId m.matchIndex else r₁.matchIndex)
      (Function.update r₁.nextIndex m.fromId (m.matchIndex + 1))
      (by split_ifs <;> simp) (Or.inl rfl)
    obtain ⟨c, hrun', A₂, hlive, hmoves, hlog, hd⟩ := h₂.maybeAdvanceCommitIndex hrole₁
    rw [hrun'] at hrun
    obtain rfl := Option.some.inj hrun
    exact ⟨A₂, hlive, hmoves, hlog, hdur⟩
  · -- it refused them: back off and send again
    rw [if_neg hsucc] at hrun
    have h₂ := h₁.backedOff hrole₁ m.fromId
    obtain ⟨x, f, hrun', hlive⟩ := h₂.sendAppendEntries hrole₁ hp 0
    rw [hrun'] at hrun
    obtain rfl := Option.some.inj hrun
    exact hlive.quiet hdur

theorem handleInstallSnapshotResponse (h : Live S mb A n r.view) (hsafe : S → MsgSafe A m)
    (hty : m.type = .installSnapshotResponse) (hrun : r.handleInstallSnapshotResponse m = some r') :
    Quiet S mb A n r r' := by
  unfold Raft.handleInstallSnapshotResponse at hrun
  rcases Raft.response_cases hrun with ⟨-, rfl⟩ | rfl | ⟨hterm, hrole, hrun⟩
  · exact h.becomeFollower _
  · exact h.quiet rfl
  have hack : S → Acked A r.currentTerm m.fromId m.matchIndex := fun hS => by
    rw [← hterm]
    exact (hsafe hS).snapReply hty
  have h₂ := h.told hrole hack
    (if r.matchIndex m.fromId < m.matchIndex then
      Function.update r.matchIndex m.fromId m.matchIndex else r.matchIndex)
    (if r.nextIndex m.fromId < m.matchIndex + 1 then
      Function.update r.nextIndex m.fromId (m.matchIndex + 1) else r.nextIndex)
    (by split_ifs <;> simp) (by split_ifs <;> simp)
  obtain ⟨c, hrun', hq⟩ := h₂.maybeAdvanceCommitIndex hrole
  rw [hrun'] at hrun
  obtain rfl := Option.some.inj hrun
  exact hq

/-! ## What a follower takes -/

/-- A follower stores a beginning of its leader's log. -/
theorem stored (h : Live S mb A n r.view) (hr : r.role = .follower) {l' : List LogEntry} (u : ℕ)
    (hpre : l' <+: A.hist r.currentTerm) (hlead : A.leader r.currentTerm ≠ none)
    (hkeep : Keeps A n l') (hb : r.snapshot.lastIncludedIndex ≤ l'.length)
    (htake : l'.take r.snapshot.lastIncludedIndex = (A.log n).take r.snapshot.lastIncludedIndex) :
    Live S mb (A.store n l') n
      { r with log := window l' r.snapshot.lastIncludedIndex, unstableIndex := u }.view := by
  have hterm : A.term n = r.currentTerm := h.mirrors.term_eq
  have hext := ext_store (τ := LogEntry.term) (s := A) (n := n) (l := l')
  exact
    { good := h.good.store (by rw [hterm]; exact hpre) (by rw [hterm]; exact hlead) fun _ => hkeep
      mirrors :=
        { __ := h.mirrors
          log_eq := by rw [store_log_self]; rfl
          snap_le := by rw [store_log_self]; exact hb
          snap_term := by
            rw [store_log_self]
            refine h.mirrors.snap_term.trans ?_
            show termAt LogEntry.term (A.log n) r.snapshot.lastIncludedIndex =
              termAt LogEntry.term l' r.snapshot.lastIncludedIndex
            rw [termAt, termAt, htake]
          leader := fun hl => by rw [show r.role = .leader from hl] at hr; cases hr
          candidate := fun hl => by rw [show r.role = .candidate from hl] at hr; cases hr }
      msgs := fun x hx => (h.msgs x hx).mono hext.toGrows
      secure := fun hS =>
        { commit := by
            rw [store_log_self]
            unfold Keeps at hkeep
            rw [hterm] at hkeep
            exact ((h.secure hS).commit.of_keeps (h.good.safe hS) hlead hkeep).grows hext.toGrows
          snap_le_commit := (h.secure hS).snap_le_commit
          leads := fun hl => by rw [show r.role = .leader from hl] at hr; cases hr }
      msgsSafe := fun hS x hx => (h.msgsSafe hS x hx).mono hext.toGrows }

/-- Entries from index one on do not fit a log with boundary `b`: they start below the boundary, or
at it with another term. -/
def Stuck (l : List LogEntry) (b : ℕ) (m : Message) : Prop :=
  m.prevLogIndex = 0 ∧ 0 < b ∧
    ¬(b = 1 ∧ m.entries.head?.map LogEntry.term = some (termAt LogEntry.term l 1))

/-- **The loop of `handleAppendEntries` puts the leader's entries in**, or it is stuck at the
boundary and accesses the log out of range. -/
theorem merge_cases (h : Live S mb A n r.view) (hx : Extract (A.hist r.currentTerm) m)
    (hne : m.entries ≠ []) (hle : m.prevLogIndex ≤ (A.log n).length)
    (hterm : r.termAt m.prevLogIndex = some m.prevLogTerm) :
    (Stuck (A.log n) r.snapshot.lastIncludedIndex m ∧
      r.mergeEntries (m.prevLogIndex + 1) m.entries = none) ∨
    (¬Stuck (A.log n) r.snapshot.lastIncludedIndex m ∧ ∃ l' u' q,
      r.mergeEntries (m.prevLogIndex + 1) m.entries =
        some { r with log := window l' r.snapshot.lastIncludedIndex, unstableIndex := u' } ∧
      Merged (A.hist r.currentTerm) (A.log n) r.unstableIndex
        (m.prevLogIndex + m.entries.length) l' u' ∧
      r.snapshot.lastIncludedIndex ≤ q ∧ q ≤ m.prevLogIndex + m.entries.length ∧
      q ≤ (A.log n).length ∧ (A.log n).take q = (A.hist r.currentTerm).take q) := by
  set H := A.hist r.currentTerm with hH
  set b := r.snapshot.lastIncludedIndex with hbdef
  have hcanonH : Canon LogEntry.term A.hist H := h.good.wf.canon_hist _
  have hmatch : ∀ i, i ≤ (A.log n).length → i ≤ H.length →
      termAt LogEntry.term (A.log n) i = termAt LogEntry.term H i →
      (A.log n).take i = H.take i :=
    fun i hi hi' ht => h.canon_log.take_eq hcanonH hi hi' ht
  have hiH : Indexed H := h.good.indexed _
  have hsp := h.spans
  rcases Nat.lt_or_ge m.prevLogIndex b with hlt | hge
  · -- below the boundary only index zero passes the check
    have h0 : m.prevLogTerm = 0 := by
      rw [hsp.termAt_of_lt (Or.inl hlt)] at hterm
      exact (Option.some.inj hterm).symm
    have hprev : m.prevLogIndex = 0 := by
      by_contra hpos
      obtain ⟨k, hk⟩ : ∃ k, m.prevLogIndex = k + 1 := ⟨m.prevLogIndex - 1, by omega⟩
      have hkH : k < H.length := by have := hx.prev_le; omega
      have := hx.prev_term
      rw [h0, hk, termAt_eq_getElem LogEntry.term hkH] at this
      have hpos := h.good.wf.hist_pos _ _ (List.getElem_mem hkH)
      omega
    obtain ⟨e, es, hes⟩ := List.exists_cons_of_ne_nil hne
    have hent := hx.entries
    rw [hprev, hes, List.take_zero, List.nil_append] at hent
    have hH1 : H.take 1 = [e] := by
      have h1 : [e] <+: H := List.IsPrefix.trans ⟨es, rfl⟩ hent
      exact (List.prefix_iff_eq_take.mp h1).symm
    have heH : e ∈ H := hent.subset (by simp)
    have hepos : 0 < e.term := h.good.wf.hist_pos _ e heH
    have hrun := hsp.mergeEntries_below (by omega) hepos es
    rw [hprev, hes, Nat.zero_add, hrun]
    by_cases hcond : b = 1 ∧ termAt LogEntry.term (A.log n) 1 = e.term
    swap
    · left
      rw [if_neg hcond]
      refine ⟨⟨hprev, by omega, ?_⟩, rfl⟩
      rintro ⟨hb1, hhead⟩
      rw [hes] at hhead
      exact hcond ⟨hb1, (Option.some.inj hhead).symm⟩
    right
    rw [if_pos hcond]
    obtain ⟨hb1, hte⟩ := hcond
    have hHlen : 1 ≤ H.length := List.length_pos_of_mem heH
    have hllen : 1 ≤ (A.log n).length := by rw [← hb1]; exact hsp.le
    have htake : (A.log n).take 1 = H.take 1 := by
      apply hmatch 1 hllen hHlen
      rw [hte, termAt, hH1]
      rfl
    have hent' : H.take 1 ++ es <+: H := by rw [hH1]; exact hent
    obtain ⟨l', u', hrun', hm'⟩ := hsp.mergeEntries hiH hmatch hb1.le hllen hHlen htake hent'
    refine ⟨fun hstuck => hstuck.2.2 ⟨hb1, by rw [hes, hte]; rfl⟩,
      l', u', 1, hrun', ?_, hb1.le, ?_, hllen, htake⟩
    · rw [List.length_cons, Nat.zero_add, Nat.add_comm]
      exact hm'
    · rw [List.length_cons]; omega
  · have hteq : termAt LogEntry.term (A.log n) m.prevLogIndex =
        termAt LogEntry.term H m.prevLogIndex := by
      rw [hsp.termAt_of_le hge hle] at hterm
      rw [Option.some.inj hterm, hx.prev_term]
    have htake := hmatch _ hle hx.prev_le hteq
    obtain ⟨l', u', hrun', hm'⟩ := hsp.mergeEntries hiH hmatch hge hle hx.prev_le htake hx.entries
    exact Or.inr ⟨fun hstuck => by have h1 := hstuck.1; have h2 := hstuck.2.1; omega,
      l', u', m.prevLogIndex, hrun', hm', hge, by omega, hle, htake⟩

/-- The follower commits with its leader, and acknowledges. -/
theorem accepted (h : Live S mb A n r.view) (hr : r.role = .follower)
    (hterm : r.currentTerm = m.term) (hsafe : S → MsgSafe A m) (hty : m.type = .appendEntries)
    (hne : r.id ≠ m.fromId) (hpre : S → (A.hist m.term).take (m.prevLogIndex + m.entries.length) <+:
    A.log n) : ∃ A', Live S mb A' n ({ r with
        commitIndex := if r.commitIndex < m.leaderCommit then
          min m.leaderCommit (A.log n).length else r.commitIndex }.send
        { type := .appendEntriesResponse, toId := m.fromId, readContext := m.readContext
          success := true, matchIndex := m.prevLogIndex + m.entries.length }).view ∧
      Moves n [] A A' ∧ A'.log n = A.log n ∧ A'.vote = A.vote := by
  have hid : r.id = n := h.mirrors.id_eq
  have hAterm : A.term n = r.currentTerm := h.mirrors.term_eq
  set k := m.prevLogIndex + m.entries.length with hk
  by_cases hS : S
  · obtain ⟨hx, hlc, hback⟩ := (hsafe hS).append hty
    have hklen : k ≤ (A.hist m.term).length := hx.length_le
    have hkl : k ≤ (A.log n).length := by
      have := (hpre hS).length_le
      rwa [List.length_take_of_le hklen] at this
    have hgood : Good S mb (A.acknowledge n k) := by
      apply h.good.acknowledge
      · rw [hAterm, hterm]; exact hklen
      · rw [hAterm, hterm]; exact hpre hS
    have hext := ext_acknowledge (τ := LogEntry.term) (s := A) (n := n) (k := k)
    have hcommit : Backed A r.currentTerm (if r.commitIndex < m.leaderCommit then
        min m.leaderCommit (A.log n).length else r.commitIndex) (A.log n) ∧
        r.commitIndex ≤ (if r.commitIndex < m.leaderCommit then
          min m.leaderCommit (A.log n).length else r.commitIndex) := by
      split_ifs with hlt
      · rw [min_eq_left (hlc.trans hkl), hterm]
        refine ⟨(hback.take hlc).mono le_rfl le_rfl (hpre hS), hlt.le⟩
      · exact ⟨(h.secure hS).commit, le_rfl⟩
    have hlive : Live S mb (A.acknowledge n k) n { r with
        commitIndex := if r.commitIndex < m.leaderCommit then
          min m.leaderCommit (A.log n).length else r.commitIndex }.view :=
      { good := hgood
        mirrors := { __ := h.mirrors }
        msgs := fun x hx => (h.msgs x hx).mono hext.toGrows
        secure := fun _ =>
          { commit := hcommit.1.grows hext.toGrows
            snap_le_commit := (h.secure hS).snap_le_commit.trans hcommit.2
            leads := fun hl => by rw [show r.role = .leader from hl] at hr; cases hr }
        msgsSafe := fun hS x hx => (h.msgsSafe hS x hx).mono hext.toGrows }
    refine ⟨_, hlive.send (.of_type h.id_mem hne (by simp)) fun _ =>
      ?_, .of_hist_eq hext rfl, rfl, rfl⟩
    exact
      { append := fun ht => by cases ht
        reply := fun _ _ => by
          left
          have hack := acknowledge_ack_self (s := A) (n := n) (k := k)
          show k ≤ (A.acknowledge n k).ack r.id r.currentTerm
          rw [hid, ← hAterm, hack]
          exact le_max_right _ _
        snap := fun ht => by cases ht
        snapReply := fun ht => by cases ht }
  · have hlive : Live S mb A n { r with
        commitIndex := if r.commitIndex < m.leaderCommit then
          min m.leaderCommit (A.log n).length else r.commitIndex }.view :=
      { good := h.good
        mirrors := { __ := h.mirrors }
        msgs := h.msgs
        secure := fun hS' => absurd hS' hS
        msgsSafe := h.msgsSafe }
    exact ⟨A, hlive.send (.of_type h.id_mem hne (by simp)) fun hS' =>
      absurd hS' hS, Moves.refl _ _, rfl, rfl⟩

/-- The leader's log up to the message's last entry is on the follower when it accepts. -/
theorem prefix_of_accept (h : Live S mb A n r.view) (hx : Extract (A.hist r.currentTerm) m)
    (hnil : m.entries = []) (hle : m.prevLogIndex ≤ (A.log n).length)
    (hterm : r.termAt m.prevLogIndex = some m.prevLogTerm) :
    (A.hist r.currentTerm).take (m.prevLogIndex + m.entries.length) <+: A.log n := by
  rw [hnil, List.length_nil, Nat.add_zero]
  rcases Nat.lt_or_ge m.prevLogIndex r.snapshot.lastIncludedIndex with hlt | hge
  · rw [h.spans.termAt_of_lt (Or.inl hlt)] at hterm
    have h0 := hx.prev_term
    rw [← Option.some.inj hterm] at h0
    -- only index zero has term zero
    by_cases hpos : m.prevLogIndex = 0
    · rw [hpos, List.take_zero]
      exact List.nil_prefix
    · obtain ⟨k, hk⟩ : ∃ k, m.prevLogIndex = k + 1 := ⟨m.prevLogIndex - 1, by omega⟩
      have hkH : k < (A.hist r.currentTerm).length := by have := hx.prev_le; omega
      rw [hk, termAt_eq_getElem LogEntry.term hkH] at h0
      have hpos := h.good.wf.hist_pos _ _ (List.getElem_mem hkH)
      omega
  · rw [h.spans.termAt_of_le hge hle] at hterm
    have ht := (Option.some.inj hterm).trans hx.prev_term
    rw [← h.canon_log.take_eq (h.good.wf.canon_hist _) hle hx.prev_le ht]
    exact List.take_prefix _ _

/-- The follower's log becomes a beginning of the leader's: `store`, and then `acknowledge`. -/
theorem merged (h : Live S mb A n r.view) (hu : r.unstableIndex = (A.log n).length + 1)
    (hr : r.role = .follower) (hterm : r.currentTerm = m.term)
    (hlead : A.leader r.currentTerm ≠ none) (hsafe : S → MsgSafe A m)
    (hty : m.type = .appendEntries) (hne : r.id ≠ m.fromId)
    (hlen : m.prevLogIndex + m.entries.length ≤ (A.hist r.currentTerm).length) {l' : List LogEntry}
    {u' q : ℕ}
    (hmg : Merged (A.hist r.currentTerm) (A.log n) r.unstableIndex
    (m.prevLogIndex + m.entries.length) l' u') (hchanged : ¬(l' = A.log n ∧ u' = r.unstableIndex))
    (hbq : r.snapshot.lastIncludedIndex ≤ q) (hqn : q ≤ m.prevLogIndex + m.entries.length)
    (hql : q ≤ (A.log n).length) (hqtake : (A.log n).take q = (A.hist r.currentTerm).take q) :
    Called S mb A n [] r ({ r with
        log := window l' r.snapshot.lastIncludedIndex
        unstableIndex := u'
        commitIndex := if r.commitIndex < m.leaderCommit then
          min m.leaderCommit l'.length else r.commitIndex }.send
        { type := .appendEntriesResponse, toId := m.fromId, readContext := m.readContext
          success := true, matchIndex := m.prevLogIndex + m.entries.length }) := by
  have hAterm : A.term n = r.currentTerm := h.mirrors.term_eq
  have heq := hmg.eq_take hchanged
  have hlen' : l'.length = m.prevLogIndex + m.entries.length := by
    rw [heq, List.length_take_of_le hlen]
  have hhist : l' <+: A.hist r.currentTerm := by rw [heq]; exact List.take_prefix _ _
  have hkeep : Keeps A n l' := by
    intro p hpH hpl
    rw [hAterm] at hpH
    exact hmg.keeps hpH hpl
  have htake : l'.take r.snapshot.lastIncludedIndex =
      (A.log n).take r.snapshot.lastIncludedIndex := by
    have hq : l'.take q = (A.log n).take q := by rw [heq, List.take_take, min_eq_left hqn, hqtake]
    have hb := congrArg (List.take r.snapshot.lastIncludedIndex) hq
    rwa [List.take_take, List.take_take, min_eq_left hbq] at hb
  have h₁ := h.stored hr u' hhist hlead hkeep (by omega) htake
  have hlog₁ : (A.store n l').log n = l' := store_log_self
  have hext := ext_store (τ := LogEntry.term) (s := A) (n := n) (l := l')
  have hacc := h₁.accepted hr hterm (fun hS => (hsafe hS).mono hext.toGrows) hty hne (fun _ => by
    rw [hlog₁, ← hterm]
    exact hmg.take_isPrefix)
  rw [hlog₁] at hacc
  obtain ⟨A₂, hlive, hmoves, hlog, hvote⟩ := hacc
  obtain ⟨hsavedtake, hsavedkeep⟩ := hmg.saved hu
  obtain ⟨hqu, hun⟩ := hmg.unstable hchanged hu hlen hql hqtake
  refine .wrote A A₂ hlive h.good (Moves.refl _ _) ((Moves.of_hist_eq hext rfl).trans hmoves) rfl
    hAterm ?_ rfl rfl (lt_of_le_of_lt hbq hqu) ?_ ?_ ?_ hlead ?_
  · rw [hvote]; rfl
  · rw [hlog, hlen']; exact hun
  · rw [hlog]; exact hsavedtake
  · rw [hlog]; exact hhist
  · rw [hlog]
    intro p hpH hpl
    rw [hAterm] at hpH
    exact hsavedkeep p hpH hpl

/-- **`handleAppendEntries` is `store` and `acknowledge`.** -/
theorem handleAppendEntries (h : Live S mb A n r.view) (hu : r.unstableIndex = (A.log n).length + 1)
    (hm : MsgOk mb A m) (hsafe : S → MsgSafe A m) (hto : m.toId = r.id)
    (hty : m.type = .appendEntries) (hrun : r.handleAppendEntries m = some r') :
    Called S mb A n [] r r' := by
  have hne := ne_from hm hto
  unfold Raft.handleAppendEntries at hrun
  split_ifs at hrun with hlt
  · obtain rfl := Option.some.inj hrun
    exact .quiet ((h.sendPlain hne (Or.inr (Or.inr ⟨rfl, rfl⟩))).quiet rfl)
  dsimp only at hrun
  set r₁ : Raft := { r.becomeFollower m.term with leaderID := m.fromId } with hr₁
  have hfollows : Quiet S mb A n r r₁ := h.becomeFollower m.term
  have hunst : r₁.unstableIndex = r.unstableIndex := by
    obtain ⟨-, -, -, -, hd⟩ := hfollows
    exact congrArg (fun d => d.2.2.1) hd
  have hterm : r₁.currentTerm = m.term := Raft.becomeFollower_term (not_lt.mp hlt)
  have hne₁ : r₁.id ≠ m.fromId := (becomeFollower_id m.term : r₁.id = r.id) ▸ hne
  refine hfollows.called fun A₁ h₁ hmoves hlog => ?_
  have hsafe₁ : S → MsgSafe A₁ m := fun hS => (hsafe hS).mono hmoves.toGrows
  obtain ⟨hlead, hext⟩ := (hm.mono hmoves.toGrows).append hty
  obtain ⟨t, ht⟩ := h₁.spans.termAt m.prevLogIndex
  simp only [h₁.spans.lastLogIndex, ht, Option.bind_eq_bind, Option.bind_some] at hrun
  split_ifs at hrun with hrej
  · -- the logs do not match at `PrevLogIndex`
    obtain rfl := Option.some.inj hrun
    exact .quiet ((h₁.sendPlain hne₁ (Or.inr (Or.inr ⟨rfl, rfl⟩))).quiet rfl)
  rw [not_or, not_lt, not_not] at hrej
  obtain ⟨hle, rfl⟩ := hrej
  obtain ⟨r₂, hmerge, hrun⟩ := Option.bind_eq_some_iff.mp hrun
  by_cases hnil : m.entries = []
  · -- a heartbeat: nothing to put in
    rw [hnil] at hmerge
    obtain rfl := Option.some.inj hmerge
    rw [h₁.spans.lastLogIndex, Option.bind_some] at hrun
    obtain rfl := Option.some.inj hrun
    obtain ⟨A₂, hlive, hmoves₂, hlog₂, -⟩ := h₁.accepted rfl hterm hsafe₁ hty hne₁ (fun hS => by
      have hx := ((hsafe₁ hS).append hty).1
      rw [← hterm] at hx ⊢
      exact h₁.prefix_of_accept hx hnil hle ht)
    exact .quiet ⟨A₂, hlive, hmoves₂, hlog₂, rfl⟩
  have hx : Extract (A₁.hist r₁.currentTerm) m := by
    rw [hterm]
    exact hext.resolve_left fun hcon => hnil hcon.1
  rcases h₁.merge_cases hx hnil hle ht with
    ⟨-, hnone⟩ | ⟨-, l', u', q, hsome, hmg, hbq, hqn, hql, hqtake⟩
  · rw [hnone] at hmerge
    cases hmerge
  rw [hsome] at hmerge
  obtain rfl := Option.some.inj hmerge
  by_cases hsame : l' = A₁.log n ∧ u' = r₁.unstableIndex
  · -- the follower had the entries already
    obtain ⟨rfl, rfl⟩ := hsame
    rw [← h₁.spans.log_eq] at hrun
    simp only [h₁.spans.lastLogIndex, Option.bind_some] at hrun
    obtain rfl := Option.some.inj hrun
    obtain ⟨A₂, hlive, hmoves₂, hlog₂, -⟩ := h₁.accepted rfl hterm hsafe₁ hty hne₁ (fun _ => by
      rw [← hterm]
      exact hmg.take_isPrefix)
    exact .quiet ⟨A₂, hlive, hmoves₂, hlog₂, rfl⟩
  · -- the log is replaced by a beginning of the leader's
    have hl' := hmg.eq_take hsame
    have hlen : l'.length = m.prevLogIndex + m.entries.length := by
      rw [hl', List.length_take_of_le hx.length_le]
    have hsp : Spans { r₁ with log := window l' r₁.snapshot.lastIncludedIndex, unstableIndex := u' }
        l' r₁.snapshot.lastIncludedIndex :=
      ⟨rfl, by omega, (h₁.good.indexed r₁.currentTerm).of_isPrefix (hl' ▸ List.take_prefix _ _)⟩
    rw [hsp.lastLogIndex, Option.bind_some] at hrun
    obtain rfl := Option.some.inj hrun
    have hlead' : A₁.leader r₁.currentTerm ≠ none := by
      rw [hterm, hlead]; exact Option.some_ne_none _
    exact h₁.merged (by rw [hunst, hu, hlog]) rfl hterm hlead' hsafe₁ hty hne₁ hx.length_le hmg
      hsame hbq hqn hql hqtake

end Live

end KvStore
