import KvStore.Raft.Outcome
import KvStore.Raft.Simulation

/-!
# The small steps of a node, simulated

What the parts a handler is made of do to the relation of `Simulation.lean`. A part that leaves the
node's log alone is `Quiet`: there is an abstract state the node is in afterwards, reached by moves
of this node only, and nothing that `Persist` looks at in the log has changed.

* `Live.becomeFollower`, `Live.becomeCandidate`, `Live.becomeLeader`: the role changes are
  `advance`, `campaign` and `elect`.
* `Live.sendAppendEntries`, `Live.broadcast`: what a leader sends is an extract of its history, or
  its snapshot.
* `Live.maybeAdvanceCommitIndex`: the commit index only moves to what a majority acknowledged.
-/

namespace KvStore

open Consensus

variable {S : Prop} {mb : Members} {A A' : Abs} {n : ℕ} {r r' : Raft}

/-! ## Moves of the abstract state -/

namespace Good

theorem advance (h : Good S mb A) {t : ℕ} (ht : A.term n ≤ t) : Good S mb (A.advance n t) :=
  ⟨wf_advance h.wf ht, h.indexed, fun hS => safe_advance (h.safe hS) ht⟩

theorem campaign (h : Good S mb A) {t : ℕ} (ht : A.term n < t) : Good S mb (A.campaign n t) :=
  ⟨wf_campaign h.wf ht, h.indexed, fun hS => safe_campaign h.wf (h.safe hS) ht⟩

theorem indexed_cand (h : Good S mb A) {t : ℕ} (hv : A.vote n t = some n) :
    Indexed (A.cand n t) := by
  by_cases hl : A.cand n t = []
  · rw [hl]; exact indexed_nil 0
  · exact (h.indexed _).of_isPrefix ((h.wf.canon_cand n t hv).prefix_last hl)

theorem elect (h : Good S mb A) {t : ℕ} (hl : A.leader t = none) {Q : Finset ℕ}
    (hQ : Majority mb.set Q) (hv : ∀ q ∈ Q, A.vote q t = some n) (hn : A.vote n t = some n) :
    Good S mb (A.elect n t) := by
  refine ⟨wf_elect h.wf hl hQ hv hn, fun u => ?_, fun hS => safe_elect h.wf (h.safe hS) hl hQ hv hn⟩
  by_cases hu : u = t
  · rw [hu, elect_hist_self]
    exact h.indexed_cand hn
  · rw [elect_hist_of_ne hu]
    exact h.indexed u

theorem append (h : Good S mb A) {t : ℕ} {es : List LogEntry} (hl : A.leader t = some n)
    (hes : ∀ e ∈ es, e.term = t) (ht : 0 < t) (hi : Indexed (A.hist t ++ es)) :
    Good S mb (A.append t es) := by
  refine ⟨wf_append h.wf hl hes ht, fun u => ?_, fun hS => safe_append h.wf (h.safe hS) hl hes⟩
  by_cases hu : u = t
  · rw [hu, append_hist_self]
    exact hi
  · rw [append_hist_of_ne hu]
    exact h.indexed u

theorem store (h : Good S mb A) {l : List LogEntry} (hl : l <+: A.hist (A.term n))
    (hlead : A.leader (A.term n) ≠ none) (hk : S → Keeps A n l) : Good S mb (A.store n l) :=
  ⟨wf_store h.wf hl, h.indexed, fun hS => safe_store h.wf (h.safe hS) hlead (hk hS)⟩

theorem acknowledge (h : Good S mb A) {k : ℕ} (hk : k ≤ (A.hist (A.term n)).length)
    (hl : (A.hist (A.term n)).take k <+: A.log n) : Good S mb (A.acknowledge n k) :=
  ⟨wf_acknowledge h.wf hk, h.indexed, fun hS => safe_acknowledge h.wf (h.safe hS) hl⟩

theorem commit (h : Good S mb A) {t k : ℕ} (hl : A.leader t = some n)
    (hk : S → Chosen LogEntry.term mb.set A t k) : Good S mb (A.commit t k) :=
  ⟨wf_commit h.wf hl, h.indexed, fun hS => safe_commit (h.safe hS) (hk hS)⟩

end Good

/-- Moves of node `n` that write no entries but those of `new`. -/
structure Moves (n : ℕ) (new : List LogEntry) (A A' : Abs) : Prop extends
    Ext LogEntry.term n A A' where
  fresh : ∀ t, ∀ e ∈ A'.hist t, (∃ u, e ∈ A.hist u) ∨ e ∈ new

theorem Moves.refl (new : List LogEntry) (A : Abs) : Moves n new A A :=
  ⟨Ext.refl A n, fun t _ he => Or.inl ⟨t, he⟩⟩

theorem Moves.trans {new : List LogEntry} {A'' : Abs} (h : Moves n new A A')
    (h' : Moves n new A' A'') : Moves n new A A'' := by
  refine ⟨h.toExt.trans h'.toExt, fun t e he => ?_⟩
  rcases h'.fresh t e he with ⟨u, hu⟩ | hnew
  · exact h.fresh u e hu
  · exact Or.inr hnew

/-- A move that leaves the histories alone. -/
theorem Moves.of_hist_eq {new : List LogEntry} (he : Ext LogEntry.term n A A')
    (hh : A'.hist = A.hist) : Moves n new A A' :=
  ⟨he, fun t e hmem => Or.inl ⟨t, by rwa [hh] at hmem⟩⟩

/-! ## Calls that leave the log alone -/

/-- What `Persist` looks at, the hard state apart. -/
def Raft.durable (r : Raft) : List LogEntry × Snapshot × ℕ × ℕ × ℕ × ℕ :=
  (r.log, r.snapshot, r.unstableIndex, r.stableTerm, r.stableVote, r.stableSnapshotIndex)

/-- From `r` to `r'` the node makes abstract moves that leave its log alone. -/
def Quiet (S : Prop) (mb : Members) (A : Abs) (n : ℕ) (r r' : Raft) : Prop :=
  ∃ A', Live S mb A' n r'.view ∧ Moves n [] A A' ∧ A'.log n = A.log n ∧ r'.durable = r.durable

theorem Live.quiet (h : Live S mb A n r'.view) (hd : r'.durable = r.durable) :
    Quiet S mb A n r r' :=
  ⟨A, h, Moves.refl _ _, rfl, hd⟩

/-- One quiet call after another. -/
theorem Quiet.bind {r'' : Raft} (h : Quiet S mb A n r r')
    (h' : ∀ A', Live S mb A' n r'.view → Moves n [] A A' → Quiet S mb A' n r' r'') :
    Quiet S mb A n r r'' := by
  obtain ⟨A', hlive, hmove, hlog, hd⟩ := h
  obtain ⟨A'', hlive', hmove', hlog', hd'⟩ := h' A' hlive hmove
  exact ⟨A'', hlive', hmove.trans hmove', hlog'.trans hlog, hd'.trans hd⟩

namespace Live

/-- A message goes into the outbox. -/
theorem send (h : Live S mb A n r.view) {m : Message}
    (hok : MsgOk mb A { m with fromId := r.id, term := r.currentTerm })
    (hsafe : S → MsgSafe A { m with fromId := r.id, term := r.currentTerm }) :
    Live S mb A n (r.send m).view where
  good := h.good
  mirrors := { __ := h.mirrors }
  msgs := fun x hx => by
    rcases List.mem_append.mp hx with hx | hx
    · exact h.msgs x hx
    · rw [List.mem_singleton.mp hx]
      exact hok
  secure := fun hS => { __ := h.secure hS, leads := fun hr => { __ := (h.secure hS).leads hr } }
  msgsSafe := fun hS x hx => by
    rcases List.mem_append.mp hx with hx | hx
    · exact h.msgsSafe hS x hx
    · rw [List.mem_singleton.mp hx]
      exact hsafe hS

/-- The node's own id is a member's, and it is no peer of its own. -/
theorem id_mem (h : Live S mb A n r.view) : r.id ∈ mb.ids := by
  have : r.id = n := h.mirrors.id_eq
  rw [this]
  exact h.mirrors.mem

theorem mem_peers (h : Live S mb A n r.view) {p : ℕ} : p ∈ r.peers ↔ p ≠ n ∧ p ∈ mb.ids := by
  have : r.peers = (mb.config n).peers := h.mirrors.peers_eq
  rw [this]
  exact mb.mem_peers h.mirrors.mem

/-- `becomeFollower` is `advance`, if the term is a new one. -/
theorem becomeFollower (h : Live S mb A n r.view) (t : ℕ) :
    Quiet S mb A n r (r.becomeFollower t) := by
  have hterm : A.term n = r.currentTerm := h.mirrors.term_eq
  by_cases ht : r.currentTerm < t
  · have hlt : A.term n < t := by omega
    have hle := hlt.le
    have hext := ext_advance (τ := LogEntry.term) hle
    have heq : (r.becomeFollower t).view =
        { r.view with role := .follower, currentTerm := t, votedFor := 0 } := by
      simp only [Raft.becomeFollower, if_pos ht]
      rfl
    refine ⟨A.advance n t, ?_, .of_hist_eq hext rfl, rfl, ?_⟩
    · rw [heq]
      exact
        { good := h.good.advance hle
          mirrors :=
            { __ := h.mirrors
              term_eq := advance_term_self
              vote_eq := h.good.wf.vote_none hlt
              leader := fun hr => by cases hr
              candidate := fun hr => by cases hr }
          msgs := fun m hm => (h.msgs m hm).mono hext.toGrows
          secure := fun hS =>
            { commit := ((h.secure hS).commit.grows hext.toGrows).mono ht.le le_rfl List.prefix_rfl
              snap_le_commit := (h.secure hS).snap_le_commit
              leads := fun hr => by cases hr }
          msgsSafe := fun hS m hm => (h.msgsSafe hS m hm).mono hext.toGrows }
    · simp only [Raft.becomeFollower, if_pos ht]
      rfl
  · have heq : (r.becomeFollower t).view = { r.view with role := .follower } := by
      simp only [Raft.becomeFollower, if_neg ht]
      rfl
    refine Live.quiet ?_ ?_
    · rw [heq]
      exact
        { good := h.good
          mirrors :=
            { __ := h.mirrors
              leader := fun hr => by cases hr
              candidate := fun hr => by cases hr }
          msgs := h.msgs
          secure := fun hS => { __ := h.secure hS, leads := fun hr => by cases hr }
          msgsSafe := h.msgsSafe }
    · simp only [Raft.becomeFollower, if_neg ht]
      rfl

/-! ## What a leader sends -/

/-- New bookkeeping about the peers. -/
theorem bookkept (h : Live S mb A n r.view) {mi ni si : ℕ → ℕ}
    (hni : S → r.role = .leader → ∀ p ∈ r.peers, 0 < ni p ∧ ni p ≤ (A.log n).length + 1)
    (hsi : S → r.role = .leader → ∀ p ∈ r.peers, si p ≤ (A.log n).length)
    (hmi : S → r.role = .leader → ∀ p ∈ r.peers, Acked A r.currentTerm p (mi p)) :
    Live S mb A n { r with matchIndex := mi, nextIndex := ni, sentIndex := si }.view where
  good := h.good
  mirrors := { __ := h.mirrors }
  msgs := h.msgs
  secure := fun hS =>
    { __ := h.secure hS
      leads := fun hr =>
        { __ := (h.secure hS).leads hr
          next_pos := fun p hp => (hni hS hr p hp).1
          next_le := fun p hp => (hni hS hr p hp).2
          sent_le := hsi hS hr
          acked := hmi hS hr } }
  msgsSafe := h.msgsSafe

/-- A leader sends its snapshot. -/
theorem sendSnapshot (h : Live S mb A n r.view) (hr : r.role = .leader) {p : ℕ} (hne : r.id ≠ p) :
    Live S mb A n
    (r.send { type := .installSnapshot, toId := p, snapshot := r.snapshot }).view := by
  have hid : r.id = n := h.mirrors.id_eq
  have hhist := h.hist_eq hr
  refine h.send ?_ fun hS => ?_
  · exact
      { src := h.id_mem
        ne := hne
        vote := fun ht => by cases ht
        granted := fun ht => by cases ht
        append := fun ht => by cases ht
        snap := fun _ => by
          refine ⟨by rw [hid]; exact h.leader_eq hr, ?_, ?_⟩
          · exact h.mirrors.snap_le.trans (by rw [← hhist])
          · exact h.mirrors.snap_term.trans (by rw [← hhist]; rfl) }
  · have hc := (h.secure hS).commit.mono le_rfl (h.secure hS).snap_le_commit List.prefix_rfl
    exact
      { append := fun ht => by cases ht
        reply := fun ht => by cases ht
        snap := fun _ => by rw [← hhist] at hc; exact hc
        snapReply := fun ht => by cases ht }

/-- A leader sends the entries after an index that is in its window, or past the end of its log. -/
theorem sendExtract (h : Live S mb A n r.view) (hr : r.role = .leader) {p prev t : ℕ} (ctx : ℕ)
    (hne : r.id ≠ p) (hb : r.snapshot.lastIncludedIndex ≤ prev) (ht : r.termAt prev = some t)
    (hle : S → prev ≤ (A.log n).length) :
    Live S mb A n (r.send
      { type := .appendEntries, toId := p, prevLogIndex := prev, prevLogTerm := t
        entries := (A.log n).drop prev, leaderCommit := r.commitIndex,
        readContext := ctx }).view := by
  have hid : r.id = n := h.mirrors.id_eq
  have hhist := h.hist_eq hr
  set m : Message :=
    { type := .appendEntries, toId := p, prevLogIndex := prev, prevLogTerm := t
      entries := (A.log n).drop prev, leaderCommit := r.commitIndex, readContext := ctx } with hm
  have hextract : prev ≤ (A.log n).length →
      Extract (A.hist r.currentTerm) { m with fromId := r.id, term := r.currentTerm } := by
    intro hle
    rw [hhist]
    refine ⟨hle, ?_, ?_⟩
    · have hterm := h.spans.termAt_of_le hb hle
      rw [ht] at hterm
      exact Option.some.inj hterm
    · show (A.log n).take prev ++ (A.log n).drop prev <+: A.log n
      rw [List.take_append_drop]
  refine h.send ?_ fun hS => ?_
  · exact
      { src := h.id_mem
        ne := hne
        vote := fun ht => by cases ht
        granted := fun ht => by cases ht
        append := fun _ => by
          refine ⟨by rw [show r.id = n from hid]; exact h.leader_eq hr, ?_⟩
          rcases Nat.lt_or_ge (A.log n).length prev with hlt | hge
          · left
            refine ⟨List.drop_of_length_le hlt.le, ?_⟩
            have hterm := h.spans.termAt_of_lt (Or.inr hlt)
            rw [ht] at hterm
            exact Option.some.inj hterm
          · exact Or.inr (hextract hge)
        snap := fun ht => by cases ht }
  · have hcommit : r.commitIndex ≤ (A.log n).length := (h.secure hS).commit.le_length
    exact
      { append := fun _ => by
          refine ⟨hextract (hle hS), ?_, ?_⟩
          · show r.commitIndex ≤ prev + ((A.log n).drop prev).length
            rw [List.length_drop]
            omega
          · have hc := (h.secure hS).commit
            rw [← hhist] at hc
            exact hc
        reply := fun ht => by cases ht
        snap := fun ht => by cases ht
        snapReply := fun ht => by cases ht }

/-- **`sendAppendEntries` sends an extract of the leader's history**, or its snapshot. -/
theorem sendAppendEntries (h : Live S mb A n r.view) (hr : r.role = .leader) {p : ℕ}
    (hp : p ∈ r.peers) (ctx : ℕ) : ∃ m f,
      r.sendAppendEntries p ctx = some { r with msgs := r.msgs ++ [m], sentIndex := f } ∧
      Live S mb A n { r with msgs := r.msgs ++ [m], sentIndex := f }.view := by
  have hne : r.id ≠ p := by
    have hid : r.id = n := h.mirrors.id_eq
    rw [hid]
    exact fun heq => (h.mem_peers.mp hp).1 heq.symm
  have hsp := h.spans
  by_cases hsnap : Raft.pred64 (r.nextIndex p) < r.snapshot.lastIncludedIndex
  · -- the peer needs entries that are compacted away
    refine ⟨_, r.sentIndex, ?_, h.sendSnapshot hr hne⟩
    simp only [Raft.sendAppendEntries, hsp.firstIndex, Option.bind_eq_bind, Option.bind_some, hsnap,
      if_true, pure]
    rfl
  · -- the entries after `prevIndex`
    set prev := if Raft.pred64 (r.nextIndex p) < r.sentIndex p then r.sentIndex p
      else Raft.pred64 (r.nextIndex p) with hprev
    have hb : r.snapshot.lastIncludedIndex ≤ prev := by
      rw [hprev]
      split_ifs <;> omega
    obtain ⟨t, ht⟩ := hsp.termAt prev
    have hes : r.entries prev (A.log n).length = some ((A.log n).drop prev) := by
      rw [hsp.entries, List.take_length, max_eq_left hb]
    have hle : S → prev ≤ (A.log n).length := fun hS => by
      have hleads := (h.secure hS).leads hr
      have h1 : 0 < r.nextIndex p := hleads.next_pos p hp
      have h2 : r.nextIndex p ≤ (A.log n).length + 1 := hleads.next_le p hp
      have h3 : r.sentIndex p ≤ (A.log n).length := hleads.sent_le p hp
      rw [hprev, Raft.pred64]
      split_ifs <;> omega
    have hsent := h.sendExtract hr ctx hne hb ht hle
    refine ⟨_, if r.sentIndex p < (A.log n).length then
      Function.update r.sentIndex p (A.log n).length else r.sentIndex, ?_, hsent.bookkept ?_ ?_ ?_⟩
    · simp only [Raft.sendAppendEntries, hsp.firstIndex, Option.bind_eq_bind,
        Option.bind_some, hsnap, if_false, ← hprev, ht, hsp.lastLogIndex, hes, pure]
      rfl
    · intro hS hr' q hq
      exact ⟨((h.secure hS).leads hr').next_pos q hq, ((h.secure hS).leads hr').next_le q hq⟩
    · intro hS hr' q hq
      have hold : r.sentIndex q ≤ (A.log n).length := ((h.secure hS).leads hr').sent_le q hq
      split_ifs
      · rw [Function.update_apply]
        split_ifs
        · exact le_rfl
        · exact hold
      · exact hold
    · exact fun hS hr' => ((h.secure hS).leads hr').acked

/-- A round of `sendAppendEntries`. -/
theorem broadcast (h : Live S mb A n r.view) (hr : r.role = .leader) (ctx : ℕ) : ∃ r',
    r.broadcast ctx = some r' ∧ (∃ ms f, r' = { r with msgs := r.msgs ++ ms, sentIndex := f }) ∧
    Live S mb A n r'.view := by
  refine Machine.foldlM_inv (I := fun r' : Raft =>
    (∃ ms f, r' = { r with msgs := r.msgs ++ ms, sentIndex := f }) ∧ Live S mb A n r'.view) ?_
    ⟨⟨[], r.sentIndex, by rw [List.append_nil]⟩, h⟩
  rintro _ ⟨⟨ms, f, rfl⟩, hlive⟩ p hp
  obtain ⟨m, f', hrun, hlive'⟩ := hlive.sendAppendEntries hr hp ctx
  exact ⟨_, hrun, ⟨ms ++ [m], f', by rw [List.append_assoc]⟩, hlive'⟩

end Live

theorem Raft.hasMajorityCount_iff {k : ℕ} :
    r.hasMajorityCount k = true ↔ (r.peers.length + 1) / 2 + 1 ≤ k := by
  rw [Raft.hasMajorityCount, decide_eq_true_iff, Raft.clusterSize]

/-! ## Committing -/

/-- The loop of `maybeAdvanceCommitIndex` stops at the commit index, or above it at an index of the
current term that enough peers have. -/
theorem Spans.advanceCommitFrom {l : List LogEntry} {b : ℕ} (h : Spans r l b) (k : ℕ) :
    ∃ c, r.advanceCommitFrom k = some { r with commitIndex := c } ∧
      (c = r.commitIndex ∨ (r.commitIndex < c ∧ c ≤ k ∧ r.termAt c = some r.currentTerm ∧
        r.hasMajorityCount (r.matchCount c) = true)) := by
  induction k with
  | zero => exact ⟨r.commitIndex, rfl, Or.inl rfl⟩
  | succ k ih =>
    rw [Raft.advanceCommitFrom]
    by_cases hle : k + 1 ≤ r.commitIndex
    · rw [if_pos hle]
      exact ⟨r.commitIndex, rfl, Or.inl rfl⟩
    · rw [if_neg hle]
      obtain ⟨t, ht⟩ := h.termAt (k + 1)
      rw [ht]
      simp only [Option.bind_eq_bind, Option.bind_some]
      split_ifs with hc
      · exact ⟨k + 1, rfl, Or.inr ⟨by omega, le_rfl, by rw [ht, hc.1], hc.2⟩⟩
      · obtain ⟨c, hrun, hcase⟩ := ih
        exact ⟨c, hrun, hcase.imp_right fun hup => ⟨hup.1, hup.2.1.trans (Nat.le_succ k), hup.2.2⟩⟩

namespace Live

/-- The nodes that hold index `c`, as far as the leader counts, are a majority that acknowledged
it. -/
theorem chosen_of_matchCount (h : Live S mb A n r.view) (hS : S) (hr : r.role = .leader) {c : ℕ}
    (hlt : r.commitIndex < c) (hc : c ≤ (A.log n).length)
    (ht : r.termAt c = some r.currentTerm)
    (hmaj : r.hasMajorityCount (r.matchCount c) = true) :
    Chosen LogEntry.term mb.set A r.currentTerm c := by
  have hlead : A.leader r.currentTerm = some n := (h.mirrors.leader hr).1
  have hhist : A.hist r.currentTerm = A.log n := (h.mirrors.leader hr).2
  have hleads := (h.secure hS).leads hr
  have hcom : A.com r.currentTerm ≤ r.commitIndex := hleads.com_le
  have hsafe := h.good.safe hS
  have hb : r.snapshot.lastIncludedIndex ≤ r.commitIndex := (h.secure hS).snap_le_commit
  have hterm : termAt LogEntry.term (A.hist r.currentTerm) c = r.currentTerm := by
    have := h.spans.termAt_of_le (i := c) (by omega) hc
    rw [ht] at this
    rw [hhist]
    exact (Option.some.inj this).symm
  have hpeers : r.peers = (mb.config n).peers := h.mirrors.peers_eq
  set P := (r.peers.filter fun p => c ≤ r.matchIndex p).toFinset with hP
  have hnP : n ∉ P := fun hn => by
    rw [hP, List.mem_toFinset] at hn
    exact (h.mem_peers.mp (List.mem_filter.mp hn).1).1 rfl
  have hcard : (insert n P).card = r.matchCount c := by
    rw [Finset.card_insert_of_notMem hnP, hP, List.toFinset_card_of_nodup,
      Raft.matchCount, add_comm]
    rw [hpeers]
    exact (mb.nodup_peers h.mirrors.mem).filter _
  refine ⟨by omega, by rw [hhist]; exact hc, hterm, insert n P, ?_, fun q hq => ?_⟩
  · apply mb.majority_of_card h.mirrors.mem
    · intro q hq
      rcases Finset.mem_insert.mp hq with rfl | hq
      · exact h.mirrors.mem
      · rw [hP, List.mem_toFinset] at hq
        exact (h.mem_peers.mp (List.mem_filter.mp hq).1).2
    · rw [hcard, ← hpeers]
      exact Raft.hasMajorityCount_iff.mp hmaj
  · rcases Finset.mem_insert.mp hq with rfl | hq
    · have hself : (A.hist r.currentTerm).length ≤ A.ack q r.currentTerm := hleads.ack_self
      rw [hhist] at hself
      omega
    · rw [hP, List.mem_toFinset] at hq
      obtain ⟨hqp, hcm⟩ := List.mem_filter.mp hq
      have hcm' : c ≤ r.matchIndex q := by simpa using hcm
      rcases hleads.acked q hqp with hack | ⟨u, hu, hcu⟩
      · exact hcm'.trans hack
      · -- a commitment of an earlier term holds no entry of this one
        exfalso
        have hcu' : c ≤ A.com u := hcm'.trans hcu
        have hu' : u ≤ r.currentTerm := hu
        rcases Nat.eq_or_lt_of_le hu' with rfl | hu
        · exact absurd hcu' (not_le.mpr (lt_of_le_of_lt hcom hlt))
        · have hpre := hsafe.com_isPrefix hu (by rw [hlead]; simp)
          have hlen := (hsafe.chosen u (by omega)).2.1
          have h1 :=
            termAt_of_isPrefix LogEntry.term hpre (i := c) (by rw [List.length_take]; omega)
          rw [termAt_take LogEntry.term hcu', hterm] at h1
          have h2 := termAt_le LogEntry.term (h.good.wf.hist_le u) c
          omega

/-- **`maybeAdvanceCommitIndex` commits what a majority acknowledged.** -/
theorem maybeAdvanceCommitIndex (h : Live S mb A n r.view) (hr : r.role = .leader) :
    ∃ c, r.maybeAdvanceCommitIndex = some { r with commitIndex := c } ∧
      Quiet S mb A n r { r with commitIndex := c } := by
  obtain ⟨c, hrun, hcase⟩ := h.spans.advanceCommitFrom (A.log n).length
  refine ⟨c, ?_, ?_⟩
  · simp only [Raft.maybeAdvanceCommitIndex, h.spans.lastLogIndex, Option.bind_eq_bind,
      Option.bind_some, hrun]
  rcases hcase with rfl | ⟨hlt, hle, ht, hmaj⟩
  · exact h.quiet rfl
  by_cases hS : S
  · have hlead : A.leader r.currentTerm = some n := (h.mirrors.leader hr).1
    have hhist : A.hist r.currentTerm = A.log n := (h.mirrors.leader hr).2
    have hch := h.chosen_of_matchCount hS hr hlt hle ht hmaj
    have hcom : A.com r.currentTerm ≤ r.commitIndex := ((h.secure hS).leads hr).com_le
    have hext := ext_commit (τ := LogEntry.term) hlead (k := c) (by omega)
    refine ⟨A.commit r.currentTerm c, ?_, .of_hist_eq hext rfl, rfl, rfl⟩
    exact
      { good := h.good.commit hlead fun _ => hch
        mirrors := { __ := h.mirrors }
        msgs := fun m hm => (h.msgs m hm).mono hext.toGrows
        secure := fun _ =>
          { commit := by
              refine Or.inr ⟨r.currentTerm, le_rfl, ?_, hch.2.1, ?_⟩
              · exact (commit_com_self (s := A)).ge
              · show (A.hist r.currentTerm).take c <+: A.log n
                rw [hhist]
                exact List.take_prefix _ _
            snap_le_commit := (h.secure hS).snap_le_commit.trans hlt.le
            leads := fun _ =>
              { __ := (h.secure hS).leads hr
                com_le := (commit_com_self (s := A)).le
                acked := fun p hp => (((h.secure hS).leads hr).acked p hp).mono hext.toGrows } }
        msgsSafe := fun _ m hm => (h.msgsSafe hS m hm).mono hext.toGrows }
  · refine Live.quiet ?_ rfl
    exact
      { good := h.good
        mirrors := { __ := h.mirrors }
        msgs := h.msgs
        secure := fun hS' => absurd hS' hS
        msgsSafe := h.msgsSafe }

/-! ## Elections -/

/-- The node becomes the leader it has a majority for. -/
theorem elected (h : Live S mb A n r.view) (hr : r.role = .candidate)
    (hmaj : r.hasMajorityCount r.votesReceived.card = true) :
    Quiet S mb A n r (r.leading (A.log n).length) := by
  obtain ⟨hvote, hcand, hnot, hvotes⟩ := h.mirrors.candidate hr
  have hterm : A.term n = r.currentTerm := h.mirrors.term_eq
  have hpeers : r.peers = (mb.config n).peers := h.mirrors.peers_eq
  have hQ : Majority mb.set r.votesReceived :=
    mb.majority_of_card h.mirrors.mem (fun q hq => (hvotes q hq).1)
      (by rw [← hpeers]; exact Raft.hasMajorityCount_iff.mp hmaj)
  have hv : ∀ q ∈ r.votesReceived, A.vote q r.currentTerm = some n := fun q hq => (hvotes q hq).2
  have hnone : A.leader r.currentTerm = none := by
    cases hl : A.leader r.currentTerm with
    | none => rfl
    | some d =>
      have := h.good.wf.leader_unique hQ hv hl
      rw [this] at hl
      exact absurd hl hnot
  -- elect, then acknowledge the leader's own log
  have hext := ext_elect (n := n) h.good.wf hnone
  have hgood := h.good.elect hnone hQ hv hvote
  have hhist : (A.elect n r.currentTerm).hist r.currentTerm = A.log n := by
    rw [elect_hist_self]
    exact hcand
  have hterm' : (A.elect n r.currentTerm).term n = r.currentTerm := hterm
  have hgood' : Good S mb ((A.elect n r.currentTerm).acknowledge n (A.log n).length) := by
    apply hgood.acknowledge
    · rw [hterm', hhist]
    · rw [hterm', hhist, List.take_length]
      exact List.prefix_rfl
  have hext' := hext.trans (ext_acknowledge (n := n) (k := (A.log n).length))
  have hlead : (A.elect n r.currentTerm).leader r.currentTerm = some n := elect_leader_self
  refine ⟨(A.elect n r.currentTerm).acknowledge n (A.log n).length, ?_, ?_, rfl, rfl⟩
  · exact
      { good := hgood'
        mirrors :=
          { __ := h.mirrors
            leader := fun _ => ⟨hlead, hhist⟩
            candidate := fun hc => by cases hc }
        msgs := fun m hm => (h.msgs m hm).mono hext'.toGrows
        secure := fun hS =>
          { commit := (h.secure hS).commit.grows hext'.toGrows
            snap_le_commit := (h.secure hS).snap_le_commit
            leads := fun _ =>
              { com_le := by
                  show A.com r.currentTerm ≤ r.commitIndex
                  rw [h.good.wf.com_nil _ hnone]
                  exact Nat.zero_le _
                ack_self := by
                  have hack := acknowledge_ack_self (s := A.elect n r.currentTerm) (n := n)
                    (k := (A.log n).length)
                  rw [hterm'] at hack
                  show ((A.elect n r.currentTerm).hist r.currentTerm).length ≤
                    ((A.elect n r.currentTerm).acknowledge n (A.log n).length).ack n r.currentTerm
                  rw [hack, hhist]
                  exact le_max_right _ _
                next_pos := fun p (hp : p ∈ r.peers) => by
                  show 0 < if p ∈ r.peers then (A.log n).length + 1 else 0
                  rw [if_pos hp]
                  omega
                next_le := fun p (hp : p ∈ r.peers) => by
                  show (if p ∈ r.peers then (A.log n).length + 1 else 0) ≤ (A.log n).length + 1
                  rw [if_pos hp]
                sent_le := fun p _ => Nat.zero_le _
                acked := fun p _ => Or.inl (Nat.zero_le _) } }
        msgsSafe := fun hS m hm => (h.msgsSafe hS m hm).mono hext'.toGrows }
  · refine ⟨hext', fun t e he => Or.inl ?_⟩
    -- the elected log was written by earlier leaders
    have he' : e ∈ (A.elect n r.currentTerm).hist t := he
    by_cases ht : t = r.currentTerm
    · rw [ht, hhist] at he'
      have hne : A.log n ≠ [] := List.ne_nil_of_mem he'
      exact ⟨_, ((h.good.wf.canon_log n).prefix_last hne).subset he'⟩
    · rw [elect_hist_of_ne ht] at he'
      exact ⟨t, he'⟩

/-- **`becomeLeader` is `elect`**, followed by the first round of heartbeats. -/
theorem becomeLeader (h : Live S mb A n r.view) (hr : r.role = .candidate)
    (hmaj : r.hasMajorityCount r.votesReceived.card = true) :
    ∃ r', r.becomeLeader = some r' ∧ Quiet S mb A n r r' := by
  obtain ⟨A₁, hlive₁, hmove₁, hlog₁, hd₁⟩ := h.elected hr hmaj
  obtain ⟨r₂, hrun₂, ⟨ms, f, hr₂⟩, hlive₂⟩ := hlive₁.broadcast rfl 0
  have hbase : r.becomeLeader = if r₂.peers = [] then r₂.maybeAdvanceCommitIndex else some r₂ := by
    simp only [Raft.becomeLeader, h.spans.lastLogIndex, Option.bind_eq_bind, Option.bind_some,
      Raft.sendHeartbeats, pure]
    show ((r.leading _).broadcast 0).bind _ = _
    rw [hrun₂, Option.bind_some]
  have hquiet₂ : Quiet S mb A n r r₂ := ⟨A₁, hlive₂, hmove₁, hlog₁, by rw [hr₂]; exact hd₁⟩
  rw [hbase]
  split_ifs with hnil
  · have hrole : r₂.role = .leader := by rw [hr₂]; rfl
    obtain ⟨c, hrun, -⟩ := hlive₂.maybeAdvanceCommitIndex hrole
    refine ⟨_, hrun, hquiet₂.bind fun A' hlive' _ => ?_⟩
    obtain ⟨c', hrun', hq'⟩ := hlive'.maybeAdvanceCommitIndex hrole
    rw [hrun] at hrun'
    rw [Option.some.inj hrun']
    exact hq'
  · exact ⟨r₂, rfl, hquiet₂⟩

/-- A vote request to one peer tells the end of the log the node runs with. -/
theorem sendVoteRequest (h : Live S mb A n r.view) {type : MessageType}
    (hty : type = .preVote ∨ (type = .requestVote ∧ r.role = .candidate)) {p : ℕ}
    (hp : p ∈ r.peers) : ∃ m, r.sendVoteRequest type p = some { r with msgs := r.msgs ++ [m] } ∧
      Live S mb A n { r with msgs := r.msgs ++ [m] }.view := by
  have hid : r.id = n := h.mirrors.id_eq
  have hne : r.id ≠ p := by
    rw [hid]
    exact fun heq => (h.mem_peers.mp hp).1 heq.symm
  set m : Message :=
    { type := type, toId := p, lastLogIndex := (A.log n).length
      lastLogTerm := lastTerm LogEntry.term (A.log n) } with hm
  refine ⟨{ m with fromId := r.id, term := r.currentTerm }, ?_, h.send (m := m) ?_ ?_⟩
  · simp only [Raft.sendVoteRequest, h.spans.lastLogIndex, h.spans.lastLogTerm, Option.bind_eq_bind,
      Option.bind_some, pure]
    rfl
  · rcases hty with rfl | ⟨rfl, hr⟩
    · exact .of_type h.id_mem hne (by simp)
    · obtain ⟨hvote, hcand, -, -⟩ := h.mirrors.candidate hr
      have hcand' : A.cand r.id r.currentTerm = A.log n := by rw [hid]; exact hcand
      exact
        { src := h.id_mem
          ne := hne
          vote := fun _ => by
            refine ⟨by rw [hid]; exact hvote, ?_, ?_⟩
            · show (A.log n).length = (A.cand r.id r.currentTerm).length
              rw [hcand']
            · show lastTerm LogEntry.term (A.log n) =
                lastTerm LogEntry.term (A.cand r.id r.currentTerm)
              rw [hcand']
          granted := fun ht => by cases ht
          append := fun ht => by cases ht
          snap := fun ht => by cases ht }
  · rcases hty with rfl | ⟨rfl, -⟩
    · exact fun _ => .of_type (by simp)
    · exact fun _ => .of_type (by simp)

/-- A round of vote requests. -/
theorem sendVoteRequests (h : Live S mb A n r.view) {type : MessageType}
    (hty : type = .preVote ∨ (type = .requestVote ∧ r.role = .candidate)) :
    ∃ r', r.peers.foldlM (fun r p => r.sendVoteRequest type p) r = some r' ∧
      (∃ ms, r' = { r with msgs := r.msgs ++ ms }) ∧ Live S mb A n r'.view := by
  refine Machine.foldlM_inv (I := fun r' : Raft =>
    (∃ ms, r' = { r with msgs := r.msgs ++ ms }) ∧ Live S mb A n r'.view) ?_
    ⟨⟨[], by rw [List.append_nil]⟩, h⟩
  rintro _ ⟨⟨ms, rfl⟩, hlive⟩ p hp
  obtain ⟨m, hrun, hlive'⟩ := hlive.sendVoteRequest hty hp
  exact ⟨_, hrun, ⟨ms ++ [m], by rw [List.append_assoc]⟩, hlive'⟩

/-- The node runs in the next term. -/
theorem campaigned (h : Live S mb A n r.view) : Quiet S mb A n r r.campaigning := by
  have hterm : A.term n = r.currentTerm := h.mirrors.term_eq
  have hid : r.id = n := h.mirrors.id_eq
  have hlt : A.term n < r.currentTerm + 1 := by omega
  have hext := ext_campaign h.good.wf hlt
  have hvote : (A.campaign n (r.currentTerm + 1)).vote n (r.currentTerm + 1) = some n :=
    campaign_vote_self
  -- a leader of the new term would have this node's vote already
  have hnot : A.leader (r.currentTerm + 1) ≠ some n := by
    intro hl
    have hself := h.good.wf.leader_vote hl
    rw [h.good.wf.vote_none hlt] at hself
    exact absurd hself (by simp)
  refine ⟨A.campaign n (r.currentTerm + 1), ?_, .of_hist_eq hext rfl, rfl, rfl⟩
  exact
    { good := h.good.campaign hlt
      mirrors :=
        { __ := h.mirrors
          term_eq := campaign_term_self
          vote_eq := by
            show (A.campaign n (r.currentTerm + 1)).vote n (r.currentTerm + 1) =
              if r.id = 0 then none else some r.id
            rw [hvote, if_neg (by rw [hid]; exact mb.ne_zero h.mirrors.mem), hid]
          leader := fun hr => by cases hr
          candidate := fun _ => by
            refine ⟨hvote, campaign_cand_self, hnot, fun q hq => ?_⟩
            have hq' : q = n := by
              rw [← hid]
              exact Finset.mem_singleton.mp hq
            rw [hq']
            exact ⟨h.mirrors.mem, hvote⟩ }
      msgs := fun m hm => (h.msgs m hm).mono hext.toGrows
      secure := fun hS =>
        { commit := ((h.secure hS).commit.grows hext.toGrows).mono (Nat.le_succ _) le_rfl
            List.prefix_rfl
          snap_le_commit := (h.secure hS).snap_le_commit
          leads := fun hr => by cases hr }
      msgsSafe := fun hS m hm => (h.msgsSafe hS m hm).mono hext.toGrows }

/-- **`becomeCandidate` is `campaign`**, followed by the vote requests, or by the election itself if
the node is alone. -/
theorem becomeCandidate (h : Live S mb A n r.view) :
    ∃ r', r.becomeCandidate = some r' ∧ Quiet S mb A n r r' := by
  obtain ⟨A₁, hlive₁, hmove₁, hlog₁, hd₁⟩ := h.campaigned
  rw [Raft.becomeCandidate]
  split_ifs with hnil
  · obtain ⟨r', hrun, hq⟩ := hlive₁.becomeLeader rfl (by
      rw [Raft.hasMajorityCount_iff, show r.campaigning.peers = [] from hnil]
      exact le_of_eq (Finset.card_singleton _).symm)
    obtain ⟨A₂, hlive₂, hmove₂, hlog₂, hd₂⟩ := hq
    exact ⟨r', hrun, A₂, hlive₂, hmove₁.trans hmove₂, hlog₂.trans hlog₁, hd₂.trans hd₁⟩
  · obtain ⟨r', hrun, ⟨ms, hr'⟩, hlive'⟩ := hlive₁.sendVoteRequests (Or.inr ⟨rfl, rfl⟩)
    exact ⟨r', hrun, A₁, hlive', hmove₁, hlog₁, by rw [hr']; exact hd₁⟩

/-- `becomePreCandidate` asks around without moving. -/
theorem becomePreCandidate (h : Live S mb A n r.view) :
    ∃ r', r.becomePreCandidate = some r' ∧ Quiet S mb A n r r' := by
  have hlive₁ : Live S mb A n r.polling.view :=
    { good := h.good
      mirrors :=
        { __ := h.mirrors
          leader := fun hr => by cases hr
          candidate := fun hr => by cases hr }
      msgs := h.msgs
      secure := fun hS => { __ := h.secure hS, leads := fun hr => by cases hr }
      msgsSafe := h.msgsSafe }
  rw [Raft.becomePreCandidate]
  split_ifs with hnil
  · obtain ⟨r', hrun, A₂, hlive₂, hmove₂, hlog₂, hd₂⟩ := hlive₁.becomeCandidate
    exact ⟨r', hrun, A₂, hlive₂, hmove₂, hlog₂, hd₂⟩
  · obtain ⟨r', hrun, ⟨ms, hr'⟩, hlive'⟩ := hlive₁.sendVoteRequests (Or.inl rfl)
    exact ⟨r', hrun, hlive'.quiet (by rw [hr']; rfl)⟩

end Live

end KvStore
