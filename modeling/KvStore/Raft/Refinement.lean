import KvStore.Raft.Calls

/-!
# A cluster's runs are runs of the abstract protocol

The relation `Sim` between a cluster and an abstract state, and its two theorems.

* `Sim.step`: a step of the cluster is a sequence of moves of one node. A `Persist` that is cut
  short is one too: whatever it leaves on disk is a state the abstract node can be in
  (`Called.cut`).
* `Sim.run`: so is every run, from the start of the cluster and of the protocol.

Both come in the two strengths of `Simulation.lean`: with `S` false for every run, with `S` true for
runs whose snapshots are all installed safely (`Action.Safe`).
-/

namespace KvStore

open Consensus Machine Unsaved

variable {S : Prop} {mb : Members} {A A' : Abs} {n : ℕ} {r r' : Raft} {c c' : Cluster}

/-! ## Between calls -/

/-- The storage `d` is what node `n` can be opened on. -/
def Durable (S : Prop) (A : Abs) (n : ℕ) (d : List Record) : Prop :=
  ∃ hs b, Holds d hs (A.log n) b ∧ A.term n = hs.term ∧
    A.vote n hs.term = (if hs.vote = 0 then none else some hs.vote) ∧
    (S → Backed A hs.term b (A.log n))

/-- Node `n` between two calls: nothing to send, and its state is on disk. Only its snapshot may be
newer than the stored one. -/
structure NodeOk (S : Prop) (mb : Members) (A : Abs) (n : ℕ) (nd : Node) : Prop where
  live : Live S mb A n nd.r.view
  msgs_eq : nd.r.msgs = []
  reads_eq : nd.r.readStates = []
  unstable_eq : nd.r.unstableIndex = (A.log n).length + 1
  stable_term : nd.r.stableTerm = nd.r.currentTerm
  stable_vote : nd.r.stableVote = nd.r.votedFor
  stable_snap : nd.r.stableSnapshotIndex ≤ nd.r.snapshot.lastIncludedIndex
  holds : Holds nd.storage (hardState nd.r) (A.log n) nd.r.stableSnapshotIndex

/-- The cluster shows the abstract state. -/
structure Sim (S : Prop) (mb : Members) (c : Cluster) (A : Abs) : Prop where
  good : Good S mb A
  node : ∀ n ∈ mb.ids, NodeOk S mb A n (c.nodes n)
  net : ∀ m ∈ c.net, MsgOk mb A m
  netSafe : S → ∀ m ∈ c.net, MsgSafe A m

namespace NodeOk

variable {nd : Node}

theorem backed (h : NodeOk S mb A n nd) (hS : S) {k : ℕ}
    (hk : k ≤ nd.r.snapshot.lastIncludedIndex) : Backed A nd.r.currentTerm k (A.log n) :=
  (h.live.secure hS).commit.mono le_rfl (hk.trans (h.live.secure hS).snap_le_commit) List.prefix_rfl

theorem durable (h : NodeOk S mb A n nd) : Durable S A n nd.storage :=
  ⟨hardState nd.r, nd.r.stableSnapshotIndex, h.holds, h.live.mirrors.term_eq,
    h.live.mirrors.vote_eq, fun hS => h.backed hS h.stable_snap⟩

/-- A step of node `m` leaves the other nodes as they are. -/
theorem of_ne (h : NodeOk S mb A n nd) (hgood : Good S mb A') {m : ℕ}
    (he : Ext LogEntry.term m A A') (hne : n ≠ m) : NodeOk S mb A' n nd where
  live :=
    { good := hgood
      mirrors := h.live.mirrors.of_ne he hne
      msgs := fun x hx => (h.live.msgs x hx).mono he.toGrows
      secure := fun hS => (h.live.secure hS).of_ne h.live.mirrors he hne
      msgsSafe := fun hS x hx => (h.live.msgsSafe hS x hx).mono he.toGrows }
  msgs_eq := h.msgs_eq
  reads_eq := h.reads_eq
  unstable_eq := by rw [he.log_ne n hne]; exact h.unstable_eq
  stable_term := h.stable_term
  stable_vote := h.stable_vote
  stable_snap := h.stable_snap
  holds := by rw [he.log_ne n hne]; exact h.holds

end NodeOk

/-- **A restart gives back the node its storage stands for.** -/
theorem Durable.openNode {d : List Record} (hn : n ∈ mb.ids) (hgood : Good S mb A)
    (h : Durable S A n d) : ∃ nd snap, openNode (mb.config n) d = .ok (some (nd, snap)) ∧
      NodeOk S mb A n nd ∧ nd.r.role = .follower ∧ nd.r.pendingReads = fun _ => none := by
  obtain ⟨hs, b, hholds, hterm, hvote, hback⟩ := h
  obtain ⟨nd, snap, hopen, rfl, hr⟩ := hholds.openNode (mb.valid n hn)
  refine ⟨nd, snap, hopen, ?_, hr.role_eq, hr.pending_eq⟩
  have hno : ∀ {role : Role}, role ≠ .follower → nd.r.role ≠ role := fun hrole heq =>
    hrole (heq.symm.trans hr.role_eq)
  exact
    { live :=
        { good := hgood
          mirrors :=
            { mem := hn
              id_eq := hr.id_eq.trans (mb.id_eq n hn)
              peers_eq := hr.peers_eq
              term_eq := hterm.trans hr.term_eq.symm
              vote_eq := by
                show A.vote n nd.r.currentTerm = if nd.r.votedFor = 0 then none else
                  some nd.r.votedFor
                rw [hr.term_eq, hr.vote_eq, hvote]
              log_eq := by
                show nd.r.log = window (A.log n) nd.r.snapshot.lastIncludedIndex
                rw [hr.snap_index]
                exact hr.spans.log_eq
              snap_le := by
                show nd.r.snapshot.lastIncludedIndex ≤ _
                rw [hr.snap_index]
                exact hr.spans.le
              snap_term := by
                show nd.r.snapshot.lastIncludedTerm =
                  termAt LogEntry.term (A.log n) nd.r.snapshot.lastIncludedIndex
                rw [hr.snap_index]
                exact hr.snap_term
              leader := fun hl => absurd hl (hno (by simp))
              candidate := fun hl => absurd hl (hno (by simp)) }
          msgs := fun x hx => by
            rw [show nd.r.view.msgs = [] from hr.msgs_eq] at hx
            exact absurd hx List.not_mem_nil
          secure := fun hS =>
            { commit := by
                show Backed A nd.r.currentTerm nd.r.commitIndex (A.log n)
                rw [hr.commit_eq, hr.term_eq]
                exact hback hS
              snap_le_commit := (hr.snap_index.trans hr.commit_eq.symm).le
              leads := fun hl => absurd hl (hno (by simp)) }
          msgsSafe := fun _ x hx => by
            rw [show nd.r.view.msgs = [] from hr.msgs_eq] at hx
            exact absurd hx List.not_mem_nil }
      msgs_eq := hr.msgs_eq
      reads_eq := hr.reads_eq
      unstable_eq := hr.unstable_eq
      stable_term := hr.stable_term.trans hr.term_eq.symm
      stable_vote := hr.stable_vote.trans hr.vote_eq.symm
      stable_snap := (hr.stable_snap.trans hr.snap_index.symm).le
      holds := by
        rw [hr.stable_snap, hardState, hr.term_eq, hr.vote_eq]
        exact hholds }

/-! ## After a call -/

namespace Called

variable {nd : Node} {new : List LogEntry}

/-- The hard state of `A'` with the log `l` is a state that moves of node `n` lead to. -/
def Reaches (S : Prop) (mb : Members) (A : Abs) (n : ℕ) (new : List LogEntry) (A' : Abs)
    (l : List LogEntry) : Prop :=
  ∃ A₁, Good S mb A₁ ∧ Moves n new A A₁ ∧ A₁.log n = l ∧ A₁.term n = A'.term n ∧
    A₁.vote n (A'.term n) = A'.vote n (A'.term n)

/-- After a call, what is in memory against what is on disk. As long as the boundary has not moved,
the hard state may reach the disk without the log, and the log only in part. -/
theorem unsaved (h : Called S mb A n new nd.r r') (hnd : NodeOk S mb A n nd) : ∃ A',
    Live S mb A' n r'.view ∧ Moves n new A A' ∧
    Unsaved nd.storage (hardState nd.r) (A.log n) nd.r.stableSnapshotIndex r' (A'.log n)
      r'.snapshot.lastIncludedIndex ∧
    (r'.snapshot.lastIncludedIndex = nd.r.stableSnapshotIndex → Reaches S mb A n new A' (A.log n) ∧
      ∀ j, r'.unstableIndex ≤ (A'.log n).length → r'.unstableIndex - 1 ≤ j →
        Reaches S mb A n new A' ((A'.log n).take j)) := by
  have hsn := hnd.stable_snap
  cases h with
  | quiet hq =>
    obtain ⟨A', hlive, hmoves, hlog, hd⟩ := hq
    simp only [Raft.durable, Prod.mk.injEq] at hd
    obtain ⟨-, hsnap, hunst, hst, hsv, hss⟩ := hd
    have hle := hlive.spans.le
    have hu : r'.unstableIndex = (A'.log n).length + 1 := by rw [hunst, hnd.unstable_eq, hlog]
    exact ⟨A', hlive, hmoves.weaken,
      { holds := hnd.holds
        spans := hlive.spans
        snap_index := rfl
        snap_term := hlive.mirrors.snap_term
        stable_term := hst.trans hnd.stable_term
        stable_vote := hsv.trans hnd.stable_vote
        stable_snap := hss
        le := by rw [hsnap]; exact hsn
        lt_unstable := by omega
        unstable_le := by omega
        take_eq := fun _ => by rw [hlog]
        eq_of_lt := fun _ _ => hlog },
      fun _ => ⟨⟨A', hlive.good, hmoves.weaken, hlog, rfl, rfl⟩, fun j hule => by omega⟩⟩
  | shifted A' hlive hmoves hstable hlt hltu hule =>
    simp only [Raft.stable, Prod.mk.injEq] at hstable
    obtain ⟨hst, hsv, hss⟩ := hstable
    exact ⟨A', hlive, hmoves,
      { holds := hnd.holds
        spans := hlive.spans
        snap_index := rfl
        snap_term := hlive.mirrors.snap_term
        stable_term := hst.trans hnd.stable_term
        stable_vote := hsv.trans hnd.stable_vote
        stable_snap := hss
        le := by omega
        lt_unstable := hltu
        unstable_le := hule
        take_eq := fun heq => by omega
        eq_of_lt := fun heq => by omega },
      fun heq => by omega⟩
  | wrote A₁ A' hlive hgood₁ hmoves₁ hmoves hlog hterm hvote hstable hsnap hltu hule htake
      hhist hlead hkeeps =>
    simp only [Raft.stable, Prod.mk.injEq] at hstable
    obtain ⟨hst, hsv, hss⟩ := hstable
    have hterm' : A'.term n = r'.currentTerm := hlive.mirrors.term_eq
    refine ⟨A', hlive, hmoves₁.trans hmoves,
      { holds := hnd.holds
        spans := hlive.spans
        snap_index := rfl
        snap_term := hlive.mirrors.snap_term
        stable_term := hst.trans hnd.stable_term
        stable_vote := hsv.trans hnd.stable_vote
        stable_snap := hss
        le := by rw [hsnap]; exact hsn
        lt_unstable := by rw [hsnap]; exact hltu
        unstable_le := by omega
        take_eq := fun _ => htake
        eq_of_lt := fun _ _ => by omega },
      fun _ => ⟨⟨A₁, hgood₁, hmoves₁, hlog, by rw [hterm, hterm'], by rw [hterm', hvote]⟩,
        fun j _ hj => ?_⟩⟩
    refine ⟨A₁.store n ((A'.log n).take j), ?_, hmoves₁.trans (.of_hist_eq ext_store rfl),
      store_log_self, by rw [hterm']; exact hterm, by rw [hterm']; exact hvote⟩
    refine hgood₁.store ?_ (by rw [hterm]; exact hlead) fun _ p hp hpl => ?_
    · rw [hterm]
      exact (List.take_prefix _ _).trans hhist
    · -- a longer beginning keeps what a shorter one does
      exact (hkeeps p hp hpl).trans (List.take_prefix_take_left hj)

/-- **A call and its `Persist`.** -/
theorem persist (h : Called S mb A n new nd.r r') (hnd : NodeOk S mb A n nd) : ∃ A' d' rd nd',
    (⟨r', nd.storage⟩ : Node).persist = some (nd', rd) ∧
    nd' = ⟨{ r' with
      stableTerm := r'.currentTerm
      stableVote := r'.votedFor
      unstableIndex := (A'.log n).length + 1
      stableSnapshotIndex := r'.snapshot.lastIncludedIndex
      pendingSnapshotToApply := none
      msgs := []
      readStates := [] }, d'⟩ ∧
    rd.messages = r'.msgs ∧ rd.readStates = r'.readStates ∧
    rd.snapshotToApply = r'.pendingSnapshotToApply ∧
    Moves n new A A' ∧ NodeOk S mb A' n nd' ∧ Live S mb A' n r'.view := by
  obtain ⟨A', hlive, hmoves, hu, -⟩ := h.unsaved hnd
  obtain ⟨d', rd, hrun, hm, hreads, happly, hholds⟩ := hu.persist
  refine ⟨A', d', rd, _, hrun, rfl, hm, hreads, happly, hmoves, ?_, hlive⟩
  exact
    { live :=
        { good := hlive.good
          mirrors := { __ := hlive.mirrors }
          msgs := fun x hx => absurd hx List.not_mem_nil
          secure := fun hS =>
            { __ := hlive.secure hS
              leads := fun hr => { __ := (hlive.secure hS).leads hr } }
          msgsSafe := fun _ x hx => absurd hx List.not_mem_nil }
      msgs_eq := rfl
      reads_eq := rfl
      unstable_eq := rfl
      stable_term := rfl
      stable_vote := rfl
      stable_snap := le_rfl
      holds := hholds }

/-- What a node had on disk is still backed when its log keeps it. -/
theorem backed (hnd : NodeOk S mb A n nd) (hS : S) (hext : Ext LogEntry.term n A A')
    {l : List LogEntry} {j : ℕ} (hj : nd.r.stableSnapshotIndex ≤ j) (hl : (A.log n).take j <+: l) :
    Backed A' (A'.term n) nd.r.stableSnapshotIndex l := by
  have hb := (hnd.backed hS hnd.stable_snap).grows hext.toGrows
  have ht : nd.r.currentTerm ≤ A'.term n := by
    have : A.term n = nd.r.currentTerm := hnd.live.mirrors.term_eq
    rw [← this]
    exact hext.term_le n
  exact (hb.take hj).mono ht le_rfl hl

/-- **A call whose `Persist` is cut short**: what is left on disk is a state the abstract node can
be in. -/
theorem cut (h : Called S mb A n new nd.r r') (hnd : NodeOk S mb A n nd) (k : ℕ) : ∃ d',
    (⟨r', nd.storage⟩ : Node).persistCut k = some d' ∧
    ∃ A', Good S mb A' ∧ Moves n new A A' ∧ Durable S A' n d' := by
  obtain ⟨A', hlive, hmoves, hu, hreach⟩ := h.unsaved hnd
  obtain ⟨d', hrun, hd'⟩ := hu.persistCut k
  refine ⟨d', hrun, ?_⟩
  have hterm' : A'.term n = r'.currentTerm := hlive.mirrors.term_eq
  have hvote' : A'.vote n r'.currentTerm = if r'.votedFor = 0 then none else some r'.votedFor :=
    hlive.mirrors.vote_eq
  -- a state that is reached, with the log that is on disk
  have hcut : ∀ l j, Reaches S mb A n new A' l →
      Holds d' (hardState r') l nd.r.stableSnapshotIndex → nd.r.stableSnapshotIndex ≤ j →
        (A.log n).take j <+: l →
      ∃ A', Good S mb A' ∧ Moves n new A A' ∧ Durable S A' n d' := by
    rintro l j ⟨A₁, hgood₁, hmoves₁, rfl, hterm₁, hvote₁⟩ hholds hj hl
    refine ⟨A₁, hgood₁, hmoves₁, _, _, hholds, hterm₁.trans hterm', ?_, fun hS => ?_⟩
    · rw [hterm'] at hvote₁
      exact hvote₁.trans hvote'
    · rw [show (hardState r').term = A₁.term n from (hterm₁.trans hterm').symm]
      exact backed hnd hS hmoves₁.toExt hj hl
  rcases hd' with hold | ⟨hb, hhard⟩ | hnew | ⟨hb, hunst, j, hj, hjl, htorn⟩
  · -- nothing of it is on disk
    exact ⟨A, hnd.live.good, Moves.refl _ _, _, _, hold, hnd.live.mirrors.term_eq,
      hnd.live.mirrors.vote_eq, fun hS => hnd.backed hS hnd.stable_snap⟩
  · -- the hard state is, the log is the old one
    exact hcut _ _ (hreach hb).1 hhard hnd.holds.le (List.take_prefix _ _)
  · -- all of it
    refine ⟨A', hlive.good, hmoves, _, _, hnew, hterm', hvote', fun hS => ?_⟩
    exact (hlive.secure hS).commit.mono le_rfl (hlive.secure hS).snap_le_commit List.prefix_rfl
  · -- the hard state and a part of the new log
    have hlt := hu.lt_unstable
    refine hcut _ (r'.unstableIndex - 1) ((hreach hb).2 j hunst hj) htorn (by omega) ?_
    rw [← hu.take_eq hb]
    exact List.take_prefix_take_left hj

end Called

/-! ## Steps -/

/-- A step under which the safe half of the relation is kept. -/
def Action.Safe (c : Cluster) : Action → Prop
  | .run n op _ => op.Safe (c.nodes n).r
  | _ => True

instance (c : Cluster) : ∀ a : Action, Decidable (a.Safe c)
  | .run n op _ => inferInstanceAs (Decidable (op.Safe (c.nodes n).r))
  | .compact _ _ _ | .crash _ => .isTrue trivial

/-- The entries a step creates. -/
def Action.new (c : Cluster) : Action → List LogEntry
  | .run n op _ => op.new (c.nodes n).r
  | _ => []

namespace Sim

/-- One node has moved, and some messages may have been sent. -/
theorem move (h : Sim S mb c A) {new : List LogEntry} {nd : Node} (hmoves : Moves n new A A')
    (hnd : NodeOk S mb A' n nd) (hnodes : c'.nodes = Function.update c.nodes n nd)
    (hnet : ∀ m ∈ c'.net, m ∈ c.net ∨ MsgOk mb A' m ∧ (S → MsgSafe A' m)) : Sim S mb c' A' where
  good := hnd.live.good
  node := fun p hp => by
    rw [hnodes]
    by_cases hpn : p = n
    · subst hpn
      rw [Function.update_self]
      exact hnd
    · rw [Function.update_of_ne hpn]
      exact (h.node p hp).of_ne hnd.live.good hmoves.toExt hpn
  net := fun m hm => by
    rcases hnet m hm with hm | hm
    · exact (h.net m hm).mono hmoves.toGrows
    · exact hm.1
  netSafe := fun hS m hm => by
    rcases hnet m hm with hm | hm
    · exact (h.netSafe hS m hm).mono hmoves.toGrows
    · exact hm.2 hS

theorem restart (h : Sim S mb c A) (hn : n ∈ mb.ids) {new : List LogEntry} {d : List Record}
    (hgood : Good S mb A') (hmoves : Moves n new A A') (hd : Durable S A' n d)
    (hstep : c.restart mb n d = some c') : Sim S mb c' A' := by
  obtain ⟨nd, snap, hopen, rfl⟩ := Cluster.restart_cases hstep
  obtain ⟨nd', snap', hopen', hnd, -⟩ := hd.openNode hn hgood
  rw [hopen] at hopen'
  cases hopen'
  exact h.move hmoves hnd rfl fun m hm => Or.inl hm

/-- The node is opened again on what it had stored. -/
theorem restart_self (h : Sim S mb c A) (hn : n ∈ mb.ids)
    (hstep : c.restart mb n (c.nodes n).storage = some c') (new : List LogEntry) :
    ∃ A', Sim S mb c' A' ∧ Moves n new A A' :=
  ⟨A, h.restart hn h.good (Moves.refl new A) (h.node n hn).durable hstep, Moves.refl new A⟩

theorem called (h : Sim S mb c A) (hn : n ∈ mb.ids) {op : Op} (hdel : c.deliverable op)
    (hsafe : S → op.Safe (c.nodes n).r) (hrun : op.run (c.nodes n).r = some r') :
    Called S mb A n (op.new (c.nodes n).r) (c.nodes n).r r' := by
  refine (h.node n hn).live.called (h.node n hn).unstable_eq (fun m hm => ?_) hsafe hrun
  subst hm
  exact ⟨h.net m hdel, fun hS => h.netSafe hS m hdel⟩

theorem finish (h : Sim S mb c A) (hn : n ∈ mb.ids) {new : List LogEntry} {cut : Option ℕ}
    (hcall : Called S mb A n new (c.nodes n).r r') (hstep : c.finish mb n r' cut = some c') :
    ∃ A', Sim S mb c' A' ∧ Moves n new A A' := by
  unfold Cluster.finish at hstep
  cases cut with
  | none =>
    obtain ⟨A', d', rd, nd', hp, -, hm, -, -, hmoves, hnd', hlive⟩ := hcall.persist (h.node n hn)
    simp only [hp] at hstep
    obtain rfl := Option.some.inj hstep
    refine ⟨A', h.move hmoves hnd' rfl fun m hmem => ?_, hmoves⟩
    rcases List.mem_append.mp hmem with hmem | hmem
    · exact Or.inl hmem
    · rw [hm] at hmem
      exact Or.inr ⟨hlive.msgs m hmem, fun hS => hlive.msgsSafe hS m hmem⟩
  | some k =>
    obtain ⟨d', hp, A', hgood, hmoves, hdur⟩ := hcall.cut (h.node n hn) k
    simp only [hp] at hstep
    exact ⟨A', h.restart hn hgood hmoves hdur hstep, hmoves⟩

/-- A compaction that is not persisted yet. -/
theorem compact (h : Sim S mb c A) (hn : n ∈ mb.ids) {index : ℕ} {data : Bytes}
    {err : Except Error Unit} (hrun : (c.nodes n).r.createSnapshot index data = some (r', err)) :
    Sim S mb (c.setNode n ⟨r', (c.nodes n).storage⟩) A := by
  have hnd := h.node n hn
  refine h.move (Moves.refl [] A) ?_ rfl fun m hm => Or.inl hm
  rcases hnd.live.compacted hnd.unstable_eq hrun with rfl | ⟨log, snap, rfl, hlt, hlive⟩
  · exact hnd
  · exact
      { live := hlive
        msgs_eq := hnd.msgs_eq
        reads_eq := hnd.reads_eq
        unstable_eq := rfl
        stable_term := hnd.stable_term
        stable_vote := hnd.stable_vote
        stable_snap := hnd.stable_snap.trans hlt.le
        holds := hnd.holds }

/-- **A step of the cluster is a sequence of moves of one node.** -/
theorem step (h : Sim S mb c A) {a : Action} (hsafe : S → a.Safe c)
    (hstep : c.step mb a = some c') : ∃ A', Sim S mb c' A' ∧ Moves a.node (a.new c) A A' := by
  cases a with
  | run n op cut =>
    rw [Cluster.step] at hstep
    split_ifs at hstep with hn
    cases hrun : op.run (c.nodes n).r with
    | none =>
      rw [hrun] at hstep
      exact h.restart_self hn.1 hstep _
    | some r' =>
      simp only [hrun] at hstep
      exact h.finish hn.1 (h.called hn.1 hn.2 hsafe hrun) hstep
  | compact n index data =>
    rw [Cluster.step] at hstep
    split_ifs at hstep with hn
    cases hrun : (c.nodes n).r.createSnapshot index data with
    | none =>
      rw [hrun] at hstep
      exact h.restart_self hn hstep _
    | some res =>
      obtain ⟨r', err⟩ := res
      simp only [hrun] at hstep
      obtain rfl := Option.some.inj hstep
      exact ⟨A, h.compact hn hrun, Moves.refl _ _⟩
  | crash n =>
    rw [Cluster.step] at hstep
    split_ifs at hstep with hn
    exact h.restart_self hn hstep _

/-- **A run of the cluster is a run of the protocol.** -/
theorem run (h : Sim S mb c A) {as : List Action}
    (hsafe : Along (Cluster.step mb) (fun c a => S → a.Safe c) c as)
    (hrun : exec (Cluster.step mb) c as = some c') :
    ∃ A', Sim S mb c' A' ∧ Grows LogEntry.term A A' := by
  obtain ⟨A', h', hg, -⟩ := exec_simulates (fun c a c' A h hsafe hstep => by
    obtain ⟨A', h', hmoves⟩ := h.step hsafe hstep
    exact ⟨A', h', hmoves.toGrows⟩) h hsafe hrun
  exact ⟨A', h', hg⟩

/-- Terms only rise. -/
theorem term_le {c₀ : Cluster} {A₀ : Abs} (h₀ : Sim S mb c₀ A₀) (h : Sim S mb c A)
    (hg : Grows LogEntry.term A₀ A) {q : ℕ} (hq : q ∈ mb.ids) :
    (c₀.nodes q).r.currentTerm ≤ (c.nodes q).r.currentTerm := by
  have h1 : A₀.term q = (c₀.nodes q).r.currentTerm := (h₀.node q hq).live.mirrors.term_eq
  have h2 : A.term q = (c.nodes q).r.currentTerm := (h.node q hq).live.mirrors.term_eq
  rw [← h1, ← h2]
  exact hg.term_le q

end Sim

theorem sim_init (S : Prop) (mb : Members) : Sim S mb (Cluster.init mb) State.init := by
  have hgood : Good S mb State.init := ⟨wf_init, fun _ => indexed_nil 0, fun _ => safe_init⟩
  refine ⟨hgood, fun n hn => ?_, fun m hm => absurd hm List.not_mem_nil,
    fun _ m hm => absurd hm List.not_mem_nil⟩
  exact
    { live :=
        { good := hgood
          mirrors :=
            { mem := hn
              id_eq := mb.id_eq n hn
              peers_eq := rfl
              term_eq := rfl
              vote_eq := rfl
              log_eq := rfl
              snap_le := le_rfl
              snap_term := rfl
              leader := fun hl => by cases hl
              candidate := fun hl => by cases hl }
          msgs := fun m hm => absurd hm List.not_mem_nil
          secure := fun _ =>
            { commit := Backed.zero
              snap_le_commit := le_rfl
              leads := fun hl => by cases hl }
          msgsSafe := fun _ m hm => absurd hm List.not_mem_nil }
      msgs_eq := rfl
      reads_eq := rfl
      unstable_eq := rfl
      stable_term := rfl
      stable_vote := rfl
      stable_snap := le_rfl
      holds := holds_nil }

/-- Every run from the start, in the strength that needs no condition on it. -/
theorem Cluster.Runs.sim {as : List Action} (h : Cluster.Runs mb as c) : ∃ A, Sim False mb c A := by
  obtain ⟨A, hA, -⟩ := (sim_init False mb).run
    (along_of_all (fun _ _ => False.elim) _ as) h
  exact ⟨A, hA⟩

end KvStore
