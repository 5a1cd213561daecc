import KvStore.Raft.StateMachineSafety
import KvStore.Raft.Turns

/-!
# ReadIndex

`RequestReadIndex` records the leader's commit index and answers once a majority has echoed its
context. The recorded index may be behind what other nodes have committed, if the leader has not yet
committed an entry of its own term:

* `read_index_misses_commit`: a new leader answers with index `0` after another node committed.
* `read_index_current`: if every leader that is asked has an entry of its own term at its commit
  index (`Action.Ready`) and no unsafe snapshot is processed, every answer is at least as high as
  any commit index in the cluster at the time of the call.

The proof has a static part (`Sim.commit_le_of_ready`): a majority of nodes that have not gone past
the leader's term keep anybody else from committing more. And a part about whole runs (`Asked`):
whoever is counted had not gone past the leader's term when the read was asked for, since only then
could it answer in that term.
-/

namespace KvStore

open Consensus Machine

variable {S : Prop} {mb : Members} {A A₀ : Abs} {n ctx t k i : ℕ} {c c' c₀ : Cluster} {a : Action}

/-! ## When the leader knows enough -/

/-- A leader that is asked for a read index has an entry of its own term at its commit index. -/
def Action.Ready (c : Cluster) : Action → Prop
  | .run n (.readIndex _) _ =>
    (c.nodes n).r.role = .leader →
      (c.nodes n).r.termAt (c.nodes n).r.commitIndex = some (c.nodes n).r.currentTerm
  | _ => True

instance (c : Cluster) : ∀ a : Action, Decidable (a.Ready c)
  | .run n (.readIndex _) _ => inferInstanceAs (Decidable ((c.nodes n).r.role = .leader →
      (c.nodes n).r.termAt (c.nodes n).r.commitIndex = some (c.nodes n).r.currentTerm))
  | .run _ .tick _ | .run _ (.step _) _ | .run _ (.propose _) _ | .run _ (.createSnapshot _ _) _
  | .compact _ _ _ | .crash _ => .isTrue trivial

/-- **Nothing more is committed** than a leader has committed that has an entry of its own term
there, as long as a majority has not gone past that term. -/
theorem Sim.backed_le_of_ready (h : Sim True mb c A) (hn : n ∈ mb.ids)
    (hr : (c.nodes n).r.role = .leader)
    (hready : (c.nodes n).r.termAt (c.nodes n).r.commitIndex = some (c.nodes n).r.currentTerm)
    {Q : Finset ℕ} (hQ : Majority mb.set Q)
    (hle : ∀ q ∈ Q, (c.nodes q).r.currentTerm ≤ (c.nodes n).r.currentTerm) {j : ℕ}
    {l : List LogEntry} (hb : Backed A t j l) : j ≤ (c.nodes n).r.commitIndex := by
  have hlive := (h.node n hn).live
  have hsec := hlive.secure trivial
  have hcommit : Backed A _ (c.nodes n).r.commitIndex (A.log n) := hsec.commit
  have hsafe := h.good.safe trivial
  have hwf := h.good.wf
  by_contra hgt
  rw [not_le] at hgt
  obtain ⟨u, -, hcom, hlen, -⟩ := hb.resolve_left (by omega)
  have hlead : A.leader u ≠ none := hwf.leader_of_com (by omega)
  rcases lt_trichotomy u (c.nodes n).r.currentTerm with hlt | heq | hgt'
  · -- committed in an earlier term: the leader has it, below its own entries
    have hpre := hsafe.com_isPrefix hlt (by rw [hlive.leader_eq hr]; simp)
    rw [hlive.hist_eq hr] at hpre
    have hterm : termAt LogEntry.term (A.log n) (c.nodes n).r.commitIndex =
        (c.nodes n).r.currentTerm := by
      have hfirst : (c.nodes n).r.snapshot.lastIncludedIndex ≤ (c.nodes n).r.commitIndex :=
        hsec.snap_le_commit
      rw [hlive.spans.termAt_of_le hfirst hcommit.le_length] at hready
      exact Option.some.inj hready
    have hmono : termAt LogEntry.term (A.log n) (c.nodes n).r.commitIndex ≤
        termAt LogEntry.term (A.log n) j :=
      hlive.canon_log.termAt_mono hwf.hist_le hgt.le
    have hk : termAt LogEntry.term (A.log n) j ≤ u := by
      rw [← termAt_of_isPrefix LogEntry.term hpre (by rw [List.length_take]; omega),
        termAt_take LogEntry.term hcom]
      exact termAt_le LogEntry.term (hwf.hist_le u) _
    omega
  · -- committed in the leader's own term
    have hcl : A.com (c.nodes n).r.currentTerm ≤ (c.nodes n).r.commitIndex := (hsec.leads hr).com_le
    rw [heq] at hcom
    omega
  · -- committed in a later term: a majority has voted in it
    obtain ⟨p, hp⟩ := Option.ne_none_iff_exists'.mp hlead
    obtain ⟨Q', hQ', hvotes⟩ := hwf.elected u p hp
    obtain ⟨q, hq, hq'⟩ := hQ.inter hQ'
    have hqt : A.term q = (c.nodes q).r.currentTerm :=
      (h.node q (Members.mem_set.mp (hQ.1 hq))).live.mirrors.term_eq
    have := hwf.vote_le q u p (hvotes q hq')
    have := hle q hq
    omega

/-- Nobody has committed more. -/
theorem Sim.commit_le_of_ready (h : Sim True mb c A) (hn : n ∈ mb.ids)
    (hr : (c.nodes n).r.role = .leader)
    (hready : (c.nodes n).r.termAt (c.nodes n).r.commitIndex = some (c.nodes n).r.currentTerm)
    {Q : Finset ℕ} (hQ : Majority mb.set Q)
    (hle : ∀ q ∈ Q, (c.nodes q).r.currentTerm ≤ (c.nodes n).r.currentTerm) {m : ℕ}
    (hm : m ∈ mb.ids) : (c.nodes m).r.commitIndex ≤ (c.nodes n).r.commitIndex :=
  h.backed_le_of_ready hn hr hready hQ hle (h.backed hm le_rfl)

/-! ## What a run knows about a read -/

/-- The action asks node `n` for a read with context `ctx`. -/
def Action.Asks (n ctx : ℕ) : Action → Prop
  | .run p (.readIndex x) _ => p = n ∧ x = ctx
  | _ => False

instance (n ctx : ℕ) : DecidablePred (Action.Asks n ctx)
  | .run p (.readIndex x) _ => inferInstanceAs (Decidable (p = n ∧ x = ctx))
  | .run _ .tick _ | .run _ (.step _) _ | .run _ (.propose _) _ | .run _ (.createSnapshot _ _) _
  | .compact _ _ _ | .crash _ => .isFalse id

/-- What the cluster holds of the read `ctx` of node `n`: requests and answers of term `t`, and
acknowledgements by nodes that are `ok`. Nothing at all, if `asked` is false. -/
structure Asked (mb : Members) (n ctx t k : ℕ) (ok : ℕ → Prop) (asked : Prop) (c : Cluster) :
    Prop where
  request : ∀ m ∈ c.net, m.type = .appendEntries → m.fromId = n → m.readContext = ctx →
    asked ∧ m.term = t
  reply : ∀ m ∈ c.net, m.type = .appendEntriesResponse → m.toId = n → m.readContext = ctx →
    asked ∧ ok m.fromId
  pending : ∀ pr, (c.nodes n).r.pendingReads ctx = some pr →
    asked ∧ pr.index = k ∧ ∀ q ∈ pr.acked, q ∈ mb.ids ∧ ok q
  read : ∀ i, (n, (⟨i, ctx⟩ : ReadState)) ∈ c.reads →
    asked ∧ i = k ∧ ∃ Q, Majority mb.set Q ∧ ∀ q ∈ Q, ok q

/-- Before the call there is nothing. -/
theorem asked_init (mb : Members) (n ctx t k : ℕ) (ok : ℕ → Prop) :
    Asked mb n ctx t k ok False (Cluster.init mb) where
  request := fun m hm => absurd hm List.not_mem_nil
  reply := fun m hm => absurd hm List.not_mem_nil
  pending := fun pr hpr => by cases hpr
  read := fun i hi => absurd hi List.not_mem_nil

/-- A majority of acknowledgements is a majority. -/
theorem Sim.majority_acked (h : Sim S mb c A) (hn : n ∈ mb.ids) {Q : Finset ℕ}
    (hQ : ∀ q ∈ Q, q ∈ mb.ids) (hcard : (c.nodes n).r.hasMajorityCount Q.card = true) :
    Majority mb.set Q := by
  have hpeers : (c.nodes n).r.peers = (mb.config n).peers := (h.node n hn).live.mirrors.peers_eq
  refine mb.majority_of_card hn hQ ?_
  rw [← hpeers]
  exact of_decide_eq_true hcard

namespace Asked

variable {ok : ℕ → Prop} {asked asked' : Prop}

theorem of_false (h : Asked mb n ctx t k ok False c) (t' k' : ℕ) (ok' : ℕ → Prop) (asked' : Prop) :
    Asked mb n ctx t' k' ok' asked' c where
  request := fun m hm hty hsrc hc => (h.request m hm hty hsrc hc).1.elim
  reply := fun m hm hty hdst hc => (h.reply m hm hty hdst hc).1.elim
  pending := fun pr hpr => (h.pending pr hpr).1.elim
  read := fun i hi => (h.read i hi).1.elim

/-- A node that is replaced by one without outstanding reads. -/
theorem setNode (h : Asked mb n ctx t k ok asked c) {p : ℕ} {nd : Node}
    (hnd : nd.r.pendingReads = (c.nodes p).r.pendingReads ∨ nd.r.pendingReads = fun _ => none) :
    Asked mb n ctx t k ok asked (c.setNode p nd) where
  request := h.request
  reply := h.reply
  pending := fun pr hpr => by
    by_cases hpn : n = p
    · subst hpn
      simp only [Cluster.setNode, Function.update_self] at hpr
      rcases hnd with hnd | hnd
      · exact h.pending pr (by rw [← hnd]; exact hpr)
      · rw [hnd] at hpr
        cases hpr
    · simp only [Cluster.setNode, Function.update_of_ne hpn] at hpr
      exact h.pending pr hpr
  read := h.read

/-- A call and its `Persist`. If it is the call in question, it begins the read; a node that answers
a request is still in the request's term or below it. -/
theorem ran (h : Asked mb n ctx t k ok asked c) (hA : Sim S mb c A) (hctx : ctx ≠ 0)
    (hok : ∀ q ∈ mb.ids, (c.nodes q).r.currentTerm ≤ t → ok q) (himp : asked → asked') {p : ℕ}
    (hp : p ∈ mb.ids) {op : Op} {r' : Raft} {nd : Node} (hrun : op.run (c.nodes p).r = some r')
    (hsent : c.deliverable op) (hadv : r'.advance = some nd.r)
    (hcall : p = n → op = .readIndex ctx → (c.nodes p).r.role = .leader →
      asked' ∧ (c.nodes p).r.currentTerm = t ∧ (c.nodes p).r.commitIndex = k) :
    Asked mb n ctx t k ok asked' {
      nodes := Function.update c.nodes p nd
      net := c.net ++ r'.msgs
      reads := c.reads ++ r'.readStates.map fun rs => (p, rs) } := by
  have hturn := Op.run_turn hrun
  have hnode := hA.node p hp
  have hid : (c.nodes p).r.id = p := hnode.live.mirrors.id_eq
  have hself : (c.nodes p).r.currentTerm = t → ok p := fun ht => hok p hp ht.le
  refine ⟨?_, ?_, ?_, ?_⟩
  · intro m hm hty hsrc hc
    rcases List.mem_append.mp hm with hm | hm
    · exact (h.request m hm hty hsrc hc).imp_left himp
    · rcases hturn.context hnode.msgs_eq hm (hc ▸ hctx) with
        ⟨hop, hrole, -, hfrom, hterm⟩ | ⟨_, -, -, -, hecho⟩
      · obtain ⟨has, ht, -⟩ := hcall (by rw [← hsrc, hfrom, hid]) (hc ▸ hop) hrole
        exact ⟨has, hterm.trans ht⟩
      · rw [hecho.type] at hty
        cases hty
  · intro m hm hty hdst hc
    rcases List.mem_append.mp hm with hm | hm
    · exact (h.reply m hm hty hdst hc).imp_left himp
    · rcases hturn.context hnode.msgs_eq hm (hc ▸ hctx) with
        ⟨-, -, hae, -⟩ | ⟨q, rfl, hqty, hle, hecho⟩
      · rw [hae] at hty
        cases hty
      · -- the answer to a request of this node, and so of term `t`
        obtain ⟨has, ht⟩ := h.request q hsent hqty (hecho.dst.symm.trans hdst)
          (hecho.context.symm.trans hc)
        refine ⟨himp has, ?_⟩
        rw [hecho.src, hid]
        exact hok p hp (hle.trans ht.le)
  · intro pr hpr
    by_cases hpn : n = p
    · subst hpn
      simp only [Function.update_self, (Raft.advance_keeps hadv).2.2.2.1] at hpr
      rcases hturn.pending hpr with
        hold | ⟨hop, hrole, rfl⟩ | ⟨m, pr₀, rfl, hty, hdst, hc, hold, rfl⟩
      · exact (h.pending pr hold).imp_left himp
      · obtain ⟨has, ht, hk⟩ := hcall rfl hop hrole
        refine ⟨has, hk, fun q hq => ?_⟩
        rw [Finset.mem_singleton.mp hq, hid]
        exact ⟨hp, hself ht⟩
      · obtain ⟨has, hk, hacked⟩ := h.pending pr₀ hold
        obtain ⟨-, hmok⟩ := h.reply m hsent hty (hdst.trans hid) hc
        refine ⟨himp has, hk, fun q hq => ?_⟩
        rcases Finset.mem_insert.mp hq with rfl | hq
        · exact ⟨(hA.net m hsent).src, hmok⟩
        · exact hacked q hq
    · simp only [Function.update_of_ne hpn] at hpr
      exact (h.pending pr hpr).imp_left himp
  · intro i hi
    rcases List.mem_append.mp hi with hi | hi
    · exact (h.read i hi).imp_left himp
    · obtain ⟨rs, hrs, heq⟩ := List.mem_map.mp hi
      obtain ⟨rfl, rfl⟩ := Prod.mk.inj heq
      rcases hturn.answers hnode.reads_eq hrs with
        ⟨hop, hrole, hidx, halone⟩ | ⟨m, pr, rfl, hty, hdst, hc, hold, hidx, hmaj⟩
      · obtain ⟨has, ht, hk⟩ := hcall rfl hop hrole
        refine ⟨has, hidx.trans hk, {p}, hA.majority_acked hp ?_ halone, ?_⟩
        · intro q hq
          rw [Finset.mem_singleton.mp hq]
          exact hp
        · intro q hq
          rw [Finset.mem_singleton.mp hq]
          exact hself ht
      · obtain ⟨has, hk, hacked⟩ := h.pending pr hold
        obtain ⟨-, hmok⟩ := h.reply m hsent hty (hdst.trans hid) hc
        have hall : ∀ q ∈ insert m.fromId pr.acked, q ∈ mb.ids ∧ ok q := by
          intro q hq
          rcases Finset.mem_insert.mp hq with rfl | hq
          · exact ⟨(hA.net m hsent).src, hmok⟩
          · exact hacked q hq
        exact ⟨himp has, hidx.trans hk, _, hA.majority_acked hp (fun q hq => (hall q hq).1) hmaj,
          fun q hq => (hall q hq).2⟩

/-- A step other than the call itself. -/
theorem step (h : Asked mb n ctx t k ok asked c) (hA : Sim S mb c A) (hctx : ctx ≠ 0)
    (hok : ∀ q ∈ mb.ids, (c.nodes q).r.currentTerm ≤ t → ok q) (hnot : ¬a.Asks n ctx)
    (hstep : c.step mb a = some c') : Asked mb n ctx t k ok asked c' := by
  have hmem := Cluster.step_mem hstep
  cases Cluster.step_cases hstep with
  | ran hrun hsent hadv =>
    refine h.ran hA hctx hok id hmem hrun hsent hadv fun hp hop _ => ?_
    subst hop
    exact absurd ⟨hp, rfl⟩ hnot
  | compacted hrun =>
    exact h.setNode (Or.inl (Silent.createSnapshot hrun).1.pendingReads)
  | restarted hrole hreads => exact h.setNode (Or.inr hreads)

end Asked

/-- No unsafe snapshot is processed, and a leader that is asked is ready. -/
def Action.Current (c : Cluster) (a : Action) : Prop := a.Safe c ∧ a.Ready c

instance (c : Cluster) (a : Action) : Decidable (a.Current c) := inferInstanceAs (Decidable (_ ∧ _))

/-- **ReadIndex is linearizable** over runs whose steps are all `Current`: an answer to the read
`ctx` of node `n` is at least the commit index any node had when the read was asked for. -/
theorem read_index_current {as₀ as₁ : List Action} {c₁ c₂ : Cluster} {cut : Option ℕ}
    (h₀ : Cluster.Runs mb as₀ c₀) (hcall : c₀.step mb (.run n (.readIndex ctx) cut) = some c₁)
    (h₂ : exec (Cluster.step mb) c₁ as₁ = some c₂) (hctx : ctx ≠ 0)
    (huniq : ∀ a ∈ as₀ ++ as₁, ¬a.Asks n ctx)
    (hcur : Along (Cluster.step mb) (fun c a => a.Current c) (Cluster.init mb)
      (as₀ ++ .run n (.readIndex ctx) cut :: as₁)) :
    ∀ i, (n, (⟨i, ctx⟩ : ReadState)) ∈ c₂.reads →
      ∀ m ∈ mb.ids, (c₀.nodes m).r.commitIndex ≤ i := by
  obtain ⟨hcur₀, hcur₁⟩ := (along_append h₀).mp hcur
  obtain ⟨⟨hsafe, hready⟩, hcur₂⟩ := along_cons.mp hcur₁
  have hnot : ∀ (as : List Action) (c : Cluster), (∀ a ∈ as, a ∈ as₀ ++ as₁) →
      Along (Cluster.step mb) (fun _ a => ¬a.Asks n ctx) c as := fun as c has =>
    along_of_forall (fun a ha => huniq a (has a ha)) c
  -- up to the call there is nothing of the read
  have hbefore : (∃ A, Sim True mb c₀ A) ∧ Asked mb n ctx 0 0 (fun _ => True) False c₀ := by
    refine exec_induct (I := fun c => (∃ A, Sim True mb c A) ∧
      Asked mb n ctx 0 0 (fun _ => True) False c) ?_ ⟨⟨_, sim_init True mb⟩, asked_init ..⟩
      (along_and hcur₀ (hnot as₀ _ (by simp +contextual))) h₀
    rintro c a c' ⟨⟨A, hA⟩, has⟩ ⟨hc, hna⟩ hstep
    obtain ⟨A', hA', -⟩ := hA.step (fun _ => hc.1) hstep
    exact ⟨⟨A', hA'⟩, has.step hA hctx (fun _ _ _ => trivial) hna hstep⟩
  obtain ⟨⟨A₀, hA₀⟩, has₀⟩ := hbefore
  -- the call begins it
  have has₁ : Asked mb n ctx (c₀.nodes n).r.currentTerm (c₀.nodes n).r.commitIndex
      (fun q => (c₀.nodes q).r.currentTerm ≤ (c₀.nodes n).r.currentTerm)
      ((c₀.nodes n).r.role = .leader) c₁ := by
    have hstart := has₀.of_false (c₀.nodes n).r.currentTerm (c₀.nodes n).r.commitIndex
      (fun q => (c₀.nodes q).r.currentTerm ≤ (c₀.nodes n).r.currentTerm)
      ((c₀.nodes n).r.role = .leader)
    cases Cluster.step_cases hcall with
    | ran hrun hsent hadv =>
      exact hstart.ran hA₀ hctx (fun _ _ hle => hle) id (Cluster.step_mem hcall) hrun hsent hadv
        fun _ _ hl => ⟨hl, rfl, rfl⟩
    | restarted hrole hreads => exact hstart.setNode (Or.inr hreads)
  -- and the rest of the run keeps what it began with
  obtain ⟨A₁, hA₁, hmoves₁⟩ := hA₀.step (fun _ => hsafe) hcall
  have hafter : (∃ A, Sim True mb c₂ A ∧ Grows LogEntry.term A₀ A) ∧
      Asked mb n ctx (c₀.nodes n).r.currentTerm (c₀.nodes n).r.commitIndex
        (fun q => (c₀.nodes q).r.currentTerm ≤ (c₀.nodes n).r.currentTerm)
        ((c₀.nodes n).r.role = .leader) c₂ := by
    refine exec_induct (I := fun c => (∃ A, Sim True mb c A ∧ Grows LogEntry.term A₀ A) ∧
      Asked mb n ctx _ _ _ _ c) ?_ ⟨⟨A₁, hA₁, hmoves₁.toGrows⟩, has₁⟩
      (along_and (hcur₂ c₁ hcall) (hnot as₁ _ (by simp +contextual))) h₂
    rintro c a c' ⟨⟨A, hA, hg⟩, has⟩ ⟨hc, hna⟩ hstep
    obtain ⟨A', hA', hmoves⟩ := hA.step (fun _ => hc.1) hstep
    refine ⟨⟨A', hA', hg.trans hmoves.toGrows⟩, has.step hA hctx (fun q hq hle => ?_) hna hstep⟩
    exact (hA₀.term_le hA hg hq).trans hle
  intro i hi m hm
  obtain ⟨hl, rfl, Q, hQ, hle⟩ := hafter.2.read i hi
  exact hA₀.commit_le_of_ready (Cluster.step_mem hcall) hl (hready hl) hQ hle hm

/-- Node two echoes the context of node one's read. -/
def echoTwo : List Action :=
  [.run 2 (.step { type := .appendEntries, fromId := 1, toId := 2, term := 1, prevLogIndex := 1,
                   prevLogTerm := 1, leaderCommit := 1, readContext := 5 }) none,
    .run 1
                    (.step
                      { type := .appendEntriesResponse, fromId := 2, toId := 1, term := 1,
                        success := true, matchIndex := 1, readContext := 5 }) none]

theorem read_index_current_three : ∃ c₀ c₁ c₂, Cluster.Runs .three commitOne c₀ ∧
    c₀.step .three (.run 1 (.readIndex 5) none) = some c₁ ∧
    exec (Cluster.step .three) c₁ echoTwo = some c₂ ∧ (1, (⟨1, 5⟩ : ReadState)) ∈ c₂.reads ∧
    ∀ m ∈ Members.three.ids, (c₀.nodes m).r.commitIndex ≤ 1 := by
  have hrun : ((exec (Cluster.step .three) (Cluster.init .three) commitOne).bind fun c₀ =>
      (c₀.step .three (.run 1 (.readIndex 5) none)).bind fun c₁ =>
        (exec (Cluster.step .three) c₁ echoTwo).map fun c₂ =>
          decide ((1, (⟨1, 5⟩ : ReadState)) ∈ c₂.reads)) = some true := by
    decide +kernel
  have hcur : Along (Cluster.step .three) (fun c a => a.Current c) (Cluster.init .three)
      (commitOne ++ .run 1 (.readIndex 5) none :: echoTwo) := by
    decide +kernel
  obtain ⟨c₀, h₀, hrun⟩ := Option.bind_eq_some_iff.mp hrun
  obtain ⟨c₁, h₁, hrun⟩ := Option.bind_eq_some_iff.mp hrun
  obtain ⟨c₂, h₂, hrun⟩ := Option.map_eq_some_iff.mp hrun
  have hread := of_decide_eq_true hrun
  exact ⟨c₀, c₁, c₂, h₀, h₁, h₂, hread,
    read_index_current h₀ h₁ h₂ (by decide) (by decide) hcur 1 hread⟩

/-! ## A leader that does not know enough -/

/-- Node three echoes the context of node two's read, though it turns the entries down. -/
def echoThree : List Action :=
  [.run 3 (.step { type := .appendEntries, fromId := 2, toId := 3, term := 2, prevLogIndex := 1,
                   prevLogTerm := 1, readContext := 5 }) none,
    .run 2 (.step { type := .appendEntriesResponse, fromId := 3, toId := 2, term := 2,
                    readContext := 5 }) none]

/-- **A read that misses a commit.** Node one has committed index one. Node two is elected in the
next term, has the entry but does not know that it is committed, and answers the read with index
zero. -/
theorem read_index_misses_commit : ∃ c₀ c₁ c₂,
    Cluster.Runs .three (commitOne ++ electBy 2 3 1 2 0 1 1) c₀ ∧
    c₀.step .three (.run 2 (.readIndex 5) none) = some c₁ ∧
    exec (Cluster.step .three) c₁ echoThree = some c₂ ∧
    (c₀.nodes 1).r.commitIndex = 1 ∧ (2, (⟨0, 5⟩ : ReadState)) ∈ c₂.reads := by
  have hrun : ((exec (Cluster.step .three) (Cluster.init .three)
      (commitOne ++ electBy 2 3 1 2 0 1 1)).bind fun c₀ =>
      (c₀.step .three (.run 2 (.readIndex 5) none)).bind fun c₁ =>
        (exec (Cluster.step .three) c₁ echoThree).map fun c₂ =>
          decide ((c₀.nodes 1).r.commitIndex = 1 ∧ (2, (⟨0, 5⟩ : ReadState)) ∈ c₂.reads)) =
      some true := by
    decide +kernel
  obtain ⟨c₀, h₀, hrun⟩ := Option.bind_eq_some_iff.mp hrun
  obtain ⟨c₁, h₁, hrun⟩ := Option.bind_eq_some_iff.mp hrun
  obtain ⟨c₂, h₂, hrun⟩ := Option.map_eq_some_iff.mp hrun
  obtain ⟨hc, hread⟩ := of_decide_eq_true hrun
  exact ⟨c₀, c₁, c₂, h₀, h₁, h₂, hc, hread⟩

end KvStore
