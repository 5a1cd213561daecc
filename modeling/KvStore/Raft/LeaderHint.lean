import KvStore.Raft.Ballot
import KvStore.Raft.Verified

/-!
# The leader hint

`Status` reports the node that a node takes for the leader, and clients are sent to it. The hint is
set by an `AppendEntries` or `InstallSnapshot` and by winning an election, and cleared by an
election timeout. A higher term in any other message leaves it as it is: a leader that such a
message deposes goes on to name itself.

* `Hinted r op s`: what a call does to role, term and hint. `Op.run_hinted`: every call does one of
  these.
* `Cluster.Led`: the node is or was leader in the term, in a state of the run.
* `Action.KeepsHint`: no node with a hint learns of a higher term by another message than a
  leader's.
* `leader_hint_truthful`: along a run of such steps every hint names a leader of the node's term,
  and only a leader names itself.
* `deposed_leader_names_itself`: a leader that gets a vote request.
-/

namespace KvStore

open Machine

/-- `Status`, the struct. -/
structure Status where
  id : ℕ
  term : ℕ
  role : Role
  leader : ℕ
  commitIndex : ℕ
  lastLogIndex : ℕ
  deriving DecidableEq, Repr

/-- `Status`. -/
def Raft.status (r : Raft) : Option Status := do
  let last ← r.lastLogIndex
  return ⟨r.id, r.currentTerm, r.role, r.leaderID, r.commitIndex, last⟩

/-! ## What a call does to the hint -/

/-- A node's role and term, and the leader it knows of. -/
structure Hint where
  role : Role
  term : ℕ
  leader : ℕ

/-- A node's hint. -/
def Raft.hint (r : Raft) : Hint := ⟨r.role, r.currentTerm, r.leaderID⟩

/-- The outcomes of a call. -/
inductive Hinted (r : Raft) : Op → Hint → Prop
  | kept {op : Op} : Hinted r op r.hint
  | cleared {op : Op} {role : Role} {term : ℕ} : Hinted r op ⟨role, term, 0⟩
  | elected {op : Op} {term : ℕ} : Hinted r op ⟨.leader, term, r.id⟩
  | followed {m : Message} (type : m.type.FromLeader) (dst : m.toId = r.id) :
      Hinted r (.step m) ⟨.follower, m.term, m.fromId⟩
  | outrun {m : Message} (type : m.type.RaisesTerm) (dst : m.toId = r.id)
      (lt : r.currentTerm < m.term) : Hinted r (.step m) ⟨.follower, m.term, r.leaderID⟩

variable {r r' : Raft} {op : Op}

/-- **What a call does to the hint.** -/
theorem Op.run_hinted (h : op.run r = some r') : Hinted r op r'.hint := by
  cases Op.run_outcome h with
  | idle | waited | ticked | preVoted | counted | tallied | rejected | declined | answered =>
    exact .kept
  | beat _ round | asked _ round =>
    obtain ⟨ms, f, i, rfl, -⟩ := round.eq
    exact .kept
  | polled _ _ asks | campaigned _ _ _ _ _ asks =>
    obtain ⟨ms, rfl, -⟩ := asks
    exact .cleared
  | alone _ _ _ round | crowned _ _ _ _ _ _ round | elected _ _ _ _ _ _ round =>
    obtain ⟨ms, f, i, rfl, -⟩ := round.eq
    exact .elected
  | refused type dst hmeets | voted type dst hmeets =>
    rcases hmeets with rfl | ⟨lt, rfl⟩
    · exact .kept
    · exact .outrun (by rw [type]; decide) dst lt
  | outrun type dst lt => exact .outrun type dst lt
  | mismatched type dst => exact .followed (Or.inl type) dst
  | merged type dst _ _ _ _ run =>
    obtain ⟨log, u, rfl⟩ := Raft.mergeEntries_eq run
    exact .followed (Or.inl type) dst
  | acked _ _ _ _ hears run =>
    obtain ⟨states, reads, rfl⟩ := hears.eq
    obtain ⟨i, rfl, -⟩ := Raft.maybeAdvanceCommitIndex_eq run
    exact .kept
  | nacked _ _ _ _ hears run =>
    obtain ⟨states, reads, rfl⟩ := hears.eq
    obtain ⟨x, f, rfl, -⟩ := Raft.sendAppendEntries_eq run
    exact .kept
  | known type dst | installed type dst => exact .followed (Or.inr type) dst
  | received run =>
    obtain ⟨i, rfl, -⟩ := Raft.maybeAdvanceCommitIndex_eq run
    exact .kept
  | proposed _ append round =>
    obtain ⟨log, rfl⟩ := Raft.appendDatas_eq append
    obtain ⟨ms, f, i, rfl, -⟩ := round.eq
    exact .kept
  | compacted run =>
    rcases Raft.createSnapshot_eq run with ⟨rfl, -⟩ | ⟨-, log, u, snap, rfl⟩
    · exact .kept
    · exact .kept

/-! ## Runs -/

/-- Node `l` is or was leader in term `t`: in some state of the run. -/
def Cluster.Led (mb : Members) (as : List Action) (l t : ℕ) : Prop :=
  ∃ bs c, bs <+: as ∧ Cluster.Runs mb bs c ∧ (c.nodes l).r.role = .leader ∧
    (c.nodes l).r.currentTerm = t

/-- No node that has a hint takes over a higher term from a message that is not a leader's. -/
def Action.KeepsHint (c : Cluster) : Action → Prop
  | .run n (.step m) _ => m.toId = n → m.type.RaisesTerm → (c.nodes n).r.currentTerm < m.term →
      (c.nodes n).r.leaderID = 0
  | _ => True

instance (c : Cluster) : DecidablePred (Action.KeepsHint c)
  | .run n (.step m) _ => inferInstanceAs (Decidable (m.toId = n → m.type.RaisesTerm →
      (c.nodes n).r.currentTerm < m.term → (c.nodes n).r.leaderID = 0))
  | .run _ .tick _ | .run _ (.propose _) _ | .run _ (.readIndex _) _
  | .run _ (.createSnapshot _ _) _ | .compact .. | .crash _ => .isTrue trivial

variable {mb : Members} {as : List Action} {c c' : Cluster} {n : ℕ}

theorem Cluster.Led.mono {l t : ℕ} (h : Cluster.Led mb as l t) (a : Action) :
    Cluster.Led mb (as ++ [a]) l t := by
  obtain ⟨bs, c, hbs, hrun, hlead⟩ := h
  exact ⟨bs, c, hbs.trans (List.prefix_append as [a]), hrun, hlead⟩

/-- The hint names a leader of the term; a node that names itself leads. -/
def Hint.Truthful (mb : Members) (as : List Action) (n : ℕ) (s : Hint) : Prop :=
  s.leader ≠ 0 → Cluster.Led mb as s.leader s.term ∧ (s.leader = n → s.role = .leader)

/-- Every hint is truthful, and what only a leader sends was sent by a leader of its term. -/
structure Cluster.Truthful (mb : Members) (as : List Action) (c : Cluster) : Prop where
  runs : Cluster.Runs mb as c
  node : ∀ n ∈ mb.ids, (c.nodes n).r.hint.Truthful mb as n
  net : ∀ m ∈ c.net, m.type.FromLeader → Cluster.Led mb as m.fromId m.term

theorem Cluster.truthful_init (mb : Members) : Cluster.Truthful mb [] (Cluster.init mb) :=
  ⟨rfl, fun _ _ hne => absurd rfl hne, nofun⟩

/-- A call that keeps hints truthful, in a step that leads to a state `c'` of the run `as`. -/
theorem Hinted.truthful {s : Hint} (h : Hinted r op s) {a : Action} (hid : r.id = n)
    (hold : r.hint.Truthful mb as n) (hnet : ∀ m, op = .step m → m.type.FromLeader →
    Cluster.Led mb as m.fromId m.term ∧ m.fromId ≠ m.toId) (hkeeps : ∀ m, op = .step m →
    m.toId = n → m.type.RaisesTerm → r.currentTerm < m.term → r.leaderID = 0)
    (hruns : Cluster.Runs mb (as ++ [a]) c') (hself : (c'.nodes n).r.hint = s) :
    s.Truthful mb (as ++ [a]) n := by
  cases h with
  | kept => exact fun hne => ⟨(hold hne).1.mono a, (hold hne).2⟩
  | cleared => exact fun hne => absurd rfl hne
  | elected =>
    rw [hid] at hself ⊢
    exact fun _ =>
      ⟨⟨_, c', List.prefix_rfl, hruns, congrArg Hint.role hself, congrArg Hint.term hself⟩, fun _ =>
        rfl⟩
  | @followed m type dst =>
    obtain ⟨hled, hne⟩ := hnet m rfl type
    exact fun _ => ⟨hled.mono a, fun heq => absurd (heq.trans (dst.trans hid).symm) hne⟩
  | @outrun m type dst lt => exact fun hne => absurd (hkeeps m rfl (dst.trans hid) type lt) hne

/-- A step keeps hints truthful. -/
theorem Cluster.Truthful.step (h : Cluster.Truthful mb as c) {a : Action} (hkeeps : a.KeepsHint c)
    (hstep : c.step mb a = some c') : Cluster.Truthful mb (as ++ [a]) c' := by
  have hruns : Cluster.Runs mb (as ++ [a]) c' :=
    exec_append.mpr ⟨c, h.runs, by rw [exec_singleton]; exact hstep⟩
  have hn := Cluster.step_mem hstep
  obtain ⟨A, hsim⟩ := Cluster.Runs.sim h.runs
  have hother : ∀ q ∈ mb.ids, q ≠ a.node → (c'.nodes q).r.hint.Truthful mb (as ++ [a]) q :=
    fun q hq hne => by
    rw [Cluster.step_of_ne hstep hne]
    exact fun hne' => ⟨(h.node q hq hne').1.mono a, (h.node q hq hne').2⟩
  have hnode : (c'.nodes a.node).r.hint.Truthful mb (as ++ [a]) a.node → ∀ q ∈ mb.ids,
      (c'.nodes q).r.hint.Truthful mb (as ++ [a]) q := fun hself q hq => by
    by_cases heq : q = a.node
    · rw [heq]
      exact hself
    · exact hother q hq heq
  have hid : (c.nodes a.node).r.id = a.node := (hsim.node _ hn).live.mirrors.id_eq
  cases Cluster.step_cases hstep with
  | @ran n op r nd run sent advance =>
    simp only [Action.node] at hid hnode hn
    obtain ⟨last, -, hadvance⟩ := Option.bind_eq_some_iff.mp advance
    have hself : nd.r.hint = r.hint := by rw [← Option.some.inj hadvance]; rfl
    have hupdate : (Function.update c.nodes n nd n).r.hint = r.hint := by
      rw [Function.update_self, hself]
    refine ⟨hruns, hnode ?_, fun m hm hty => ?_⟩
    · show (Function.update c.nodes n nd n).r.hint.Truthful mb _ n
      rw [hupdate]
      refine (Op.run_hinted run).truthful hid (h.node n hn) ?_ ?_ hruns hupdate
      · rintro m rfl hty
        exact ⟨h.net m sent hty, (hsim.net m sent).ne⟩
      · rintro m rfl
        exact hkeeps
    · rcases List.mem_append.mp hm with hm | hm
      · exact (h.net m hm hty).mono _
      · -- the sender leads in the state that the step leads to
        have hnew : m ∉ (c.nodes n).r.msgs := by
          rw [(hsim.node n hn).msgs_eq]; exact List.not_mem_nil
        obtain ⟨⟨-, hterm, hrole⟩, -⟩ := (Op.run_sendsToEnd run m hm hty).resolve_left hnew
        have hsrc : m.fromId = n := ((Op.run_posted run m hm).resolve_left hnew).1.trans hid
        refine ⟨_, _, List.prefix_rfl, hruns, ?_⟩
        rw [hsrc, hterm]
        exact ⟨(congrArg Hint.role hupdate).trans hrole, congrArg Hint.term hupdate⟩
  | @compacted n index data r err run =>
    simp only [Action.node] at hid hnode hn
    refine ⟨hruns, hnode ?_, fun m hm hty => (h.net m hm hty).mono _⟩
    have hself : (c.setNode n ⟨r, (c.nodes n).storage⟩).nodes n = ⟨r, (c.nodes n).storage⟩ :=
      Function.update_self ..
    rw [hself]
    have hkept : r.hint = (c.nodes n).r.hint := by
      rcases Raft.createSnapshot_eq run with ⟨rfl, -⟩ | ⟨-, log, u, snap, rfl⟩ <;> rfl
    show r.hint.Truthful mb _ n
    rw [hkept]
    exact fun hne => ⟨(h.node n hn hne).1.mono _, (h.node n hn hne).2⟩
  | @restarted _ nd role pendingReads leaderID =>
    refine ⟨hruns, hnode ?_, fun m hm hty => (h.net m hm hty).mono _⟩
    have hself : (c.setNode a.node nd).nodes a.node = nd := Function.update_self ..
    rw [hself]
    exact fun hne => absurd leaderID hne

/-- **The leader hint is truthful**, if no node that has one takes over a higher term from a message
that is not a leader's. In every state of such a run, a leader that `Status` names is or was leader
in the term that it names, and a node that names itself is leader. -/
theorem leader_hint_truthful (hrun : Cluster.Runs mb as c)
    (hkeeps : Along (Cluster.step mb) Action.KeepsHint (Cluster.init mb) as) (hn : n ∈ mb.ids)
    {s : Status} (hs : (c.nodes n).r.status = some s) (hleader : s.leader ≠ 0) :
    Cluster.Led mb as s.leader s.term ∧ (s.leader = n → s.role = .leader) := by
  have htruthful : Cluster.Truthful mb as c := exec_history (I := Cluster.Truthful mb)
    (fun _ _ _ _ _ h hkeeps hstep => h.step hkeeps hstep) (Cluster.truthful_init mb) hkeeps hrun
  obtain ⟨last, -, hs⟩ := Option.bind_eq_some_iff.mp hs
  obtain rfl := Option.some.inj hs
  exact htruthful.node n hn hleader

/-- Node two of three has an entry of node one, and names it. -/
theorem leader_hint_truthful_three : ∃ c s, Cluster.Runs .three commitOne c ∧
    (c.nodes 2).r.status = some s ∧ s.leader = 1 ∧ Cluster.Led .three commitOne s.leader s.term ∧
    (s.leader = 2 → s.role = .leader) := by
  have hrun : ((exec (Cluster.step .three) (Cluster.init .three) commitOne).bind fun c =>
      (c.nodes 2).r.status.map fun s => decide (s.leader = 1 ∧
        Along (Cluster.step .three) Action.KeepsHint (Cluster.init .three) commitOne)) =
          some true := by
    decide +kernel
  obtain ⟨c, h, hrun⟩ := Option.bind_eq_some_iff.mp hrun
  obtain ⟨s, hs, hrun⟩ := Option.map_eq_some_iff.mp hrun
  obtain ⟨hleader, hkeeps⟩ := of_decide_eq_true hrun
  exact ⟨c, s, h, hs, hleader, leader_hint_truthful h hkeeps (by decide) hs
    (by rw [hleader]; decide)⟩

/-- Node one of three is elected in term one. Node two, which elected it, times out, gets the
pre-vote of node three and asks node one for its vote in term two. -/
def deposeOne : List Action :=
  electBy 1 2 0 1 0 0 0 ++ (electBy 2 3 1 2 0 0 0).take 4 ++
  [.run 1 (.step { type := .requestVote, fromId := 2, toId := 1, term := 2 }) none]

/-- Node one, a follower in term two, names itself, which never led that term. -/
theorem deposed_leader_names_itself : ∃ c s, Cluster.Runs .three deposeOne c ∧
    (c.nodes 1).r.status = some s ∧ s.leader = 1 ∧ s.role = .follower ∧
      ¬Cluster.Led .three deposeOne s.leader s.term := by
  have hrun : ((exec (Cluster.step .three) (Cluster.init .three) deposeOne).bind fun c =>
      (c.nodes 1).r.status.map fun s => decide (s.leader = 1 ∧ s.role = .follower ∧ s.term = 2)) =
        some true := by
    decide +kernel
  obtain ⟨c, h, hrun⟩ := Option.bind_eq_some_iff.mp hrun
  obtain ⟨s, hs, hrun⟩ := Option.map_eq_some_iff.mp hrun
  obtain ⟨hleader, hrole, hterm⟩ := of_decide_eq_true hrun
  have hnever : ∀ bs ∈ deposeOne.inits, (exec (Cluster.step .three) (Cluster.init .three) bs).all
      (fun c => decide ¬((c.nodes 1).r.role = .leader ∧ (c.nodes 1).r.currentTerm = 2)) = true := by
    decide +kernel
  refine ⟨c, s, h, hs, hleader, hrole, ?_⟩
  rw [hleader, hterm]
  rintro ⟨bs, c', hbs, hrun', hlead⟩
  have hall := hnever bs ((List.mem_inits bs deposeOne).mpr hbs)
  rw [show exec (Cluster.step .three) (Cluster.init .three) bs = some c' from hrun'] at hall
  exact of_decide_eq_true hall hlead

end KvStore
