import KvStore.Machine.Run
import KvStore.Raft.Storage
import Mathlib

/-!
# A cluster of Raft nodes

The nodes of `raft/node.go` around a network, as a step function `Cluster.step`. One step is one
call on one node followed by its `Persist`, whose messages then enter the network.

* The network is every message ever sent. A message may be delivered at any time and any number of
  times, or never: this is loss, duplication and reordering.
* `Action.run n op none` is the call `op` on node `n` and a `Persist` that completes;
  `Action.run n op (some k)` is one whose process dies inside `Persist`, after `k` writes.
* `Action.compact` is a `CreateSnapshot` whose `Persist` is left to the next call, as the server's
  `maybeSnapshot` does it.
* A process that dies, or a call that panics, is followed by `OpenNode` on what its storage holds. A
  node that stays down is one that takes no step.

`Fifo` is the same cluster on links that deliver in order: a message is taken from the front of its
link, where it is delivered or lost.
-/

namespace KvStore

open Machine

/-- The members of a cluster: distinct ids, each configured with all the others as peers. -/
structure Members where
  ids : List ℕ
  config : ℕ → Config
  nodup : ids.Nodup
  id_eq : ∀ n ∈ ids, (config n).id = n
  peers_perm : ∀ n ∈ ids, (config n).peers.Perm (ids.erase n)
  valid : ∀ n ∈ ids, (config n).validate = .ok ()

/-- A call on a node. -/
inductive Op
  | tick
  | step (m : Message)
  | propose (datas : List Bytes)
  | readIndex (ctx : ℕ)
  | createSnapshot (index : ℕ) (data : Bytes)
  deriving DecidableEq

/-- The call's effect on the state machine; `none` is a panic. -/
def Op.run (r : Raft) : Op → Option Raft
  | .tick => r.tick
  | .step m => r.step m
  | .propose datas => (r.proposeBatch datas).map Prod.fst
  | .readIndex ctx => (r.requestReadIndex ctx).map Prod.fst
  | .createSnapshot index data => (r.createSnapshot index data).map Prod.fst

/-- What can happen to a cluster. -/
inductive Action
  | run (n : ℕ) (op : Op) (cut : Option ℕ)
  | compact (n : ℕ) (index : ℕ) (data : Bytes)
  | crash (n : ℕ)
  deriving DecidableEq

/-- The node an action is about. -/
def Action.node : Action → ℕ
  | .run n _ _ => n
  | .compact n _ _ => n
  | .crash n => n

/-- The nodes, every message ever sent, and every read state a `Persist` handed out, with its
node. -/
structure Cluster where
  nodes : ℕ → Node
  net : List Message
  reads : List (ℕ × ReadState)

namespace Cluster

/-- Node `n` becomes `nd`. -/
def setNode (c : Cluster) (n : ℕ) (nd : Node) : Cluster :=
  { c with nodes := Function.update c.nodes n nd }

/-- Node `n` is opened again on `storage`. -/
def restart (mb : Members) (c : Cluster) (n : ℕ) (storage : List Record) : Option Cluster :=
  match openNode (mb.config n) storage with
  | .ok (some (nd, _)) => some (c.setNode n nd)
  | _ => none

/-- A `Persist` of node `n`, its state machine being at `r`. -/
def finish (mb : Members) (c : Cluster) (n : ℕ) (r : Raft) : Option ℕ → Option Cluster
  | none =>
    match (⟨r, (c.nodes n).storage⟩ : Node).persist with
    | none => c.restart mb n (c.nodes n).storage
    | some (nd, rd) =>
      some {
        nodes := Function.update c.nodes n nd
        net := c.net ++ rd.messages
        reads := c.reads ++ rd.readStates.map fun rs => (n, rs) }
  | some k =>
    match (⟨r, (c.nodes n).storage⟩ : Node).persistCut k with
    | none => c.restart mb n (c.nodes n).storage
    | some storage => c.restart mb n storage

/-- A message can only be delivered once it has been sent. -/
def deliverable (c : Cluster) : Op → Prop
  | .step m => m ∈ c.net
  | _ => True

instance (c : Cluster) : ∀ op, Decidable (c.deliverable op)
  | .step m => inferInstanceAs (Decidable (m ∈ c.net))
  | .tick | .propose _ | .readIndex _ | .createSnapshot _ _ => .isTrue trivial

/-- One step of the cluster. -/
def step (mb : Members) (c : Cluster) : Action → Option Cluster
  | .run n op cut =>
    if n ∈ mb.ids ∧ c.deliverable op then
      match op.run (c.nodes n).r with
      | none => c.restart mb n (c.nodes n).storage
      | some r => c.finish mb n r cut
    else none
  | .compact n index data =>
    if n ∈ mb.ids then
      match (c.nodes n).r.createSnapshot index data with
      | none => c.restart mb n (c.nodes n).storage
      | some (r, _) => some (c.setNode n ⟨r, (c.nodes n).storage⟩)
    else none
  | .crash n => if n ∈ mb.ids then c.restart mb n (c.nodes n).storage else none

end Cluster

/-- Every node as `New` makes it, on an empty file. -/
def Cluster.init (mb : Members) : Cluster where
  nodes := fun n => ⟨Raft.start (mb.config n), []⟩
  net := []
  reads := []

/-- Take the actions one after another, from the start. -/
abbrev Cluster.Runs (mb : Members) (as : List Action) (c : Cluster) : Prop :=
  exec (Cluster.step mb) (Cluster.init mb) as = some c

/-! ## Three nodes -/

/-- Three nodes with ids one, two and three, and the shortest timeouts a configuration allows. -/
def Members.three : Members where
  ids := [1, 2, 3]
  config := fun n => ⟨n, [1, 2, 3].erase n, 2, 1, fun _ => 0⟩
  nodup := by decide
  id_eq := fun _ _ => rfl
  peers_perm := fun _ _ => List.Perm.refl _
  valid := by decide

/-- The four messages with which node `q` elects node `n`, whose log ends at `index` with `term`,
and what makes node `n` start: two ticks. -/
def electBy (n q oldTerm newTerm voterTerm index term : ℕ) : List Action :=
  [.run n .tick none, .run n .tick none,
    .run q (.step { type := .preVote, fromId := n, toId := q, term := oldTerm,
                    lastLogIndex := index, lastLogTerm := term }) none,
    .run n (.step { type := .preVoteResponse, fromId := q, toId := n, term := voterTerm,
                    voteGranted := true }) none,
    .run q (.step { type := .requestVote, fromId := n, toId := q, term := newTerm,
                    lastLogIndex := index, lastLogTerm := term }) none,
    .run n (.step { type := .requestVoteResponse, fromId := q, toId := n, term := newTerm,
                    voteGranted := true }) none]

/-- Node one of three is elected in term one and commits one entry with the help of node two. -/
def commitOne : List Action :=
  electBy 1 2 0 1 0 0 0 ++
  [.run 1 (.propose [[7]]) none,
    .run 2 (.step { type := .appendEntries, fromId := 1, toId := 2, term := 1,
                    entries := [⟨1, 1, [7]⟩] }) none,
    .run 1 (.step { type := .appendEntriesResponse, fromId := 2, toId := 1, term := 1,
                    success := true, matchIndex := 1 }) none]

/-! ## What a step can do -/

/-- What a step does to the cluster: a call whose `Persist` completes, a compaction, or the restart
of a node that died. -/
inductive Stepped (c : Cluster) : Action → Cluster → Prop
  | ran {n : ℕ} {op : Op} {r : Raft} {nd : Node} (run : op.run (c.nodes n).r = some r)
      (sent : c.deliverable op) (advance : r.advance = some nd.r) :
      Stepped c (.run n op none) {
        nodes := Function.update c.nodes n nd
        net := c.net ++ r.msgs
        reads := c.reads ++ r.readStates.map fun rs => (n, rs) }
  | compacted {n index : ℕ} {data : Bytes} {r : Raft} {err : Except Error Unit}
      (run : (c.nodes n).r.createSnapshot index data = some (r, err)) :
      Stepped c (.compact n index data) (c.setNode n ⟨r, (c.nodes n).storage⟩)
  | restarted {a : Action} {nd : Node} (role : nd.r.role = .follower)
      (pendingReads : nd.r.pendingReads = fun _ => none) (leaderID : nd.r.leaderID = 0) :
      Stepped c a (c.setNode a.node nd)

theorem Raft.ready_outbox {r : Raft} {rd : Ready} (h : r.ready = some rd) :
    rd.messages = r.msgs ∧ rd.readStates = r.readStates ∧
      rd.snapshotToApply = r.pendingSnapshotToApply ∧ rd.snapshot =
        if r.stableSnapshotIndex < r.snapshot.lastIncludedIndex then some r.snapshot else none := by
  simp only [Raft.ready, Option.bind_eq_bind, Option.bind_eq_some_iff, pure] at h
  obtain ⟨last, -, h⟩ := h
  by_cases hle : r.unstableIndex ≤ last
  · simp only [if_pos hle, Option.bind_eq_some_iff] at h
    obtain ⟨pos, -, es, -, first, -, h⟩ := h
    obtain rfl := Option.some.inj h
    exact ⟨rfl, rfl, rfl, rfl⟩
  · rw [if_neg hle] at h
    obtain rfl := Option.some.inj h
    exact ⟨rfl, rfl, rfl, rfl⟩

theorem Node.persist_cases {nd nd' : Node} {rd : Ready} (h : nd.persist = some (nd', rd)) :
    nd.r.advance = some nd'.r ∧ rd.messages = nd.r.msgs ∧ rd.readStates = nd.r.readStates ∧
      rd.snapshotToApply = nd.r.pendingSnapshotToApply := by
  simp only [Node.persist, Option.bind_eq_bind, Option.bind_eq_some_iff, pure] at h
  obtain ⟨rd', hrd, save, -, r, hr, h⟩ := h
  obtain ⟨rfl, rfl⟩ := Prod.mk.inj (Option.some.inj h)
  obtain ⟨hm, hreads, hsnap, -⟩ := Raft.ready_outbox hrd
  exact ⟨hr, hm, hreads, hsnap⟩

/-- What `Advance` keeps, and that nothing is handed over twice. -/
theorem Raft.advance_keeps {r r' : Raft} (h : r.advance = some r') :
    r'.log = r.log ∧ r'.commitIndex = r.commitIndex ∧ r'.snapshot = r.snapshot ∧
      r'.pendingReads = r.pendingReads ∧ r'.pendingSnapshotToApply = none := by
  obtain ⟨last, -, h⟩ := Option.bind_eq_some_iff.mp h
  obtain rfl := Option.some.inj h
  exact ⟨rfl, rfl, rfl, rfl, rfl⟩

theorem Raft.restoreState_eq {r r' : Raft} {hs : HardState} {entries : List LogEntry}
    (h : r.restoreState hs entries = some r') : ∃ log first u, r' = { r with
      currentTerm := hs.term, votedFor := hs.vote, stableTerm := hs.term, stableVote := hs.vote,
      log := log, commitIndex := if r.commitIndex < first then first else r.commitIndex,
      unstableIndex := u } ∧
      r'.firstIndex = some first := by
  simp only [Raft.restoreState, Option.bind_eq_bind, Option.bind_eq_some_iff, pure] at h
  obtain ⟨first, hfirst, last, -, h⟩ := h
  obtain rfl := Option.some.inj h
  exact ⟨_, first, _, rfl, hfirst⟩

/-- A node comes up with what its storage has, and with a snapshot if there is one. -/
theorem openNode_cases {cfg : Config} {d : List Record} {nd : Node} {snap : Option Snapshot}
    (h : openNode cfg d = .ok (some (nd, snap))) :
    ∃ r, (Raft.start cfg).restoreState (openStorage d).1 (openStorage d).2.1 = some r ∧
      ((replayAll d).snap.lastIncludedIndex = 0 ∧ nd = ⟨r, d⟩ ∧ snap = none ∨
        (replayAll d).snap.lastIncludedIndex ≠ 0 ∧ snap = some (replayAll d).snap ∧
          nd = ⟨{ r with snapshot := (replayAll d).snap,
                         stableSnapshotIndex := (replayAll d).snap.lastIncludedIndex }, d⟩) := by
  simp only [openNode, Raft.new, bind, Except.bind, pure, Except.pure] at h
  cases hv : cfg.validate with
  | error e => rw [hv] at h; cases h
  | ok u =>
    rw [hv] at h
    simp only [Except.ok.injEq, Option.bind_eq_some_iff] at h
    obtain ⟨r, hr, h⟩ := h
    refine ⟨r, hr, ?_⟩
    split_ifs at h with hpos
    · cases h
      exact Or.inr ⟨Nat.ne_zero_of_lt hpos, rfl, rfl⟩
    · cases h
      exact Or.inl ⟨Nat.eq_zero_of_not_pos hpos, rfl, rfl⟩

/-- A node comes up as a follower that knows of no read and of no leader. -/
theorem openNode_fresh {cfg : Config} {d : List Record} {nd : Node} {snap : Option Snapshot}
    (h : openNode cfg d = .ok (some (nd, snap))) :
    nd.r.role = .follower ∧ nd.r.pendingReads = (fun _ => none) ∧ nd.r.leaderID = 0 := by
  obtain ⟨r, hr, hcases⟩ := openNode_cases h
  obtain ⟨log, first, u, rfl, -⟩ := Raft.restoreState_eq hr
  rcases hcases with ⟨-, rfl, -⟩ | ⟨-, -, rfl⟩
  · exact ⟨rfl, rfl, rfl⟩
  · exact ⟨rfl, rfl, rfl⟩

namespace Cluster

variable {mb : Members} {c c' : Cluster} {a : Action}

theorem restart_cases {n : ℕ} {d : List Record} (h : c.restart mb n d = some c') :
    ∃ nd snap, openNode (mb.config n) d = .ok (some (nd, snap)) ∧ c' = c.setNode n nd := by
  unfold restart at h
  split at h
  · rename_i nd snap hopen
    exact ⟨nd, snap, hopen, (Option.some.inj h).symm⟩
  · cases h

theorem restarted_of {d : List Record} (h : c.restart mb a.node d = some c') : Stepped c a c' := by
  obtain ⟨nd, snap, hopen, rfl⟩ := restart_cases h
  obtain ⟨hrole, hreads, hleader⟩ := openNode_fresh hopen
  exact .restarted hrole hreads hleader

theorem step_mem (h : c.step mb a = some c') : a.node ∈ mb.ids := by
  cases a with
  | run n op cut =>
    rw [step] at h
    split_ifs at h with hn
    exact hn.1
  | compact n index data =>
    rw [step] at h
    split_ifs at h with hn
    exact hn
  | crash n =>
    rw [step] at h
    split_ifs at h with hn
    exact hn

/-- **What a step can do.** -/
theorem step_cases (h : c.step mb a = some c') : Stepped c a c' := by
  cases a with
  | run n op cut =>
    rw [step] at h
    split_ifs at h with hn
    cases hrun : op.run (c.nodes n).r with
    | none => rw [hrun] at h; exact restarted_of (a := .run n op cut) h
    | some r =>
      simp only [hrun] at h
      cases cut with
      | none =>
        unfold finish at h
        cases hp : (⟨r, (c.nodes n).storage⟩ : Node).persist with
        | none => simp only [hp] at h; exact restarted_of (a := .run n op none) h
        | some res =>
          obtain ⟨nd, rd⟩ := res
          simp only [hp] at h
          obtain ⟨hadv, hm, hr, -⟩ := Node.persist_cases hp
          obtain rfl := Option.some.inj h
          rw [hm, hr]
          exact .ran hrun hn.2 hadv
      | some k =>
        unfold finish at h
        cases hp : (⟨r, (c.nodes n).storage⟩ : Node).persistCut k with
        | none => simp only [hp] at h; exact restarted_of (a := .run n op (some k)) h
        | some d => simp only [hp] at h; exact restarted_of (a := .run n op (some k)) h
  | compact n index data =>
    rw [step] at h
    split_ifs at h with hn
    cases hrun : (c.nodes n).r.createSnapshot index data with
    | none => rw [hrun] at h; exact restarted_of (a := .compact n index data) h
    | some res =>
      obtain ⟨r, err⟩ := res
      simp only [hrun] at h
      obtain rfl := Option.some.inj h
      exact .compacted hrun
  | crash n =>
    rw [step] at h
    split_ifs at h with hn
    exact restarted_of (a := .crash n) h

end Cluster

/-! ## Links that keep their order -/

/-- A cluster with, for every ordered pair of nodes, the messages in flight between them. -/
structure Fifo where
  cluster : Cluster
  link : ℕ → ℕ → List Message

/-- What can happen to a cluster with ordered links: a step that delivers nothing, a delivery of the
first message of a link, the loss of one. -/
inductive FifoAction
  | act (a : Action)
  | deliver (src dst : ℕ) (cut : Option ℕ)
  | drop (src dst : ℕ)
  deriving DecidableEq

namespace Fifo

/-- The messages, each put at the end of its link. -/
def post (link : ℕ → ℕ → List Message) (ms : List Message) : ℕ → ℕ → List Message :=
  fun i j => link i j ++ ms.filter fun m => m.fromId = i ∧ m.toId = j

/-- The link from `src` to `dst` becomes `ms`. -/
def setLink (link : ℕ → ℕ → List Message) (src dst : ℕ) (ms : List Message) :
    ℕ → ℕ → List Message :=
  Function.update link src (Function.update (link src) dst ms)

/-- A step of the cluster, and what it sends put on the links. -/
def lift (mb : Members) (f : Fifo) (link : ℕ → ℕ → List Message) (a : Action) : Option Fifo := do
  let c ← f.cluster.step mb a
  return ⟨c, post link (c.net.drop f.cluster.net.length)⟩

/-- The cluster's step an action makes, if it makes one. -/
def inner (f : Fifo) : FifoAction → Option Action
  | .act (.run _ (.step _) _) => none
  | .act a => some a
  | .deliver src dst cut => (f.link src dst).head?.map fun m => .run dst (.step m) cut
  | .drop _ _ => none

/-- One step. -/
def step (mb : Members) (f : Fifo) (fa : FifoAction) : Option Fifo :=
  match fa with
  | .act a => (f.inner (.act a)).bind fun a => f.lift mb f.link a
  | .deliver src dst cut =>
    (f.inner (.deliver src dst cut)).bind fun a =>
      f.lift mb (setLink f.link src dst (f.link src dst).tail) a
  | .drop src dst =>
    if f.link src dst = [] then none
    else some ⟨f.cluster, setLink f.link src dst (f.link src dst).tail⟩

/-- Every node new, nothing in flight. -/
def init (mb : Members) : Fifo := ⟨Cluster.init mb, fun _ _ => []⟩

/-- Take the actions one after another, from the start. -/
abbrev Runs (mb : Members) (as : List FifoAction) (f : Fifo) : Prop :=
  exec (Fifo.step mb) (Fifo.init mb) as = some f

/-- The step the action makes in the cluster, if any, meets `P`. -/
def Allows (P : Cluster → Action → Prop) (f : Fifo) (fa : FifoAction) : Prop :=
  ∀ a, f.inner fa = some a → P f.cluster a

instance {P : Cluster → Action → Prop} [∀ c a, Decidable (P c a)] (f : Fifo) (fa : FifoAction) :
    Decidable (Allows P f fa) :=
  match h : f.inner fa with
  | none => .isTrue fun a ha => by rw [h] at ha; cases ha
  | some a => decidable_of_iff (P f.cluster a) ⟨fun hP b hb => by
      rw [h] at hb; cases hb; exact hP, fun hP => hP a h⟩

variable {mb : Members} {f f' : Fifo}

theorem lift_cluster {link : ℕ → ℕ → List Message} {a : Action} (h : f.lift mb link a = some f') :
    f.cluster.step mb a = some f'.cluster := by
  obtain ⟨c, hc, h⟩ := Option.bind_eq_some_iff.mp h
  obtain rfl := Option.some.inj h
  exact hc

/-- Node one of three is elected by node two, over ordered links. -/
def electOne : List FifoAction :=
  [.act (.run 1 .tick none), .act (.run 1 .tick none), .deliver 1 2 none, .deliver 2 1 none,
    .deliver 1 2 none, .deliver 2 1 none]

/-- A step is at most one step of the cluster. -/
theorem step_cluster {fa : FifoAction} (h : f.step mb fa = some f') :
    exec (Cluster.step mb) f.cluster (f.inner fa).toList = some f'.cluster := by
  cases fa with
  | act a =>
    obtain ⟨b, hb, h⟩ := Option.bind_eq_some_iff.mp h
    rw [hb, Option.toList_some, exec_singleton]
    exact lift_cluster h
  | deliver src dst cut =>
    obtain ⟨b, hb, h⟩ := Option.bind_eq_some_iff.mp h
    rw [hb, Option.toList_some, exec_singleton]
    exact lift_cluster h
  | drop src dst =>
    simp only [step] at h
    split_ifs at h
    obtain rfl := Option.some.inj h
    rfl

/-- **Ordered links are a restriction**: a run with them is a run of the cluster. -/
theorem project {P : Cluster → Action → Prop} {as : List FifoAction}
    (hP : Along (Fifo.step mb) (Allows P) f as) (h : exec (Fifo.step mb) f as = some f') :
    ∃ bs, exec (Cluster.step mb) f.cluster bs = some f'.cluster ∧
      Along (Cluster.step mb) P f.cluster bs := by
  refine exec_project (fun f fa => (f.inner fa).toList) (fun f fa f' hstep hall => ?_) hP h
  refine ⟨step_cluster hstep, ?_⟩
  cases ha : f.inner fa with
  | none => trivial
  | some a => exact along_cons.mpr ⟨hall a ha, fun _ _ => trivial⟩

end Fifo

end KvStore
