import KvStore.Raft.Refinement
import KvStore.Server.Server

/-!
# A cluster of servers

Every node of the cluster runs a server; the servers share the network of `Cluster.lean`. One step
is a round of one server's event loop, or the death of a process, which is then started again as
`buildComponents` does it: the node is opened on its storage, the engine recovers some state, and a
stored snapshot is restored into it.

Next to the servers and the network a state keeps what a statement about the clients needs:

* `calls`: the channels made so far; a new call has a new one.
* `results`: everything sent on them, in all processes. `propose` also returns when `doneCh` is
  closed or its time is over; these answers, which say nothing of the request, are not in it.
* `given`: for every request that `ProposeBatch` has taken, the log entry it became.
* `committed`: every entry that, after some `Persist`, a node had in its log at or below its commit
  index.

`Servers.Runs.project`: a run of the servers is a run of the cluster of their nodes.

`LinkedServers` are the servers with links that deliver in order and may lose messages.
-/

namespace KvStore

open Machine

/-- The settings of a server. -/
structure ServerOptions where
  batchWindow : ℕ := 0
  maxBatchSize : ℕ := 64
  snapshotThreshold : ℕ := 10000

/-- The entries of the log at or below the commit index. -/
def Raft.committedEntries (r : Raft) : List LogEntry :=
  r.log.tail.filter fun e => e.index ≤ r.commitIndex

namespace Server

variable {ε : Type}

/-- The requests a round submits together. -/
def batch (s : Server ε) : Event → List ProposeRequest
  | .propose req => if { s with pending := s.pending ++ [req] }.full then s.pending ++ [req] else []
  | .batchTimer => s.pending
  | _ => []

/-- The entries `ProposeBatch` makes of the requests of a round. -/
def gives (s : Server ε) (ev : Event) : List (ℕ × LogEntry) :=
  match s.node.r.proposeBatch ((s.batch ev).map ProposeRequest.data) with
  | some (_, .ok indices) =>
    ((s.batch ev).zip indices).map fun p => (p.1.resultCh, ⟨s.node.r.currentTerm, p.2, p.1.data⟩)
  | _ => []

/-- The node after the `Persist` of a round. -/
def persisted (s : Server ε) (ev : Event) : Option Node :=
  match s.handle ev with
  | .ok (s, true) => s.node.persist.map Prod.fst
  | _ => none

variable [StorageEngine ε]

/-- `buildComponents`, `New` and `SeedAppliedIndex`, on an engine that has recovered `eng`; it
refuses to start if a stored snapshot cannot be restored. -/
def start (opts : ServerOptions) (nd : Node) (snap : Option Snapshot) (eng : ε) :
    Option (Server ε) :=
  let s (eng : ε) : Server ε :=
    { node := nd
      eng := eng
      batchWindow := opts.batchWindow
      maxBatchSize := opts.maxBatchSize
      snapshotThreshold := opts.snapshotThreshold }
  match snap with
  | none => some (s eng)
  | some snap =>
    match StorageEngine.restoreSnapshot eng snap.data with
    | (_, some _) => none
    | (eng, none) => some ((s eng).seedAppliedIndex snap.lastIncludedIndex)

end Server

/-- The servers, the network, and what has been said to clients. -/
structure Servers (ε : Type) where
  servers : ℕ → Server ε
  net : List Message := []
  calls : List ℕ := []
  results : List (ℕ × ApplyResult) := []
  given : List (ℕ × LogEntry) := []
  committed : List LogEntry := []

/-- What can happen: a round of a server, whose process may die inside `Persist`, or the death of a
process between two rounds. `recovered` is what the engine recovers if the process dies. -/
inductive ServersAction (ε : Type)
  | round (n : ℕ) (ev : Event) (cut : Option ℕ) (recovered : ε)
  | crash (n : ℕ) (recovered : ε)

namespace ServersAction

variable {ε : Type}

/-- The server that acts. -/
def node : ServersAction ε → ℕ
  | .round n _ _ _ => n
  | .crash n _ => n

/-- The event of the round. -/
def event : ServersAction ε → Option Event
  | .round _ ev _ _ => some ev
  | .crash _ _ => none

/-- What the engine recovers if the process dies. -/
def recovered : ServersAction ε → ε
  | .round _ _ _ recovered => recovered
  | .crash _ recovered => recovered

end ServersAction

namespace Servers

variable {ε : Type}

/-- The cluster of the servers' nodes. -/
def cluster (S : Servers ε) : Cluster := ⟨fun n => (S.servers n).node, S.net, []⟩

/-- The server `n` becomes `s`, and what it has put out is handed on. -/
def absorb (S : Servers ε) (n : ℕ) (s : Server ε) : Servers ε :=
  { S with
    servers := Function.update S.servers n { s with sent := [], results := [] }
    net := S.net ++ s.sent
    results := S.results ++ s.results }

/-- The event can reach the server `n`. -/
def Sees (S : Servers ε) (n : ℕ) (ev : Event) : Prop :=
  (S.servers n).sees ev ∧ match ev with
    | .recv m => m ∈ S.net
    | .propose req => req.resultCh ∉ S.calls
    | _ => True

instance (S : Servers ε) (n : ℕ) (ev : Event) : Decidable (S.Sees n ev) := by
  unfold Sees
  cases ev <;> infer_instance

/-- What the round says about clients before anything else happens. -/
def note (S : Servers ε) (n : ℕ) (ev : Event) : Servers ε :=
  { S with
    calls := match ev with
      | .propose req => req.resultCh :: S.calls
      | _ => S.calls
    given := S.given ++ (S.servers n).gives ev }

variable [StorageEngine ε]

/-- The server `n` is started again on `storage`. -/
def restart (mb : Members) (opts : ℕ → ServerOptions) (S : Servers ε) (n : ℕ)
    (storage : List Record) (recovered : ε) : Option (Servers ε) :=
  match openNode (mb.config n) storage with
  | .ok (some (nd, snap)) =>
    (Server.start (opts n) nd snap recovered).map fun s =>
      { S with servers := Function.update S.servers n s }
  | _ => none

/-- A round whose process does not die in `Persist`. -/
def finish (mb : Members) (opts : ℕ → ServerOptions) (S : Servers ε) (n : ℕ) (ev : Event)
    (recovered : ε) : Option (Servers ε) :=
  let S' := { S.note n ev with
    committed := S.committed ++
      ((S.servers n).persisted ev).elim [] fun nd => nd.r.committedEntries }
  match (S.servers n).round ev with
  | .ok s => some (S'.absorb n s)
  | .error s => (S'.absorb n s).restart mb opts n s.node.storage recovered

/-- A round whose process dies in `Persist`, after `k` writes. -/
def cutShort (mb : Members) (opts : ℕ → ServerOptions) (S : Servers ε) (n : ℕ) (ev : Event) (k : ℕ)
    (recovered : ε) : Option (Servers ε) :=
  match (S.servers n).handle ev with
  | .ok (s, true) =>
    (S.note n ev).restart mb opts n ((s.node.persistCut k).getD s.node.storage) recovered
  | _ => none

/-- One step. -/
def step (mb : Members) (opts : ℕ → ServerOptions) (S : Servers ε) :
    ServersAction ε → Option (Servers ε)
  | .round n ev cut recovered =>
    if n ∈ mb.ids ∧ S.Sees n ev then
      match cut with
      | none => S.finish mb opts n ev recovered
      | some k => S.cutShort mb opts n ev k recovered
    else none
  | .crash n recovered =>
    if n ∈ mb.ids then S.restart mb opts n (S.servers n).node.storage recovered else none

end Servers

/-- Every server new, on an empty file, with the engine `eng`. -/
def Servers.init {ε : Type} (mb : Members) (opts : ℕ → ServerOptions) (eng : ε) : Servers ε where
  servers := fun n =>
    { node := ⟨Raft.start (mb.config n), []⟩
      eng := eng
      batchWindow := (opts n).batchWindow
      maxBatchSize := (opts n).maxBatchSize
      snapshotThreshold := (opts n).snapshotThreshold }

/-- Take the actions one after another, from the start. -/
abbrev Servers.Runs {ε : Type} [StorageEngine ε] (mb : Members) (opts : ℕ → ServerOptions) (eng : ε)
    (as : List (ServersAction ε)) (S : Servers ε) : Prop :=
  exec (Servers.step mb opts) (Servers.init mb opts eng) as = some S

/-! ## Links that keep their order -/

/-- Servers with, for every ordered pair of them, the messages in flight between them. -/
structure LinkedServers (ε : Type) where
  all : Servers ε
  link : ℕ → ℕ → List Message := fun _ _ => []

/-- What can happen to servers with ordered links: a step that delivers nothing, a delivery of the
first message of a link, the loss of one. -/
inductive LinkedAction (ε : Type)
  | act (a : ServersAction ε)
  | deliver (src dst : ℕ) (cut : Option ℕ) (recovered : ε)
  | drop (src dst : ℕ)

namespace LinkedServers

variable {ε : Type}

/-- The servers' step an action makes, if it makes one. -/
def inner (f : LinkedServers ε) : LinkedAction ε → Option (ServersAction ε)
  | .act (.round _ (.recv _) _ _) => none
  | .act a => some a
  | .deliver src dst cut recovered =>
    (f.link src dst).head?.map fun m => .round dst (.recv m) cut recovered
  | .drop _ _ => none

variable [StorageEngine ε]

/-- A step of the servers, and what it sends put on the links. -/
def lift (mb : Members) (opts : ℕ → ServerOptions) (f : LinkedServers ε)
    (link : ℕ → ℕ → List Message) (a : ServersAction ε) : Option (LinkedServers ε) := do
  let S ← f.all.step mb opts a
  return ⟨S, Fifo.post link (S.net.drop f.all.net.length)⟩

/-- One step. -/
def step (mb : Members) (opts : ℕ → ServerOptions) (f : LinkedServers ε) (fa : LinkedAction ε) :
    Option (LinkedServers ε) :=
  match fa with
  | .act a => (f.inner (.act a)).bind fun a => f.lift mb opts f.link a
  | .deliver src dst cut recovered =>
    (f.inner (.deliver src dst cut recovered)).bind fun a =>
      f.lift mb opts (Fifo.setLink f.link src dst (f.link src dst).tail) a
  | .drop src dst =>
    if f.link src dst = [] then none
    else some ⟨f.all, Fifo.setLink f.link src dst (f.link src dst).tail⟩

/-- Take the actions one after another, from the start. -/
abbrev Runs (mb : Members) (opts : ℕ → ServerOptions) (eng : ε) (as : List (LinkedAction ε))
    (f : LinkedServers ε) : Prop :=
  exec (LinkedServers.step mb opts) ⟨Servers.init mb opts eng, fun _ _ => []⟩ as = some f

variable {mb : Members} {opts : ℕ → ServerOptions} {f f' : LinkedServers ε}

theorem lift_all {link : ℕ → ℕ → List Message} {a : ServersAction ε}
    (h : f.lift mb opts link a = some f') : f.all.step mb opts a = some f'.all := by
  obtain ⟨S, hS, h⟩ := Option.bind_eq_some_iff.mp h
  obtain rfl := Option.some.inj h
  exact hS

/-- A step is at most one step of the servers. -/
theorem step_all {fa : LinkedAction ε} (h : f.step mb opts fa = some f') :
    exec (Servers.step mb opts) f.all (f.inner fa).toList = some f'.all := by
  cases fa with
  | act a =>
    obtain ⟨b, hb, h⟩ := Option.bind_eq_some_iff.mp h
    rw [hb, Option.toList_some, exec_singleton]
    exact lift_all h
  | deliver src dst cut recovered =>
    obtain ⟨b, hb, h⟩ := Option.bind_eq_some_iff.mp h
    rw [hb, Option.toList_some, exec_singleton]
    exact lift_all h
  | drop src dst =>
    simp only [step] at h
    split_ifs at h
    obtain rfl := Option.some.inj h
    rfl

/-- **Ordered links are a restriction**: a run with them is a run of the servers. -/
theorem project {as : List (LinkedAction ε)}
    (h : exec (LinkedServers.step mb opts) f as = some f') :
    ∃ bs, exec (Servers.step mb opts) f.all bs = some f'.all := by
  obtain ⟨bs, hbs, -⟩ :=
    exec_project (P := fun _ _ => True) (Q := fun _ _ => True) (π := LinkedServers.all)
    (fun f fa => (f.inner fa).toList)
    (fun f fa f' hstep _ => ⟨step_all hstep, along_of_all (fun _ _ => trivial) _ _⟩)
    (along_of_all (fun _ _ => trivial) f as) h
  exact ⟨bs, hbs⟩

end LinkedServers

end KvStore
