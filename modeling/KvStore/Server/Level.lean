import KvStore.Raft.Progress
import KvStore.Server.Projection
import KvStore.Server.Pump

/-!
# Servers that keep up

Between two rounds, a server has applied exactly what its node has committed, as long as

* no node processes a snapshot that drops what it shares with the leader (`ServersAction.Safe`), and
* the engine restores every snapshot that its node has installed (`ServersAction.Restores`).

`Servers.InStep` is the invariant: the nodes show a state of the abstract protocol, in its safe
half, and every server is level with its node. `Servers.InStep.step` is its step lemma and
`Servers.Runs.inStep` its run lemma. `Shows.hands` says what the first half of a round and `Persist`
give to the second half, and `Servers.Change` what a step makes of one server.
-/

namespace KvStore

open Consensus Machine StorageEngine

/-! ## The node after `Persist` and after a restart -/

/-- A node comes up with its commit index at its boundary, and with the stored snapshot if there is
one. -/
theorem openNode_level {cfg : Config} {d : List Record} {nd : Node} {snap : Option Snapshot}
    (h : openNode cfg d = .ok (some (nd, snap))) :
    nd.storage = d ∧ nd.r.firstIndex = some nd.r.commitIndex ∧ nd.r.pendingSnapshotToApply = none ∧
      (snap = none ∧ nd.r.snapshot = {} ∧ (replayAll d).snap.lastIncludedIndex = 0 ∨
        snap = some nd.r.snapshot ∧ nd.r.snapshot = (replayAll d).snap ∧
          nd.r.snapshot.lastIncludedIndex ≠ 0) := by
  obtain ⟨r, hr, hcases⟩ := openNode_cases h
  obtain ⟨log, first, u, rfl, hfirst⟩ := Raft.restoreState_eq hr
  have hcommit : first = if (Raft.start cfg).commitIndex < first then first else
      (Raft.start cfg).commitIndex := by
    have hzero : (Raft.start cfg).commitIndex = 0 := rfl
    rw [hzero]
    split_ifs <;> omega
  rcases hcases with ⟨hzero, rfl, rfl⟩ | ⟨hpos, rfl, rfl⟩
  · exact ⟨rfl, hfirst.trans (congrArg some hcommit), rfl, Or.inl ⟨rfl, rfl, hzero⟩⟩
  · exact ⟨rfl, hfirst.trans (congrArg some hcommit), rfl, Or.inr ⟨rfl, rfl, hpos⟩⟩

/-! ## Conditions on a step -/

section Conditions

variable {ε : Type}

/-- The step processes no snapshot that drops what its receiver shares with the leader. -/
def ServersAction.Safe (S : Servers ε) : ServersAction ε → Prop
  | .round n (.recv m) _ _ => m.type = .installSnapshot → SafeInstall (S.servers n).node.r m
  | _ => True

instance (S : Servers ε) : ∀ a : ServersAction ε, Decidable (a.Safe S)
  | .round n (.recv m) _ _ =>
    inferInstanceAs (Decidable (m.type = .installSnapshot → SafeInstall (S.servers n).node.r m))
  | .round _ .tick _ _ | .round _ (.propose _) _ _ | .round _ (.readIndex _) _ _
  | .round _ .batchTimer _ _ | .round _ .closed _ _ | .round _ .stop _ _ | .crash _ _ =>
    .isTrue trivial

/-- The engine restores the snapshot that the step installs, if it installs one. -/
def ServersAction.Restores [StorageEngine ε] (S : Servers ε) : ServersAction ε → Prop
  | .round n (.recv m) _ _ => (S.servers n).node.r.Installs m →
    (restoreSnapshot (S.servers n).eng m.snapshot.data).2 = none
  | _ => True

instance [StorageEngine ε] (S : Servers ε) : ∀ a : ServersAction ε, Decidable (a.Restores S)
  | .round n (.recv m) _ _ => inferInstanceAs (Decidable ((S.servers n).node.r.Installs m →
      (restoreSnapshot (S.servers n).eng m.snapshot.data).2 = none))
  | .round _ .tick _ _ | .round _ (.propose _) _ _ | .round _ (.readIndex _) _ _
  | .round _ .batchTimer _ _ | .round _ .closed _ _ | .round _ .stop _ _ | .crash _ _ =>
    .isTrue trivial

end Conditions

namespace Servers

variable {ε : Type} {mb : Members} {opts : ℕ → ServerOptions} {S S' : Servers ε} {c : Cluster}
    {A : Abs} {n : ℕ}

/-- The cluster makes only safe steps for a safe step of the servers. -/
theorem permits_safe {a : ServersAction ε} (h : Shows S c) (ha : a.Safe S) :
    Permits (fun c a => a.Safe c) S c a.node a.event where
  run := fun ev hev op cut hmsg _ => by
    cases op with
    | step m =>
      obtain rfl := hmsg m rfl
      show m.type = .installSnapshot → SafeInstall (c.nodes a.node).r m
      rw [h.nodes]
      cases a with
      | round n ev' cut' recovered =>
        cases hev
        exact ha
      | crash => cases hev
    | tick | propose datas | readIndex ctx | createSnapshot index data => trivial
  compact := fun _ _ _ => trivial
  crash := fun _ => trivial

/-! ## The first half of a round -/

/-- The call of a safe round is safe. -/
theorem Shows.call_safe (h : Shows S c) {ev : Event}
    (hsafe : ∀ m, ev = .recv m → m.type = .installSnapshot → SafeInstall (S.servers n).node.r m) :
    ((S.servers n).call ev).Safe (c.nodes n).r := by
  rw [h.nodes]
  cases hop : (S.servers n).call ev with
  | step m => exact hsafe m (Server.call_step hop)
  | tick | propose datas | readIndex ctx | createSnapshot index data => trivial

/-- What `Persist` leaves and hands over in a round of server `n`: no snapshot, or one that the
round has installed, which ends where the commit index is. -/
inductive Hands (S : Servers ε) (n : ℕ) (ev : Event) (nd : Node) (rd : Ready) : Prop
  | nothing (toApply : rd.snapshotToApply = none)
      (snapshot : nd.r.snapshot = (S.servers n).node.r.snapshot)
    (commit : (S.servers n).node.r.commitIndex ≤ nd.r.commitIndex)
  | snapshot (m : Message) (ev_eq : ev = .recv m) (installs : (S.servers n).node.r.Installs m)
      (toApply : rd.snapshotToApply = some m.snapshot) (snapshot : nd.r.snapshot = m.snapshot)
      (boundary : (S.servers n).node.r.snapshot.lastIncludedIndex < m.snapshot.lastIncludedIndex)
      (le : (S.servers n).node.r.commitIndex ≤ m.snapshot.lastIncludedIndex)
      (commit : nd.r.commitIndex = m.snapshot.lastIncludedIndex)

/-- **The first half of a round**, in a cluster that is in the safe half of the protocol. -/
theorem Shows.hands (h : Shows S c) (hsim : Sim True mb c A) (hn : n ∈ mb.ids) {ev : Event}
    (hsees : S.Sees n ev) (hsafe : ∀ m, ev = .recv m → m.type = .installSnapshot →
      SafeInstall (S.servers n).node.r m)
    (hpend : (S.servers n).node.r.pendingSnapshotToApply = none) {s : Server ε} {nd : Node}
    {rd : Ready} (hh : (S.servers n).handle ev = .ok (s, true))
    (hp : s.node.persist = some (nd, rd)) : Hands S n ev nd rd := by
  have hrun := Server.handle_call hh
  have hmsg : ∀ m, (S.servers n).call ev = .step m → ev = .recv m := fun m => Server.call_step
  obtain ⟨hadv, -, -, htoApply⟩ := Node.persist_cases hp
  obtain ⟨-, hcommit, hsnap, -, -⟩ := Raft.advance_keeps hadv
  rw [← h.nodes] at hrun
  have hfwd := hsim.forward hn (h.deliverable hsees hmsg) (h.call_safe hsafe)
    (Server.call_ne_createSnapshot _ _) hrun
  rw [h.nodes] at hfwd
  generalize hop : (S.servers n).call ev = op at hfwd
  cases hfwd with
  | kept handed commit =>
    obtain ⟨hs', hp'⟩ := Prod.mk.inj handed
    exact .nothing (htoApply.trans (hp'.trans hpend)) (hsnap.trans hs') (commit.trans hcommit.ge)
  | installed installs handed boundary le commit =>
    obtain ⟨hs', hp'⟩ := Prod.mk.inj handed
    exact .snapshot _ (hmsg _ hop) installs (htoApply.trans hp') (hsnap.trans hs') boundary le
      (hcommit.trans commit)

end Servers

/-! ## Level servers -/

section Level

variable {ε : Type} {s s' : Server ε}

/-- The server has applied what its node has committed, and nothing is left to hand over. -/
structure Server.Level (s : Server ε) : Prop where
  applied : s.lastApplied = s.node.r.commitIndex
  pending : s.node.r.pendingSnapshotToApply = none

/-- Nothing has moved backwards from `s` to `s'`. -/
structure Server.Advances (s s' : Server ε) : Prop where
  commit : s.node.r.commitIndex ≤ s'.node.r.commitIndex
  first : ∃ i i', s.node.r.firstIndex = some i ∧ s'.node.r.firstIndex = some i' ∧ i ≤ i'
  applied : s.lastApplied ≤ s'.lastApplied

theorem Server.Advances.of_eq {i : ℕ} (hfirst : s.node.r.firstIndex = some i)
    (hnode : s'.node = s.node) (happ : s'.lastApplied = s.lastApplied) : s.Advances s' := by
  refine ⟨by rw [hnode], ⟨i, i, hfirst, by rw [hnode, hfirst], le_rfl⟩, happ.ge⟩

theorem Server.Advances.trans {s'' : Server ε} (h : s.Advances s') (h' : s'.Advances s'') :
    s.Advances s'' := by
  obtain ⟨i, i', hi, hi', hle⟩ := h.first
  obtain ⟨j, j', hj, hj', hle'⟩ := h'.first
  cases hi'.symm.trans hj
  exact ⟨h.commit.trans h'.commit, ⟨i, j', hi, hj', hle.trans hle'⟩, h.applied.trans h'.applied⟩

variable [StorageEngine ε]

/-- Whether or not `maybeSnapshot` compacts the log, the boundary does not go back. -/
theorem Server.maybeSnapshot_first (h : s.maybeSnapshot = .ok s') {i : ℕ}
    (hi : s.node.r.firstIndex = some i) : s'.lastApplied = s.lastApplied ∧
      s'.node.r.commitIndex = s.node.r.commitIndex ∧
      s'.node.r.pendingSnapshotToApply = s.node.r.pendingSnapshotToApply ∧
        ∃ i', s'.node.r.firstIndex = some i' ∧ i ≤ i' := by
  rcases maybeSnapshot_ok h with ⟨-, rfl⟩ | ⟨data, r, err, -, hrun, rfl⟩
  · exact ⟨rfl, rfl, rfl, i, hi, le_rfl⟩
  · cases err with
    | error e =>
      rcases Raft.createSnapshot_eq hrun with ⟨rfl, -⟩ | ⟨hok, -⟩
      · exact ⟨rfl, rfl, rfl, i, hi, le_rfl⟩
      · cases hok
    | ok u =>
      obtain ⟨hlt, hfirst, -, -, hcommit, hpend, -⟩ := Raft.createSnapshot_ok hrun
      rw [hi, Option.any_some] at hlt
      exact ⟨rfl, hcommit, hpend, _, hfirst, (of_decide_eq_true hlt).le⟩

end Level

namespace Servers

variable {ε : Type} {mb : Members} {opts : ℕ → ServerOptions} {S S' : Servers ε} {c : Cluster}
    {A : Abs} {n : ℕ}

/-- The nodes show a state of the protocol in its safe half, and every server is level with its
node. -/
structure InStep (mb : Members) (S : Servers ε) (c : Cluster) (A : Abs) : Prop where
  shows : Shows S c
  sim : Sim True mb c A
  level : ∀ n ∈ mb.ids, (S.servers n).Level

/-- What the second half of a round starts from: the entries it applies are those of the node's log
from `lastApplied` to the commit index, and none of them has been compacted away. -/
structure Applies (mb : Members) (S : Servers ε) (A : Abs) (n : ℕ) (ev : Event) (nd : Node)
    (rd : Ready) (d : Server ε) (A₁ : Abs) : Prop where
  hands : Hands S n ev nd rd
  ok : NodeOk True mb A₁ n nd
  grows : Grows LogEntry.term A A₁
  node : d.node = nd
  boundary : nd.r.snapshot.lastIncludedIndex ≤ d.lastApplied
  le : d.lastApplied ≤ nd.r.commitIndex
  applied : (S.servers n).lastApplied ≤ d.lastApplied

namespace Applies

variable {ev : Event} {nd : Node} {rd : Ready} {d s₁ : Server ε} {A₁ : Abs}

theorem spans (h : Applies mb S A n ev nd rd d A₁) :
    Spans d.node.r (A₁.log n) nd.r.snapshot.lastIncludedIndex := by
  rw [h.node]
  exact h.ok.live.spans

theorem commit_le (h : Applies mb S A n ev nd rd d A₁) : nd.r.commitIndex ≤ (A₁.log n).length :=
  (h.ok.live.secure trivial).commit.le_length

variable [StorageEngine ε]

/-- What is applied. -/
theorem applied_eq (h : Applies mb S A n ev nd rd d A₁) (happ : d.applyCommitted = .ok s₁) :
    s₁ = d.applyEntries (((A₁.log n).take nd.r.commitIndex).drop d.lastApplied) := by
  have heq := Server.applyCommitted_eq h.spans h.boundary happ
  rwa [h.node] at heq

/-- After it has applied the entries the server is level. -/
theorem caught_up (h : Applies mb S A n ev nd rd d A₁) (happ : d.applyCommitted = .ok s₁) :
    s₁.lastApplied = nd.r.commitIndex ∧ s₁.node = nd := by
  have hlen : ((A₁.log n).take nd.r.commitIndex).length = nd.r.commitIndex :=
    List.length_take_of_le h.commit_le
  have hidx : Indexed ((A₁.log n).take nd.r.commitIndex) :=
    h.spans.indexed.of_isPrefix (List.take_prefix _ _)
  obtain ⟨w, rs, heq⟩ := d.applyEntries_eq (((A₁.log n).take nd.r.commitIndex).drop d.lastApplied)
  rw [h.applied_eq happ]
  refine ⟨?_, by rw [heq]; exact h.node⟩
  rw [d.applyEntries_lastApplied hidx, hlen, max_eq_right h.le]

end Applies

namespace InStep

theorem commit_le (h : InStep mb S c A) (hn : n ∈ mb.ids) :
    (S.servers n).node.r.commitIndex ≤ (A.log n).length := by
  have hlive := (h.sim.node n hn).live
  rw [h.shows.nodes] at hlive
  exact (hlive.secure trivial).commit.le_length

theorem spans (h : InStep mb S c A) (hn : n ∈ mb.ids) :
    Spans (S.servers n).node.r (A.log n) (S.servers n).node.r.snapshot.lastIncludedIndex := by
  have hlive := (h.sim.node n hn).live
  rw [h.shows.nodes] at hlive
  exact hlive.spans

theorem boundary_le (h : InStep mb S c A) (hn : n ∈ mb.ids) :
    (S.servers n).node.r.snapshot.lastIncludedIndex ≤ (S.servers n).node.r.commitIndex := by
  have hlive := (h.sim.node n hn).live
  rw [h.shows.nodes] at hlive
  exact (hlive.secure trivial).snap_le_commit

variable [StorageEngine ε]

/-- **A round up to where it applies entries**, whatever state of the protocol the node then
shows. -/
theorem applies (h : InStep mb S c A) (hn : n ∈ mb.ids) {ev : Event} {recovered : ε}
    {cut : Option ℕ} (ha : (ServersAction.round n ev cut recovered).Safe S)
    (hr : (ServersAction.round n ev cut recovered).Restores S) (hsees : S.Sees n ev) {s : Server ε}
    {nd : Node} {rd : Ready} (hh : (S.servers n).handle ev = .ok (s, true))
    (hp : s.node.persist = some (nd, rd)) {A₁ : Abs} (hok : NodeOk True mb A₁ n nd)
    (hgrows : Grows LogEntry.term A A₁) : Applies mb S A n ev nd rd (s.delivered nd rd) A₁ := by
  have hlevel := h.level n hn
  obtain ⟨hleaves, -⟩ := Server.handle_leaves hh
  have hhands :=
    h.shows.hands h.sim hn hsees (fun m hev => by subst hev; exact ha) hlevel.pending hh hp
  cases hhands with
  | nothing toApply snapshot commit =>
    have hd : s.delivered nd rd = { s with node := nd, sent := s.sent ++ rd.messages } :=
      Server.delivered_of_none toApply
    refine ⟨.nothing toApply snapshot commit, hok, hgrows, ?_, ?_, ?_, ?_⟩
    · rw [hd]
    · rw [hd, snapshot]
      show _ ≤ s.lastApplied
      rw [hleaves.applied, hlevel.applied]
      exact h.boundary_le hn
    · rw [hd]
      show s.lastApplied ≤ _
      rw [hleaves.applied, hlevel.applied]
      exact commit
    · rw [hd]
      exact hleaves.applied.ge
  | snapshot m ev_eq installs toApply snapshot boundary le commit =>
    subst ev_eq
    have hres := hr installs
    rw [← hleaves.eng] at hres
    have hd := s.delivered_of_some nd toApply hres
    refine ⟨.snapshot m rfl installs toApply snapshot boundary le commit, hok, hgrows, ?_,
      ?_, ?_, ?_⟩
    · rw [hd]
    · rw [hd, snapshot]
    · rw [hd, commit]
    · rw [hd, hlevel.applied]
      exact le

/-- What a round that does not panic starts applying from, in the state of the protocol that the
servers show after it. -/
theorem shows_pumped (h : InStep mb S c A) (hn : n ∈ mb.ids) {ev : Event} {recovered : ε}
    {cut : Option ℕ} (ha : (ServersAction.round n ev cut recovered).Safe S)
    (hr : (ServersAction.round n ev cut recovered).Restores S) (hsees : S.Sees n ev)
    {s s' : Server ε} {nd : Node} {rd : Ready} (hh : (S.servers n).handle ev = .ok (s, true))
    (hp : s.node.persist = some (nd, rd)) (hs : s.pumped nd rd = .ok s') :
    ∃ c' A₁, Shows ({ S.note n ev with committed := S.committed ++ nd.r.committedEntries }.absorb
      n s') c' ∧ Sim True mb c' A₁ ∧ Applies mb S A n ev nd rd (s.delivered nd rd) A₁ := by
  obtain ⟨op, c₁, c', hmsg, hnew, hstep, hnd, hshows, hc'⟩ := h.shows.pumped hn hsees hh hp hs
  have hsafe : (Action.run n op none).Safe c :=
    (permits_safe h.shows ha).run ev rfl op none hmsg hnew
  obtain ⟨A₁, hsim₁, hmoves⟩ := h.sim.step (fun _ => hsafe) hstep
  refine ⟨c', A₁, hshows, ?_, h.applies hn ha hr hsees hh hp (hnd ▸ hsim₁.node n hn) hmoves.toGrows⟩
  -- a compaction is no move of the protocol
  rcases hc' with rfl | ⟨index, data, r, err, hcreate, rfl⟩
  · exact hsim₁
  · rw [← hnd] at hcreate ⊢
    exact hsim₁.compact hn hcreate

/-- A round that does not panic leaves its server level, and has not taken it back. -/
theorem pumped (h : InStep mb S c A) (hn : n ∈ mb.ids) {ev : Event} {recovered : ε} {cut : Option ℕ}
    (ha : (ServersAction.round n ev cut recovered).Safe S)
    (hr : (ServersAction.round n ev cut recovered).Restores S) (hsees : S.Sees n ev)
    {s s' : Server ε} {nd : Node} {rd : Ready} (hh : (S.servers n).handle ev = .ok (s, true))
    (hp : s.node.persist = some (nd, rd)) (hs : s.pumped nd rd = .ok s') :
    s'.Level ∧ (S.servers n).Advances s' := by
  obtain ⟨-, A₁, -, -, happlies⟩ := h.shows_pumped hn ha hr hsees hh hp hs
  obtain ⟨s₁, s₂, happ, hsnap, rfl⟩ := Server.pumped_ok hs
  obtain ⟨happ₁, hnode₁⟩ := happlies.caught_up happ
  have hfirst₁ : s₁.node.r.firstIndex = some nd.r.snapshot.lastIncludedIndex := by
    rw [hnode₁]
    exact happlies.ok.live.spans.firstIndex
  obtain ⟨happ₂, hcommit₂, hpend₂, i, hfirst₂, hle₂⟩ := Server.maybeSnapshot_first hsnap hfirst₁
  rw [hnode₁] at hcommit₂ hpend₂
  obtain ⟨hadv, -, -, -⟩ := Node.persist_cases hp
  obtain ⟨-, -, -, -, hpend⟩ := Raft.advance_keeps hadv
  obtain ⟨ps, rs, heq, -⟩ := Server.foldl_resolveRead_eq rd.readStates s₂
  rw [heq]
  have hcommit : (S.servers n).node.r.commitIndex ≤ nd.r.commitIndex ∧
      (S.servers n).node.r.snapshot.lastIncludedIndex ≤ nd.r.snapshot.lastIncludedIndex := by
    cases happlies.hands with
    | nothing toApply snapshot commit => exact ⟨commit, by rw [snapshot]⟩
    | snapshot m ev_eq installs toApply snapshot boundary le commit =>
      exact ⟨by rw [commit]; exact le, by rw [snapshot]; exact boundary.le⟩
  refine ⟨⟨happ₂.trans (happ₁.trans hcommit₂.symm), hpend₂.trans hpend⟩, ?_, ?_, ?_⟩
  · exact hcommit.1.trans hcommit₂.ge
  · exact ⟨_, i, (h.spans hn).firstIndex, hfirst₂, hcommit.2.trans hle₂⟩
  · show (S.servers n).lastApplied ≤ s₂.lastApplied
    rw [happ₂, happ₁, (h.level n hn).applied]
    exact hcommit.1

end InStep

variable [StorageEngine ε]

/-- What a step makes of server `n`: nothing, a round that makes no call, one that does, or the
process is started again. -/
inductive Change (mb : Members) (opts : ℕ → ServerOptions) (S : Servers ε) (n : ℕ)
    (a : ServersAction ε) : Server ε → Prop
  | same : Change mb opts S n a (S.servers n)
  | idle (ev : Event) (recovered : ε) (s : Server ε) (ha : a = .round n ev none recovered)
      (hh : (S.servers n).handle ev = .ok (s, false)) :
      Change mb opts S n a { s with sent := [], results := [] }
  | pumped (ev : Event) (recovered : ε) (s : Server ε) (nd : Node) (rd : Ready) (s' : Server ε)
      (ha : a = .round n ev none recovered) (hsees : S.Sees n ev)
    (hh : (S.servers n).handle ev = .ok (s, true))
      (hp : s.node.persist = some (nd, rd)) (hs : s.pumped nd rd = .ok s') :
      Change mb opts S n a { s' with sent := [], results := [] }
  | started (storage : List Record) (nd : Node) (snap : Option Snapshot) (s : Server ε)
      (hk : S.Kills n a) (hopen : openNode (mb.config n) storage = .ok (some (nd, snap)))
      (hstart : Server.start (opts n) nd snap a.recovered = some s) : Change mb opts S n a s

theorem Stepped.change {a : ServersAction ε} (h : Stepped mb opts S a S') (n : ℕ) :
    Change mb opts S n a (S'.servers n) := by
  cases h with
  | idle m ev s hsees hh =>
    by_cases hm : n = m
    · subst hm
      simp only [absorb, Function.update_self]
      exact .idle ev _ s rfl hh
    · simp only [absorb, Function.update_of_ne hm]
      exact .same
  | pumped m ev s nd rd s' hmem hsees hh hp hs =>
    by_cases hm : n = m
    · subst hm
      simp only [absorb, Function.update_self]
      exact .pumped ev _ s nd rd s' rfl hsees hh hp hs
    · simp only [absorb, Function.update_of_ne hm]
      exact .same
  | died m e T S' storage hae hkill hmem hT hr =>
    obtain ⟨nd, snap, s, hopen, hstart, rfl⟩ := restart_start hr
    by_cases hm : n = m
    · subst hm
      simp only [Function.update_self]
      exact .started storage nd snap s hkill hopen hstart
    · simp only [Function.update_of_ne hm, hT.servers_of_ne hm]
      exact .same

/-- A process that has been started is level with its node. -/
theorem level_of_start {cfg : Config} {d : List Record} {nd : Node}
    {snap : Option Snapshot} {eng : ε} {o : ServerOptions} {s : Server ε} {l : List LogEntry}
    (hopen : openNode cfg d = .ok (some (nd, snap))) (hs : Server.start o nd snap eng = some s)
    (hsp : Spans nd.r l nd.r.snapshot.lastIncludedIndex) : s.Level := by
  obtain ⟨-, hfirst, hpend, hsnap⟩ := openNode_level hopen
  obtain ⟨hnode, -, -, -, hstart⟩ := Server.start_cases hs
  have hcommit : nd.r.snapshot.lastIncludedIndex = nd.r.commitIndex :=
    Option.some.inj (hsp.firstIndex.symm.trans hfirst)
  refine ⟨?_, by rw [hnode]; exact hpend⟩
  rw [hnode, ← hcommit]
  rcases hsnap with ⟨rfl, h0, -⟩ | ⟨rfl, -⟩
  · rcases hstart with ⟨-, -, happ⟩ | ⟨sn, hsn, -⟩
    · rw [happ, h0]
    · cases hsn
  · rcases hstart with ⟨hnone, -⟩ | ⟨sn, hsn, -, -, happ⟩
    · cases hnone
    · cases hsn
      exact happ

/-- A step leaves every server level, if its node still shows a log. -/
theorem InStep.level_step (h : InStep mb S c A) {a : ServersAction ε} (ha : a.Safe S)
    (hr : a.Restores S) (hstep : Stepped mb opts S a S') {c' : Cluster} {A' : Abs}
    (hshows : Shows S' c') (hsim : Sim True mb c' A') : ∀ m ∈ mb.ids, (S'.servers m).Level := by
  intro m hm
  have hlevel := h.level m hm
  have hlive := (hsim.node m hm).live
  rw [hshows.nodes] at hlive
  have hchange := hstep.change m
  generalize S'.servers m = s at hchange hlive ⊢
  cases hchange with
  | same => exact hlevel
  | idle ev recovered s ha hh =>
    cases Server.handled_of_eq hh with
    | idle _ hnode hsent hresults hpending hwaiters =>
      refine ⟨?_, by rw [← hlevel.pending, ← hnode]⟩
      show s.lastApplied = s.node.r.commitIndex
      rw [(Server.handle_leaves hh).1.applied, hnode]
      exact hlevel.applied
  | pumped ev recovered s nd rd s' haeq hsees hh hp hs =>
    subst haeq
    obtain ⟨⟨happ, hpend⟩, -⟩ := h.pumped hm ha hr hsees hh hp hs
    exact ⟨happ, hpend⟩
  | started storage nd snap s hk hopen hstart =>
    rw [(Server.start_cases hstart).1] at hlive
    exact level_of_start hopen hstart hlive.spans

/-- **A step keeps the servers level.** -/
theorem InStep.step (h : InStep mb S c A) {a : ServersAction ε} (ha : a.Safe S) (hr : a.Restores S)
    (hstep : Stepped mb opts S a S') : ∃ c' A', InStep mb S' c' A' ∧ Grows LogEntry.term A A' := by
  obtain ⟨bs, c', hbs, hshows, hal⟩ := h.shows.projectsTo (permits_safe h.shows ha) hstep
  obtain ⟨A', hsim, hg⟩ := h.sim.run (along_of_imp (fun _ _ hsafe _ => hsafe) hal) hbs
  exact ⟨c', A', ⟨hshows, hsim, h.level_step ha hr hstep hshows hsim⟩, hg⟩

/-- No unsafe snapshot is processed and no restore fails. -/
abbrev Orderly (S : Servers ε) (a : ServersAction ε) : Prop := a.Safe S ∧ a.Restores S

omit [StorageEngine ε] in
theorem inStep_init (mb : Members) (opts : ℕ → ServerOptions) (eng : ε) :
    InStep mb (Servers.init mb opts eng) (Cluster.init mb) State.init :=
  ⟨shows_init mb opts eng, sim_init True mb, fun _ _ => ⟨rfl, rfl⟩⟩

/-- **In a run that is orderly, every server is level with its node.** -/
theorem Runs.inStep {eng : ε} {as : List (ServersAction ε)} (h : Servers.Runs mb opts eng as S)
    (hP : Along (Servers.step mb opts) Orderly (Servers.init mb opts eng) as) :
    ∃ c A, InStep mb S c A := by
  refine exec_induct (I := fun S => ∃ c A, InStep mb S c A) (fun S a S' ⟨c, A, hS⟩ ha hstep => ?_)
    ⟨_, _, inStep_init mb opts eng⟩ hP h
  obtain ⟨c', A', h', -⟩ := hS.step ha.1 ha.2 (step_cases hstep)
  exact ⟨c', A', h'⟩

end Servers

end KvStore
