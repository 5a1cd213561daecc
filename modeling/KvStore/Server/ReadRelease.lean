import KvStore.Raft.ReadIndex
import KvStore.Server.Lifetime

/-!
# Reads are released when they are applied

`pump` answers a `LinearizableGet` with the commit index at which its read was asked for, and the
caller reads from the engine at once. Nothing waits for `lastApplied`: the answer comes last in a
round, after `applyCommitted`.

* `reads_applied`: as long as no unsafe snapshot is processed and no restore fails, `lastApplied`
  has reached the index of every answer.
* `read_before_applied`: a follower's engine fails to restore a snapshot. The log starts after the
  snapshot, so that `applyCommitted` has nothing to apply; the node is elected, and answers a read
  at an index that the engine is behind.
-/

namespace KvStore

open Machine StorageEngine

/-! ## The reads of a node -/

/-- Every read the node knows of is at an index up to `k`. -/
structure Raft.ReadsUpTo (r : Raft) (k : ℕ) : Prop where
  pending : ∀ ctx pr, r.pendingReads ctx = some pr → pr.index ≤ k
  answered : ∀ rs ∈ r.readStates, rs.index ≤ k

/-- A call puts a read at the commit index. -/
theorem Turn.readsUpTo {op : Op} {r r' : Raft} {k : ℕ} (h : Turn op r r')
    (hempty : r.readStates = []) (hr : r.ReadsUpTo k) (hk : r.commitIndex ≤ k) :
    r'.ReadsUpTo k where
  pending := fun ctx pr hpr => by
    rcases h.pending hpr with hold | ⟨-, -, rfl⟩ | ⟨-, pr₀, -, -, -, -, hold, rfl⟩
    · exact hr.pending ctx pr hold
    · exact hk
    · exact hr.pending ctx pr₀ hold
  answered := fun rs hrs => by
    rcases h.answers hempty hrs with ⟨-, -, hidx, -⟩ | ⟨-, pr, -, -, -, -, hold, hidx, -⟩
    · exact hidx.trans_le hk
    · exact hidx.trans_le (hr.pending _ pr hold)

/-! ## The reads of a server -/

section

variable {ε : Type} [StorageEngine ε] {s s₁ s' : Server ε} {nd : Node}

/-- A part of a pump before its last loop says nothing to readers. -/
theorem Server.delivered_readResults (s : Server ε) (nd : Node) (rd : Ready) :
    (s.delivered nd rd).readResults = s.readResults := by
  unfold delivered restore
  cases rd.snapshotToApply with
  | none => rfl
  | some snap =>
    dsimp only
    split <;> rfl

theorem Server.applyCommitted_readResults (h : s.applyCommitted = .ok s') :
    s'.readResults = s.readResults := by
  unfold applyCommitted at h
  split_ifs at h
  · cases h
    rfl
  · rcases s.orPanic_cases (s.node.r.entries s.lastApplied s.node.r.commitIndex) with
      ⟨-, hp⟩ | ⟨es, -, hp⟩ <;> rw [hp] at h <;> cases h
    obtain ⟨w, rs, heq⟩ := s.applyEntries_eq es
    rw [heq]

theorem Server.maybeSnapshot_reads (h : s.maybeSnapshot = .ok s') :
    s'.readResults = s.readResults ∧ s'.node.r.pendingReads = s.node.r.pendingReads := by
  rcases maybeSnapshot_ok h with ⟨-, rfl⟩ | ⟨data, r, err, -, hrun, rfl⟩
  · exact ⟨rfl, rfl⟩
  · exact ⟨rfl, (Silent.createSnapshot hrun).1.pendingReads⟩

/-- Every read the node knows of is at a committed index, and every answer is at an applied one. -/
structure Server.ReadsApplied (s : Server ε) : Prop where
  pending : ∀ ctx pr, s.node.r.pendingReads ctx = some pr → pr.index ≤ s.node.r.commitIndex
  answered : ∀ ch i, (ch, .ok i) ∈ s.readResults → i ≤ s.lastApplied

end

namespace Servers.InStep

variable {ε : Type} [StorageEngine ε] {mb : Members} {opts : ℕ → ServerOptions} {S S' : Servers ε}
    {c : Cluster}
  {A : Abs} {n : ℕ}

/-- A round answers the reads whose index it has applied. -/
theorem pumped_reads (h : InStep mb S c A) (hn : n ∈ mb.ids) (hreads : (S.servers n).ReadsApplied)
    {ev : Event} {recovered : ε} {cut : Option ℕ}
    (ha : (ServersAction.round n ev cut recovered).Safe S)
    (hr : (ServersAction.round n ev cut recovered).Restores S) (hsees : S.Sees n ev)
    {s s' : Server ε} {nd : Node} {rd : Ready} (hh : (S.servers n).handle ev = .ok (s, true))
    (hp : s.node.persist = some (nd, rd)) (hs : s.pumped nd rd = .ok s') : s'.ReadsApplied := by
  obtain ⟨hlevel, hadv⟩ := h.pumped hn ha hr hsees hh hp hs
  obtain ⟨s₁, s₂, happ, hsnap, rfl⟩ := Server.pumped_ok hs
  obtain ⟨ps, rs, heq, hrs⟩ := Server.foldl_resolveRead_eq rd.readStates s₂
  rw [heq] at hlevel hadv ⊢
  -- the call has put reads at indices that the round goes on to apply
  have hempty : (S.servers n).node.r.readStates = [] := by
    rw [← h.shows.nodes]
    exact (h.sim.node n hn).reads_eq
  have hold : (S.servers n).node.r.ReadsUpTo s₂.node.r.commitIndex :=
    ⟨fun ctx pr hpr => (hreads.pending ctx pr hpr).trans hadv.commit, by simp [hempty]⟩
  have hnew := (Op.run_turn (Server.handle_call hh)).readsUpTo hempty hold hadv.commit
  obtain ⟨hpersist, -, hstates, -⟩ := Node.persist_cases hp
  obtain ⟨hresults₂, hpending₂⟩ := Server.maybeSnapshot_reads hsnap
  have hnode₁ : s₁.node = nd := by
    obtain ⟨-, A₁, -, -, happlies⟩ := h.shows_pumped hn ha hr hsees hh hp hs
    exact (happlies.caught_up happ).2
  constructor
  · intro ctx pr hpr
    have hpr' : s₂.node.r.pendingReads ctx = some pr := hpr
    rw [hpending₂, hnode₁, (Raft.advance_keeps hpersist).2.2.2.1] at hpr'
    exact hnew.pending ctx pr hpr'
  · intro ch i hi
    rcases List.mem_append.mp hi with hi | hi
    · rw [hresults₂, Server.applyCommitted_readResults happ, Server.delivered_readResults] at hi
      exact (hreads.answered ch i ((Server.handle_leaves hh).1.reads ch i hi)).trans hadv.applied
    · obtain ⟨rs, hmem, hidx⟩ := hrs _ hi
      cases hidx
      rw [hstates] at hmem
      exact (hnew.answered rs hmem).trans hlevel.applied.ge

/-- A step answers no read too early. -/
theorem step_reads (h : InStep mb S c A) (hn : n ∈ mb.ids) {a : ServersAction ε} (ha : Orderly S a)
    (hreads : (S.servers n).ReadsApplied) (hstep : Stepped mb opts S a S') :
    (S'.servers n).ReadsApplied := by
  have hchange := hstep.change n
  generalize S'.servers n = s at hchange ⊢
  cases hchange with
  | same => exact hreads
  | idle ev recovered s haeq hh =>
    cases Server.handled_of_eq hh with
    | idle _ hnode hsent hresults hpending hwaiters =>
      obtain ⟨hleaves, -⟩ := Server.handle_leaves hh
      refine ⟨by rw [hnode]; exact hreads.pending, fun ch i hi => ?_⟩
      exact (hreads.answered ch i (hleaves.reads ch i hi)).trans hleaves.applied.ge
  | pumped ev recovered s nd rd s' haeq hsees hh hp hs =>
    subst haeq
    obtain ⟨hpending, hanswered⟩ := h.pumped_reads hn hreads ha.1 ha.2 hsees hh hp hs
    exact ⟨hpending, hanswered⟩
  | started storage nd snap s hk hopen hstart =>
    obtain ⟨hnode, -, hresults, -⟩ := Server.start_cases hstart
    refine ⟨fun ctx pr hpr => ?_, fun ch i hi => ?_⟩
    · rw [hnode, (openNode_fresh hopen).2.1] at hpr
      cases hpr
    · rw [hresults] at hi
      cases hi

end Servers.InStep

/-- **Reads are released when they are applied**, as long as no unsafe snapshot is processed and no
restore fails: `lastApplied` has reached the index of every answer that the process has given. -/
theorem reads_applied {ε : Type} [StorageEngine ε] {mb : Members}
    {opts : ℕ → ServerOptions} {eng : ε} {as : List (ServersAction ε)} {S : Servers ε}
    (h : Servers.Runs mb opts eng as S) (hP : Along (Servers.step mb opts) Servers.Orderly
    (Servers.init mb opts eng) as) {n : ℕ} (hn : n ∈ mb.ids) {ch i : ℕ}
    (hi : (ch, .ok i) ∈ (S.servers n).readResults) : i ≤ (S.servers n).lastApplied := by
  suffices hall : (∃ c A, Servers.InStep mb S c A) ∧
    (S.servers n).ReadsApplied from hall.2.answered ch i hi
  refine exec_induct (I := fun S => (∃ c A, Servers.InStep mb S c A) ∧ (S.servers n).ReadsApplied)
    ?_ ⟨⟨_, _, Servers.inStep_init mb opts eng⟩, ⟨nofun, nofun⟩⟩ hP h
  rintro S₁ a S₂ ⟨⟨c₁, A₁, h₁⟩, hreads⟩ ha hstep
  have hstepped := Servers.step_cases hstep
  obtain ⟨c₂, A₂, h₂, -⟩ := h₁.step ha.1 ha.2 hstepped
  exact ⟨⟨c₂, A₂, h₂⟩, h₁.step_reads hn ha hreads hstepped⟩

/-- Node one is asked for a read, and node two acknowledges it. -/
def readOne : List (ServersAction FlakyStore) :=
  [roundOf 1 (.readIndex 7),
    roundOf 2 (.recv { type := .appendEntries, fromId := 1, toId := 2, term := 1, prevLogIndex := 1,
                       prevLogTerm := 1, leaderCommit := 1, readContext := 1 }),
    roundOf 1
                       (.recv
                         { type := .appendEntriesResponse, fromId := 2, toId := 1, term := 1,
                           success := true, matchIndex := 1, readContext := 1 })]

theorem reads_applied_three : ∃ S : Servers FlakyStore,
    Servers.Runs .three (fun _ => {}) {} (electServer 1 2 0 1 ++ commitPut ++ readOne) S ∧
    (7, .ok 1) ∈ (S.servers 1).readResults ∧ 1 ≤ (S.servers 1).lastApplied := by
  have hrun : (exec (Servers.step .three fun _ => {}) (Servers.init .three (fun _ => {}) {})
      (electServer 1 2 0 1 ++ commitPut ++ readOne)).map (fun S =>
        decide ((7, .ok 1) ∈ (S.servers 1).readResults)) = some true := by
    decide +kernel
  have hP : Along (Servers.step .three fun _ => {}) Servers.Orderly
      (Servers.init .three (fun _ => {}) ({} : FlakyStore))
        (electServer 1 2 0 1 ++ commitPut ++ readOne) := by
    decide +kernel
  obtain ⟨S, h, hrun⟩ := Option.map_eq_some_iff.mp hrun
  have hmem := of_decide_eq_true hrun
  exact ⟨S, h, hmem, reads_applied h hP (by decide) hmem⟩

/-! ## A read after a restore that has failed -/

/-- Every server takes a snapshot after each entry. -/
def everyOne : ℕ → ServerOptions := fun _ => { snapshotThreshold := 1 }

/-- Node two comes up with an engine whose next call will fail. Node three elects node one and takes
in an entry, which node one commits and compacts away; what it sends to node two meanwhile is
lost. -/
def commitWithoutTwo : List (LinkedAction FlakyStore) :=
  [.act (.crash 2 { fails := [true] }), tickOf 1, tickOf 1, arrives 1 3, arrives 3 1, arrives 1 3,
    arrives 3 1, putTo 1, arrives 1 3, arrives 1 3, arrives 3 1, arrives 3 1, .drop 1 2, .drop 1 2,
      .drop 1 2, .drop 1 2]

/-- Node one sends its snapshot to node two, whose engine does not restore it. Node three elects
node two. -/
def electBehind : List (LinkedAction FlakyStore) :=
  [tickOf 1, arrives 1 2, tickOf 2, tickOf 2, tickOf 2, arrives 2 3, arrives 3 2, arrives 2 3,
    arrives 3 2]

/-- Node two is asked for a read, and node three acknowledges it. -/
def readBehind : List (LinkedAction FlakyStore) :=
  [.act (roundOf 2 (.readIndex 7)), arrives 2 3, arrives 2 3, arrives 3 2, arrives 3 2]

/-- **A read is released before it is applied.** Every message has been delivered in order or lost,
and the one call of an engine that has failed is the restore. The answer says index one, and the key
that the entry at index one has put is not in the engine. -/
theorem read_before_applied : ∃ f : LinkedServers FlakyStore,
    LinkedServers.Runs .three everyOne {} (commitWithoutTwo ++ electBehind ++ readBehind) f ∧
    (∃ as, Servers.Runs .three everyOne {} as f.all) ∧
    (7, .ok 1) ∈ (f.all.servers 2).readResults ∧ (f.all.servers 2).lastApplied = 0 ∧
    f.all.committed ≠ [] ∧ (∀ e ∈ f.all.committed, e = ⟨1, 1, encodeCommand ⟨cmdPut, [1], [1]⟩⟩) ∧
    StorageEngine.get (f.all.servers 2).eng [1] = none := by
  have hrun :
      (exec (LinkedServers.step .three everyOne) ⟨Servers.init .three everyOne {}, fun _ _ => []⟩
        (commitWithoutTwo ++ electBehind ++ readBehind)).map (fun f =>
          decide ( (7, .ok 1) ∈ (f.all.servers 2).readResults ∧ (f.all.servers 2).lastApplied = 0 ∧
        f.all.committed ≠ [] ∧
          (∀ e ∈ f.all.committed, e = ⟨1, 1, encodeCommand ⟨cmdPut, [1], [1]⟩⟩) ∧
        StorageEngine.get (f.all.servers 2).eng [1] = none)) = some true := by
    decide +kernel
  obtain ⟨f, h, hrun⟩ := Option.map_eq_some_iff.mp hrun
  exact ⟨f, h, LinkedServers.project h, of_decide_eq_true hrun⟩

end KvStore
