import KvStore.Server.Acknowledge
import KvStore.Server.Level

/-!
# A server's process never moves backwards

`commitIndex`, `log[0].Index` and `lastApplied` of one process, over runs of the servers.

* `never_moves_back`: as long as no unsafe snapshot is processed and no restore fails, none of the
  three goes down while the process lives, and in every state they are in order, with `lastLogIndex`
  at the end.
* `install_moves_back`: over ordered links, with automatic snapshots and no failure, a stale
  rejection makes a leader send its snapshot to a follower that has applied more. The follower's
  `lastApplied` goes down, and its commit index is past the end of its log.

A process ends with a crash, with a `Persist` that is cut short, or with a panic (`Servers.Kills`).
-/

namespace KvStore

open Machine

/-- The indices of a server are in order: the boundary of the log, what is applied, what is
committed, and the end of the log. -/
def Server.Ordered {ε : Type} (s : Server ε) : Prop :=
  ∃ first last, s.node.r.firstIndex = some first ∧ s.node.r.lastLogIndex = some last ∧
    first ≤ s.lastApplied ∧ s.lastApplied ≤ s.node.r.commitIndex ∧ s.node.r.commitIndex ≤ last

section

variable {ε : Type} [StorageEngine ε] {mb : Members} {opts : ℕ → ServerOptions} {eng : ε}
    {S S' : Servers ε}
  {as bs : List (ServersAction ε)} {c : Cluster} {A : Abs} {n : ℕ}

namespace Servers.InStep

omit [StorageEngine ε] in
theorem ordered (h : InStep mb S c A) (hn : n ∈ mb.ids) : (S.servers n).Ordered := by
  have hsp := h.spans hn
  refine ⟨_, _, hsp.firstIndex, hsp.lastLogIndex, ?_, (h.level n hn).applied.le, h.commit_le hn⟩
  rw [(h.level n hn).applied]
  exact h.boundary_le hn

/-- A step takes no server back whose process survives it. -/
theorem advances (h : InStep mb S c A) (hn : n ∈ mb.ids) {a : ServersAction ε} (ha : Orderly S a)
    (hk : ¬S.Kills n a) (hstep : Stepped mb opts S a S') :
    (S.servers n).Advances (S'.servers n) := by
  have hfirst := (h.spans hn).firstIndex
  have hchange := hstep.change n
  generalize S'.servers n = s at hchange ⊢
  cases hchange with
  | same => exact .of_eq hfirst rfl rfl
  | idle ev recovered s ha hh =>
    cases Server.handled_of_eq hh with
    | idle _ hnode hsent hresults hpending hwaiters =>
      exact .of_eq hfirst hnode (Server.handle_leaves hh).1.applied
  | pumped ev recovered s nd rd s' haeq hsees hh hp hs =>
    subst haeq
    obtain ⟨-, hadv⟩ := h.pumped hn ha.1 ha.2 hsees hh hp hs
    exact ⟨hadv.commit, hadv.first, hadv.applied⟩
  | started storage nd snap s hkill hopen hstart => exact absurd hkill hk

end Servers.InStep

/-- **A process never moves backwards**, as long as no unsafe snapshot is processed and no restore
fails: after `as` and then `bs` every server's indices are in order, and none of them is lower than
after `as` if its process has survived `bs`. -/
theorem never_moves_back (h : Servers.Runs mb opts eng as S)
    (h' : exec (Servers.step mb opts) S bs = some S')
    (hP : Along (Servers.step mb opts) Servers.Orderly (Servers.init mb opts eng) (as ++ bs))
    (hn : n ∈ mb.ids) : (S'.servers n).Ordered ∧
      (Along (Servers.step mb opts) (fun S a => ¬S.Kills n a) S bs →
        (S.servers n).Advances (S'.servers n)) := by
  obtain ⟨hPas, hPbs⟩ := (along_append h).mp hP
  obtain ⟨c, A, hS⟩ := h.inStep hPas
  constructor
  · have hrun : Servers.Runs mb opts eng (as ++ bs) S' := exec_append.mpr ⟨S, h, h'⟩
    obtain ⟨c', A', hS'⟩ := hrun.inStep hP
    exact hS'.ordered hn
  · intro hlives
    suffices hall : (∃ c A, Servers.InStep mb S' c A) ∧
      (S.servers n).Advances (S'.servers n) from hall.2
    refine exec_induct (I := fun S' => (∃ c A, Servers.InStep mb S' c A) ∧
      (S.servers n).Advances (S'.servers n)) ?_
        ⟨⟨c, A, hS⟩, .of_eq (hS.spans hn).firstIndex rfl rfl⟩
      (along_and hPbs hlives) h'
    rintro S₁ a S₂ ⟨⟨c₁, A₁, h₁⟩, hadv⟩ ⟨ha, hk⟩ hstep
    have hstepped := Servers.step_cases hstep
    obtain ⟨c₂, A₂, h₂, -⟩ := h₁.step ha.1 ha.2 hstepped
    exact ⟨⟨c₂, A₂, h₂⟩, hadv.trans (h₁.advances hn ha hk hstepped)⟩

end

/-- Node one, which leads, is given a `Put` and commits it with node two. -/
def commitPut : List (ServersAction FlakyStore) :=
  [roundOf 1 (.propose ⟨putOne, 1⟩),
    roundOf 2 (.recv { type := .appendEntries, fromId := 1, toId := 2, term := 1,
                       entries := [⟨1, 1, putOne⟩] }),
    roundOf 1 (.recv { type := .appendEntriesResponse, fromId := 2, toId := 1, term := 1,
                       success := true, matchIndex := 1 })]

theorem never_moves_back_three : ∃ S S' : Servers FlakyStore,
    Servers.Runs .three (fun _ => {}) {} (electServer 1 2 0 1) S ∧
    exec (Servers.step .three fun _ => {}) S commitPut = some S' ∧ (S'.servers 1).lastApplied = 1 ∧
    (S'.servers 1).Ordered ∧ (S.servers 1).Advances (S'.servers 1) := by
  have hrun : ((exec (Servers.step .three fun _ => {}) (Servers.init .three (fun _ => {}) {})
      (electServer 1 2 0 1)).bind fun S =>
        (exec (Servers.step .three fun _ => {}) S commitPut).map fun S' =>
          decide ((S'.servers 1).lastApplied = 1 ∧
            Along (Servers.step .three fun _ => {}) (fun S a => ¬S.Kills 1 a) S commitPut)) =
      some true := by
    decide +kernel
  have hP : Along (Servers.step .three fun _ => {}) Servers.Orderly
      (Servers.init .three (fun _ => {}) ({} : FlakyStore)) (electServer 1 2 0 1 ++ commitPut) := by
    decide +kernel
  obtain ⟨S, h, hrun⟩ := Option.bind_eq_some_iff.mp hrun
  obtain ⟨S', h', hrun⟩ := Option.map_eq_some_iff.mp hrun
  obtain ⟨happ, hlives⟩ := of_decide_eq_true hrun
  obtain ⟨hord, hadv⟩ := never_moves_back h h' hP (n := 1) (by decide)
  exact ⟨S, S', h, h', happ, hord, hadv hlives⟩

/-! ## A snapshot that takes a follower back -/

/-- Every server takes a snapshot after three entries. -/
def everyThree : ℕ → ServerOptions := fun _ => { snapshotThreshold := 3 }

/-- A clock tick. -/
def tickOf (n : ℕ) : LinkedAction FlakyStore := .act (roundOf n .tick)

/-- Node one is given a command that puts one key. -/
def putTo (key : UInt8) : LinkedAction FlakyStore :=
  .act (roundOf 1 (.propose ⟨encodeCommand ⟨cmdPut, [key], [key]⟩, key.toNat⟩))

/-- The first message of a link arrives. -/
def arrives (src dst : ℕ) : LinkedAction FlakyStore := .deliver src dst none {}

/-- Node two elects node one and takes in seven entries. Node one commits them as the answers
arrive, and compacts the first three and then the first six away. Node two hears that five are
committed, which it compacts, and then that seven are. -/
def commitSeven : List (LinkedAction FlakyStore) :=
  [tickOf 1, tickOf 1, arrives 1 2, arrives 2 1, arrives 1 2, arrives 2 1, arrives 1 2,
    arrives 2 1] ++
  [1, 2, 3, 4, 5, 6, 7].map putTo ++ List.replicate 7 (arrives 1 2) ++
  List.replicate 5 (arrives 2 1) ++
  [tickOf 1, arrives 1 2, arrives 2 1, arrives 2 1, tickOf 1, arrives 1 2, arrives 2 1, arrives 2 1]

/-- The message with entry eight is lost, so that node two turns down the next two. The first
rejection makes node one send the entries again, which node two takes in, and the second one its
snapshot. -/
def staleRejection : List (LinkedAction FlakyStore) :=
  [putTo 8, .drop 1 2, putTo 9, putTo 10, arrives 1 2, arrives 1 2, arrives 2 1, arrives 2 1,
    arrives 1 2]

/-- **A snapshot takes a follower back.** Node two has applied seven entries and has ten; the
snapshot of the first six is restored without a failure, in the same process. It has then applied
six, and its commit index is past the end of its log. -/
theorem install_moves_back : ∃ f f' : LinkedServers FlakyStore,
    LinkedServers.Runs .three everyThree {} (commitSeven ++ staleRejection) f ∧
    f.step .three everyThree (arrives 1 2) = some f' ∧
    (∃ m, f.inner (arrives 1 2) = some (roundOf 2 (.recv m)) ∧
      (roundOf 2 (.recv m)).Restores f.all ∧ ¬f.all.Kills 2 (roundOf 2 (.recv m))) ∧
    (f.all.servers 2).lastApplied = 7 ∧ (f'.all.servers 2).lastApplied = 6 ∧
    (f'.all.servers 2).node.r.commitIndex = 7 ∧
    (f'.all.servers 2).node.r.lastLogIndex = some 6 := by
  have hrun :
      ((exec (LinkedServers.step .three everyThree) ⟨Servers.init .three everyThree {}, fun _ _ =>
        []⟩ (commitSeven ++ staleRejection)).bind fun f =>
        (f.step .three everyThree (arrives 1 2)).bind fun f' => (f.link 1 2).head?.map fun m =>
          decide ((roundOf 2 (.recv m)).Restores f.all ∧ ¬f.all.Kills 2 (roundOf 2 (.recv m)) ∧
            (f.all.servers 2).lastApplied = 7 ∧ (f'.all.servers 2).lastApplied = 6 ∧
            (f'.all.servers 2).node.r.commitIndex = 7 ∧
            (f'.all.servers 2).node.r.lastLogIndex = some 6)) = some true := by
    decide +kernel
  obtain ⟨f, h, hrun⟩ := Option.bind_eq_some_iff.mp hrun
  obtain ⟨f', hstep, hrun⟩ := Option.bind_eq_some_iff.mp hrun
  obtain ⟨m, hm, hrun⟩ := Option.map_eq_some_iff.mp hrun
  obtain ⟨hres, hk, hafter⟩ := of_decide_eq_true hrun
  refine ⟨f, f', h, hstep, ⟨m, ?_, hres, hk⟩, hafter⟩
  show (f.link 1 2).head?.map (fun m => roundOf 2 (.recv m)) = _
  rw [hm, Option.map_some]

end KvStore
