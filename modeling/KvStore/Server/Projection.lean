import KvStore.Server.Rounds

/-!
# The nodes of the servers as a cluster

`Servers.Stepped` says once what a step of the servers does. The nodes then make a run of
`Cluster.lean` (`Servers.Runs.project`): a round is its call and `Persist`, an automatic snapshot is
a compaction after it, a death is a crash. Every entry the run creates has been given to a request,
and so has every entry a node ever holds (`Sim.run_creates`).
-/

namespace KvStore

open Consensus Machine

namespace Servers

variable {ε : Type} [StorageEngine ε] {mb : Members} {opts : ℕ → ServerOptions} {S S' : Servers ε}

/-! ## Steps of the system -/

/-- The state in which the process of server `n` dies, in a round with the given event or between
two rounds, and the storage it leaves. -/
inductive Dies (S : Servers ε) (n : ℕ) : Option Event → Servers ε → List Record → Prop
  | between : Dies S n none S (S.servers n).node.storage
  | handling (ev : Event) (s : Server ε) (hsees : S.Sees n ev)
      (hh : (S.servers n).handle ev = .error s) :
      Dies S n (some ev) ((S.note n ev).absorb n s) s.node.storage
  | persisting (ev : Event) (s : Server ε) (hsees : S.Sees n ev)
      (hh : (S.servers n).handle ev = .ok (s, true)) (hp : s.node.persist = none) :
      Dies S n (some ev) ((S.note n ev).absorb n s) s.node.storage
  | cut (ev : Event) (s : Server ε) (k : ℕ) (hsees : S.Sees n ev)
      (hh : (S.servers n).handle ev = .ok (s, true)) :
      Dies S n (some ev) (S.note n ev) ((s.node.persistCut k).getD s.node.storage)
  | pumping (ev : Event) (s : Server ε) (nd : Node) (rd : Ready) (s' : Server ε)
      (hsees : S.Sees n ev) (hh : (S.servers n).handle ev = .ok (s, true))
    (hp : s.node.persist = some (nd, rd))
      (hs : s.pumped nd rd = .error s') :
      Dies S n (some ev)
        ({ S.note n ev with committed := S.committed ++ nd.r.committedEntries }.absorb n s')
        s'.node.storage

/-- The process of server `n` dies in the step. -/
def Kills (S : Servers ε) (n : ℕ) : ServersAction ε → Prop
  | .round m ev cut _ => m = n ∧ (cut ≠ none ∨ ∃ s, (S.servers n).round ev = .error s)
  | .crash m _ => m = n

instance (S : Servers ε) (n : ℕ) : ∀ a : ServersAction ε, Decidable (S.Kills n a)
  | .round m ev cut _ =>
    have : Decidable (∃ s, (S.servers n).round ev = .error s) :=
      match h : (S.servers n).round ev with
      | .error s => .isTrue ⟨s, rfl⟩
      | .ok s => .isFalse fun ⟨s', hs'⟩ => by cases hs'
    inferInstanceAs (Decidable (m = n ∧ (cut ≠ none ∨ ∃ s, (S.servers n).round ev = .error s)))
  | .crash m _ => inferInstanceAs (Decidable (m = n))

/-- What a step does: a round that makes no call, one that does, or the restart of a server. -/
inductive Stepped (mb : Members) (opts : ℕ → ServerOptions) (S : Servers ε) :
    ServersAction ε → Servers ε → Prop
  | idle (n : ℕ) (ev : Event) {recovered : ε} (s : Server ε) (hsees : S.Sees n ev)
      (hh : (S.servers n).handle ev = .ok (s, false)) :
      Stepped mb opts S (.round n ev none recovered) ((S.note n ev).absorb n s)
  | pumped (n : ℕ) (ev : Event) {recovered : ε} (s : Server ε) (nd : Node) (rd : Ready)
      (s' : Server ε) (hn : n ∈ mb.ids) (hsees : S.Sees n ev)
    (hh : (S.servers n).handle ev = .ok (s, true))
      (hp : s.node.persist = some (nd, rd)) (hs : s.pumped nd rd = .ok s') :
      Stepped mb opts S (.round n ev none recovered)
        ({ S.note n ev with committed := S.committed ++ nd.r.committedEntries }.absorb n s')
  | died {a : ServersAction ε} (n : ℕ) (e : Option Event) (T S' : Servers ε) (storage : List Record)
      (ha : a.node = n ∧ a.event = e) (hk : S.Kills n a) (hn : n ∈ mb.ids)
    (hT : Dies S n e T storage)
      (hr : T.restart mb opts n storage a.recovered = some S') : Stepped mb opts S a S'

theorem finish_cases {n : ℕ} {ev : Event} {recovered : ε} (hn : n ∈ mb.ids) (hsees : S.Sees n ev)
    (h : S.finish mb opts n ev recovered = some S') :
    Stepped mb opts S (.round n ev none recovered) S' := by
  unfold finish at h
  dsimp only at h
  rcases hh : (S.servers n).handle ev with s | ⟨s, pumps⟩
  · have hround : (S.servers n).round ev = .error s := by rw [Server.round, hh]; rfl
    have hper : (S.servers n).persisted ev = none := by rw [Server.persisted, hh]
    rw [hround, hper] at h
    simp only [Option.elim_none, List.append_nil] at h
    exact .died n _ _ S' _ ⟨rfl, rfl⟩ ⟨rfl, Or.inr ⟨s, hround⟩⟩ hn (.handling ev s hsees hh) h
  cases pumps with
  | false =>
    have hround : (S.servers n).round ev = .ok s := by rw [Server.round, hh]; rfl
    have hper : (S.servers n).persisted ev = none := by rw [Server.persisted, hh]
    rw [hround, hper] at h
    simp only [Option.elim_none, List.append_nil] at h
    obtain rfl := Option.some.inj h
    exact .idle n ev s hsees hh
  | true =>
    rcases hp : s.node.persist with - | ⟨nd, rd⟩
    · have hround := (Server.round_eq hh).trans (Server.pump_eq_error hp)
      rw [hround, Server.persisted_eq hh, hp] at h
      simp only [Option.map_none, Option.elim_none, List.append_nil] at h
      exact .died n _ _ S' _ ⟨rfl, rfl⟩ ⟨rfl, Or.inr ⟨s, hround⟩⟩ hn
        (.persisting ev s hsees hh hp) h
    · have hround := (Server.round_eq hh).trans (Server.pump_eq hp)
      rw [hround, Server.persisted_eq hh, hp] at h
      rcases hs : s.pumped nd rd with s' | s'
      · rw [hs] at h
        exact .died n _ _ S' _ ⟨rfl, rfl⟩ ⟨rfl, Or.inr ⟨s', hround.trans hs⟩⟩ hn
          (.pumping ev s nd rd s' hsees hh hp hs) h
      · rw [hs] at h
        obtain rfl := Option.some.inj h
        exact .pumped n ev s nd rd s' hn hsees hh hp hs

/-- **What a step of the servers does.** -/
theorem step_cases {a : ServersAction ε} (h : S.step mb opts a = some S') :
    Stepped mb opts S a S' := by
  cases a with
  | round n ev cut recovered =>
    unfold step at h
    dsimp only at h
    by_cases hg : n ∈ mb.ids ∧ S.Sees n ev
    swap
    · rw [if_neg hg] at h
      cases h
    rw [if_pos hg] at h
    cases cut with
    | none => exact finish_cases hg.1 hg.2 h
    | some k =>
      dsimp only at h
      unfold cutShort at h
      split at h
      · next s hh =>
        exact .died n _ _ S' _ ⟨rfl, rfl⟩ ⟨rfl, Or.inl (Option.some_ne_none k)⟩ hg.1
          (.cut ev s k hg.2 hh) h
      · cases h
  | crash n recovered =>
    unfold step at h
    dsimp only at h
    split_ifs at h with hn
    exact .died n _ S S' _ ⟨rfl, rfl⟩ rfl hn .between h

/-- A server that has just been started: a node as opened, and nothing yet to do or to answer. -/
structure Started (s : Server ε) (nd : Node) : Prop where
  node_eq : s.node = nd
  sent_eq : s.sent = []
  pending_eq : s.pending = []
  results_eq : s.results = []
  waiters_eq : s.waiters = fun _ => none

theorem restart_start {T : Servers ε} {n : ℕ} {storage : List Record} {recovered : ε}
    (hr : T.restart mb opts n storage recovered = some S') :
    ∃ nd snap s, openNode (mb.config n) storage = .ok (some (nd, snap)) ∧
      Server.start (opts n) nd snap recovered = some s ∧
      S' = { T with servers := Function.update T.servers n s } := by
  unfold restart at hr
  split at hr
  · next nd snap hopen =>
    obtain ⟨s, hs, rfl⟩ := Option.map_eq_some_iff.mp hr
    exact ⟨nd, snap, s, hopen, hs, rfl⟩
  · cases hr

theorem restart_cases {T : Servers ε} {n : ℕ} {storage : List Record} {recovered : ε}
    (hr : T.restart mb opts n storage recovered = some S') :
    ∃ nd snap s, openNode (mb.config n) storage = .ok (some (nd, snap)) ∧ Started s nd ∧
      S' = { T with servers := Function.update T.servers n s } := by
  obtain ⟨nd, snap, s, hopen, hs, rfl⟩ := restart_start hr
  refine ⟨nd, snap, s, hopen, ?_, rfl⟩
  unfold Server.start at hs
  dsimp only at hs
  split at hs
  · obtain rfl := Option.some.inj hs
    exact ⟨rfl, rfl, rfl, rfl, rfl⟩
  · split at hs
    · cases hs
    · obtain rfl := Option.some.inj hs
      exact ⟨rfl, rfl, rfl, rfl, rfl⟩

/-! ## Projection -/

/-- The cluster `c` is the servers' nodes and their network; between rounds nothing is left to
send. -/
structure Shows (S : Servers ε) (c : Cluster) : Prop where
  nodes : ∀ n, c.nodes n = (S.servers n).node
  net : c.net = S.net
  clean : ∀ n, (S.servers n).sent = []

/-- The entries the steps of a cluster create are all in `es`. -/
abbrev CreatesIn (es : List LogEntry) (c : Cluster) (a : Action) : Prop := ∀ e ∈ a.new c, e ∈ es

namespace Shows

variable {c : Cluster} {n : ℕ} {es : List LogEntry}

omit [StorageEngine ε] in
/-- The call of a round and its `Persist` are a step of the cluster. -/
theorem run (h : Shows S c) (hn : n ∈ mb.ids) {op : Op} {s : Server ε} {nd : Node} {rd : Ready}
    (hdel : c.deliverable op) (hrun : op.run (S.servers n).node.r = some s.node.r)
    (hstorage : s.node.storage = (S.servers n).node.storage) (hp : s.node.persist = some (nd, rd)) :
    ∃ c₁, c.step mb (.run n op none) = some c₁ ∧ c₁.nodes n = nd ∧ c₁.net = c.net ++ rd.messages ∧
      ∀ m, m ≠ n → c₁.nodes m = c.nodes m := by
  have hnode : (⟨s.node.r, (c.nodes n).storage⟩ : Node) = s.node := by rw [h.nodes, ← hstorage]
  refine ⟨⟨Function.update c.nodes n nd, c.net ++ rd.messages,
    c.reads ++ rd.readStates.map fun rs => (n, rs)⟩, ?_, Function.update_self .., rfl,
    fun m hm => Function.update_of_ne hm ..⟩
  unfold Cluster.step
  dsimp only
  rw [if_pos ⟨hn, hdel⟩, h.nodes, hrun]
  simp only [Cluster.finish, hnode, hp]

omit [StorageEngine ε] in
theorem deliverable (h : Shows S c) {ev : Event} {op : Op} (hsees : S.Sees n ev)
    (hmsg : ∀ m, op = .step m → ev = .recv m) : c.deliverable op := by
  cases op with
  | step m =>
    have hev := hmsg m rfl
    subst hev
    have hmem : m ∈ S.net := hsees.2
    rw [← h.net] at hmem
    exact hmem
  | tick | propose datas | readIndex ctx | createSnapshot index data => trivial

/-- A round sends what `Persist` hands out. -/
theorem sent_eq (h : Shows S c) {ev : Event} {s s' : Server ε} {nd : Node} {rd : Ready}
    (hh : (S.servers n).handle ev = .ok (s, true))
    (hset : Server.Settles nd (s.delivered nd rd) s') : s'.sent = rd.messages := by
  cases Server.handled_of_eq hh with
  | called op _ hrun hnew hmsg hstorage hsent hresults hpending hwaiters =>
    rw [hset.sent_eq, (s.delivered_frame nd rd).2.1, hsent, h.clean, List.nil_append]

end Shows

/-- The cluster shows the servers other than `n`, which is about to be replaced. -/
structure ShowsBut (n : ℕ) (S : Servers ε) (c : Cluster) : Prop where
  nodes : ∀ m, m ≠ n → c.nodes m = (S.servers m).node
  net : c.net = S.net
  clean : ∀ m, m ≠ n → (S.servers m).sent = []

namespace ShowsBut

variable {c c' : Cluster} {n : ℕ}

omit [StorageEngine ε] in
theorem of_shows (h : Shows S c) (hnodes : ∀ m, m ≠ n → c'.nodes m = c.nodes m)
    (hservers : ∀ m, m ≠ n → S'.servers m = S.servers m) (hnet : c'.net = S'.net) :
    ShowsBut n S' c' where
  nodes := fun m hm => by rw [hnodes m hm, hservers m hm, h.nodes]
  net := hnet
  clean := fun m hm => by rw [hservers m hm, h.clean]

omit [StorageEngine ε] in
theorem complete (h : ShowsBut n S c) (hnode : c.nodes n = (S.servers n).node)
    (hsent : (S.servers n).sent = []) : Shows S c where
  nodes := fun m => by
    by_cases hm : m = n
    · rw [hm, hnode]
    · exact h.nodes m hm
  net := h.net
  clean := fun m => by
    by_cases hm : m = n
    · rw [hm, hsent]
    · exact h.clean m hm

/-- A restart of the server is one of its node. -/
theorem restart {recovered : ε} {storage : List Record} (h : ShowsBut n S c)
    (hr : S.restart mb opts n storage recovered = some S') :
    ∃ c', c.restart mb n storage = some c' ∧ Shows S' c' ∧ S'.given = S.given := by
  obtain ⟨nd, snap, s, hopen, hs, rfl⟩ := restart_cases hr
  refine ⟨c.setNode n nd, by rw [Cluster.restart, hopen], ?_, rfl⟩
  have hbut : ShowsBut n { S with servers := Function.update S.servers n s } (c.setNode n nd) :=
    { nodes := fun m hm => by
        simp only [Cluster.setNode, Function.update_of_ne hm]
        exact h.nodes m hm
      net := h.net
      clean := fun m hm => by
        simp only [Function.update_of_ne hm]
        exact h.clean m hm }
  refine hbut.complete ?_ ?_
  · simp only [Cluster.setNode, Function.update_self]
    exact hs.node_eq.symm
  · simp only [Function.update_self]
    exact hs.sent_eq

end ShowsBut

/-- The cluster's part of a run of the servers: a run whose steps all meet `P`. -/
def ProjectsTo (mb : Members) (P : Cluster → Action → Prop) (c : Cluster) (S' : Servers ε) : Prop :=
  ∃ bs c', exec (Cluster.step mb) c bs = some c' ∧ Shows S' c' ∧ Along (Cluster.step mb) P c bs

/-- The cluster's part of a run of the servers: a run that creates only entries given to
requests. -/
def Projects (mb : Members) (c : Cluster) (S' : Servers ε) : Prop :=
  ∃ bs c', exec (Cluster.step mb) c bs = some c' ∧ Shows S' c' ∧
    Along (Cluster.step mb) (CreatesIn (S'.given.map Prod.snd)) c bs

/-- Whatever the cluster does for a step of server `n` with the event `e`, it meets `P`. -/
structure Permits (P : Cluster → Action → Prop) (S : Servers ε) (c : Cluster) (n : ℕ)
    (e : Option Event) : Prop where
  run : ∀ ev ∈ e, ∀ op cut, (∀ m, op = .step m → ev = .recv m) →
    (∀ x ∈ op.new (S.servers n).node.r, x ∈ ((S.servers n).gives ev).map Prod.snd) →
      P c (.run n op cut)
  compact : ∀ c index data, P c (.compact n index data)
  crash : ∀ c, P c (.crash n)

section Projection

variable {P : Cluster → Action → Prop} {c : Cluster}

theorem ProjectsTo.crash {c₁ : Cluster} {n : ℕ} {T : Servers ε} {storage : List Record}
    {recovered : ε} (hr : T.restart mb opts n storage recovered = some S') (hn : n ∈ mb.ids)
    (bs : List Action) (hbs : exec (Cluster.step mb) c bs = some c₁)
    (hst : (c₁.nodes n).storage = storage) (hT : ShowsBut n T c₁)
    (hal : Along (Cluster.step mb) P c bs) (hP : P c₁ (.crash n)) : ProjectsTo mb P c S' := by
  obtain ⟨c', hc', hshows, -⟩ := hT.restart hr
  have hstep : c₁.step mb (.crash n) = some c' := by
    unfold Cluster.step
    dsimp only
    rw [if_pos hn, hst]
    exact hc'
  refine ⟨bs ++ [.crash n], c', exec_append.mpr ⟨c₁, hbs, ?_⟩, hshows,
    (along_append hbs).mpr ⟨hal, along_cons.mpr ⟨hP, fun _ _ => trivial⟩⟩⟩
  rw [exec_singleton]
  exact hstep

theorem Shows.projects_died {n : ℕ} {e : Option Event} {T : Servers ε} {storage : List Record}
    {recovered : ε} (h : Shows S c) (hP : Permits P S c n e) (hT : Dies S n e T storage)
    (hn : n ∈ mb.ids) (hr : T.restart mb opts n storage recovered = some S') :
    ProjectsTo mb P c S' := by
  have hother : ∀ (T : Servers ε) (s : Server ε), ∀ m, m ≠ n →
      (T.absorb n s).servers m = T.servers m := fun T s m hm => Function.update_of_ne hm ..
  cases hT with
  | between =>
    exact .crash hr hn [] rfl (by rw [h.nodes])
      (.of_shows h (fun _ _ => rfl) (fun _ _ => rfl) h.net) trivial (hP.crash c)
  | handling ev s hsees hh =>
    cases Server.handled_of_eq hh with
    | panicked _ hnode hsent hresults =>
      refine .crash hr hn [] rfl (by rw [h.nodes, hnode])
        (.of_shows h (fun _ _ => rfl) (hother (S.note n ev) s) ?_) trivial (hP.crash c)
      show c.net = S.net ++ s.sent
      rw [hsent, h.clean, List.append_nil, h.net]
  | persisting ev s hsees hh hp =>
    cases Server.handled_of_eq hh with
    | called op _ hrun hnew hmsg hstorage hsent hresults hpending hwaiters =>
      refine .crash hr hn [] rfl (by rw [h.nodes, hstorage])
        (.of_shows h (fun _ _ => rfl) (hother (S.note n ev) s) ?_) trivial (hP.crash c)
      show c.net = S.net ++ s.sent
      rw [hsent, h.clean, List.append_nil, h.net]
  | cut ev s k hsees hh =>
    cases Server.handled_of_eq hh with
    | called op _ hrun hnew hmsg hstorage hsent hresults hpending hwaiters =>
      cases hcut : s.node.persistCut k with
      | none =>
        rw [hcut, Option.getD_none] at hr
        exact .crash hr hn [] rfl (by rw [h.nodes, hstorage])
          (.of_shows h (fun _ _ => rfl) (fun _ _ => rfl) h.net) trivial (hP.crash c)
      | some st =>
        rw [hcut, Option.getD_some] at hr
        have hbut : ShowsBut n (S.note n ev) c :=
          .of_shows h (fun _ _ => rfl) (fun _ _ => rfl) h.net
        obtain ⟨c', hc', hshows, -⟩ := hbut.restart hr
        have hnode : (⟨s.node.r, (c.nodes n).storage⟩ : Node) = s.node := by
          rw [h.nodes, ← hstorage]
        refine ⟨[.run n op (some k)], c', ?_, hshows,
          along_cons.mpr ⟨hP.run ev rfl op _ hmsg hnew, fun _ _ => trivial⟩⟩
        rw [exec_singleton]
        unfold Cluster.step
        dsimp only
        rw [if_pos ⟨hn, h.deliverable hsees hmsg⟩, h.nodes, hrun]
        simp only [Cluster.finish, hnode, hcut]
        exact hc'
  | pumping ev s nd rd s' hsees hh hp hs =>
    cases Server.handled_of_eq hh with
    | called op _ hrun hnew hmsg hstorage hsent hresults hpending hwaiters =>
      obtain ⟨c₁, hstep, hnd, hnet, hoth⟩ :=
        h.run hn (h.deliverable hsees hmsg) hrun hstorage hp
      rcases s.pumped_cases nd rd with ⟨s₂, hs₂, hnode, hset⟩ | ⟨s₂, hs₂, -⟩
      swap
      · rw [hs] at hs₂
        cases hs₂
      rw [hs] at hs₂
      cases hs₂
      refine .crash hr hn [.run n op none] (by rw [exec_singleton]; exact hstep)
        (by rw [hnd, hnode]) (.of_shows h hoth (fun m hm => Function.update_of_ne hm ..) ?_)
        (along_cons.mpr ⟨hP.run ev rfl op _ hmsg hnew, fun _ _ => trivial⟩) (hP.crash c₁)
      show c₁.net = S.net ++ s'.sent
      rw [h.sent_eq hh hset, hnet, h.net]

/-- **A round that pumps is a step of the cluster**, and an automatic snapshot a compaction after
it. -/
theorem Shows.pumped {n : ℕ} {ev : Event} {s s' : Server ε} {nd : Node} {rd : Ready} (h : Shows S c)
    (hn : n ∈ mb.ids) (hsees : S.Sees n ev) (hh : (S.servers n).handle ev = .ok (s, true))
    (hp : s.node.persist = some (nd, rd)) (hs : s.pumped nd rd = .ok s') :
    ∃ op c₁ c', (∀ m, op = .step m → ev = .recv m) ∧
      (∀ x ∈ op.new (S.servers n).node.r, x ∈ ((S.servers n).gives ev).map Prod.snd) ∧
      c.step mb (.run n op none) = some c₁ ∧ c₁.nodes n = nd ∧
      Shows ({ S.note n ev with committed := S.committed ++ nd.r.committedEntries }.absorb n s')
      c' ∧ (c' = c₁ ∨ ∃ index data r err, nd.r.createSnapshot index data = some (r, err) ∧
        c' = c₁.setNode n ⟨r, nd.storage⟩) := by
  cases Server.handled_of_eq hh with
  | called op _ hrun hnew hmsg hstorage hsent hresults hpending hwaiters =>
    obtain ⟨c₁, hstep, hnd, hnet, hoth⟩ :=
      h.run hn (h.deliverable hsees hmsg) hrun hstorage hp
    rcases s.pumped_cases nd rd with ⟨s₂, hs₂, -⟩ | ⟨s₂, hs₂, hcomp, hset⟩
    · rw [hs] at hs₂
      cases hs₂
    rw [hs] at hs₂
    cases hs₂
    obtain ⟨T, hT⟩ : ∃ T, T = ({ S.note n ev with
      committed := S.committed ++ nd.r.committedEntries } : Servers ε).absorb n s' := ⟨_, rfl⟩
    have hbut : ShowsBut n T c₁ := by
      rw [hT]
      refine .of_shows h hoth (fun m hm => Function.update_of_ne hm ..) ?_
      show c₁.net = S.net ++ s'.sent
      rw [h.sent_eq hh hset, hnet, h.net]
    have hTnode : (T.servers n).node = s'.node ∧ (T.servers n).sent = [] := by
      rw [hT]
      simp only [absorb, Function.update_self, and_self]
    rw [← hT]
    rcases hcomp with hsame | ⟨index, data, r, err, hcreate, hnode⟩
    · exact ⟨op, c₁, c₁, hmsg, hnew, hstep, hnd,
        hbut.complete (by rw [hnd, hTnode.1, hsame]) hTnode.2, Or.inl rfl⟩
    · have hbut₂ : ShowsBut n T (c₁.setNode n ⟨r, nd.storage⟩) :=
        ⟨fun m hm => (Function.update_of_ne hm ..).trans (hbut.nodes m hm), hbut.net, hbut.clean⟩
      exact ⟨op, c₁, _, hmsg, hnew, hstep, hnd,
        hbut₂.complete ((Function.update_self ..).trans (hnode.symm.trans hTnode.1.symm)) hTnode.2,
        Or.inr ⟨index, data, r, err, hcreate, rfl⟩⟩

/-- **A step of the servers is a run of the cluster**, whose steps are of the kinds `P` permits. -/
theorem Shows.projectsTo {a : ServersAction ε} (h : Shows S c) (hP : Permits P S c a.node a.event)
    (hstep : Stepped mb opts S a S') : ProjectsTo mb P c S' := by
  cases hstep with
  | idle n ev s hsees hh =>
    cases Server.handled_of_eq hh with
    | idle _ hnode hsent hresults hpending hwaiters =>
      have hbut : ShowsBut n ((S.note n ev).absorb n s) c :=
        .of_shows h (fun _ _ => rfl) (fun m hm => Function.update_of_ne hm ..) (by
          show c.net = S.net ++ s.sent
          rw [hsent, h.clean, List.append_nil, h.net])
      refine ⟨[], c, rfl, hbut.complete ?_ ?_, trivial⟩
      · simp only [absorb, Function.update_self]
        rw [h.nodes, hnode]
      · simp only [absorb, Function.update_self]
  | pumped n ev s nd rd s' hn hsees hh hp hs =>
    obtain ⟨op, c₁, c', hmsg, hnew, hstep, hnd, hshows, hc'⟩ := h.pumped hn hsees hh hp hs
    have hPrun : P c (.run n op none) := hP.run ev rfl op _ hmsg hnew
    rcases hc' with rfl | ⟨index, data, r, err, hcreate, rfl⟩
    · exact ⟨[.run n op none], _, by rw [exec_singleton]; exact hstep, hshows,
        along_cons.mpr ⟨hPrun, fun _ _ => trivial⟩⟩
    · have hstep₂ : c₁.step mb (.compact n index data) = some (c₁.setNode n ⟨r, nd.storage⟩) := by
        unfold Cluster.step
        dsimp only
        rw [if_pos hn, hnd, hcreate]
      refine ⟨[.run n op none, .compact n index data], _,
        exec_cons.mpr ⟨c₁, hstep, by rw [exec_singleton]; exact hstep₂⟩, hshows, ?_⟩
      exact along_cons.mpr ⟨hPrun, fun c₂ _ =>
        along_cons.mpr ⟨hP.compact _ _ _, fun _ _ => trivial⟩⟩
  | died n e T S' storage ha hk hn hT hr =>
    obtain ⟨rfl, rfl⟩ := ha
    exact h.projects_died hP hT hn hr

end Projection

/-- A round hands out what its batch is given. -/
theorem Stepped.gives_subset {a : ServersAction ε} (h : Stepped mb opts S a S') :
    ∀ ev ∈ a.event, (S.servers a.node).gives ev ⊆ S'.given := by
  intro ev hev
  cases h with
  | idle n ev' s hsees hh =>
    cases hev
    exact List.subset_append_right _ _
  | pumped n ev' s nd rd s' hn hsees hh hp hs =>
    cases hev
    exact List.subset_append_right _ _
  | died n e T S' storage ha hk hn hT hr =>
    obtain ⟨rfl, rfl⟩ := ha
    obtain ⟨-, -, s, -, -, rfl⟩ := restart_cases hr
    generalize a.event = e at hev hT
    cases hT with
    | between => cases hev
    | handling ev' s hsees hh => cases hev; exact List.subset_append_right _ _
    | persisting ev' s hsees hh hp => cases hev; exact List.subset_append_right _ _
    | cut ev' s k hsees hh => cases hev; exact List.subset_append_right _ _
    | pumping ev' s nd rd s' hsees hh hp hs => cases hev; exact List.subset_append_right _ _

/-- A step of the servers creates only entries given to requests. -/
theorem Shows.projects {c : Cluster} {a : ServersAction ε} (h : Shows S c)
    (hstep : Stepped mb opts S a S') : Projects mb c S' := by
  refine h.projectsTo ⟨fun ev hev op cut _ hnew e he => ?_, fun _ _ _ e he =>
    absurd he List.not_mem_nil, fun _ e he => absurd he List.not_mem_nil⟩ hstep
  have he' : e ∈ op.new (S.servers a.node).node.r := by rw [← h.nodes]; exact he
  obtain ⟨p, hp, rfl⟩ := List.mem_map.mp (hnew e he')
  exact List.mem_map_of_mem (hstep.gives_subset ev hev hp)

/-- A death leaves the other servers as they are. -/
theorem Dies.servers_of_ne {n : ℕ} {e : Option Event} {T : Servers ε} {storage : List Record}
    (h : Dies S n e T storage) {m : ℕ} (hm : m ≠ n) : T.servers m = S.servers m := by
  cases h with
  | between => rfl
  | cut ev s k hsees hh => rfl
  | handling ev s hsees hh => exact Function.update_of_ne hm ..
  | persisting ev s hsees hh hp => exact Function.update_of_ne hm ..
  | pumping ev s nd rd s' hsees hh hp hs => exact Function.update_of_ne hm ..

theorem Stepped.given_isPrefix {a : ServersAction ε} (h : Stepped mb opts S a S') :
    S.given <+: S'.given := by
  cases h with
  | idle n ev s hsees hh => exact List.prefix_append _ _
  | pumped n ev s nd rd s' hn hsees hh hp hs => exact List.prefix_append _ _
  | died n e T S' storage ha hk hn hT hr =>
    obtain ⟨-, -, s, -, -, rfl⟩ := restart_cases hr
    cases hT with
    | between => exact List.prefix_rfl
    | handling ev s hsees hh => exact List.prefix_append _ _
    | persisting ev s hsees hh hp => exact List.prefix_append _ _
    | cut ev s k hsees hh => exact List.prefix_append _ _
    | pumping ev s nd rd s' hsees hh hp hs => exact List.prefix_append _ _

omit [StorageEngine ε] in
theorem shows_init (mb : Members) (opts : ℕ → ServerOptions) (eng : ε) :
    Shows (Servers.init mb opts eng) (Cluster.init mb) :=
  ⟨fun _ => rfl, rfl, fun _ => rfl⟩

/-- **The nodes of the servers make a run of the cluster**, and every entry it creates has been
given to a request. -/
theorem Runs.project {eng : ε} {as : List (ServersAction ε)} (h : Servers.Runs mb opts eng as S) :
    Projects mb (Cluster.init mb) S := by
  refine exec_induct (P := fun _ _ => True) (I := Projects mb (Cluster.init mb))
    (fun S a S' hS _ hstep => ?_) ?_ (along_of_all (fun _ _ => trivial) _ as) h
  · obtain ⟨bs, c, hbs, hc, hal⟩ := hS
    have hst := step_cases hstep
    obtain ⟨bs', c', hbs', hc', hal'⟩ := hc.projects hst
    refine ⟨bs ++ bs', c', exec_append.mpr ⟨c, hbs, hbs'⟩, hc', (along_append hbs).mpr ⟨?_, hal'⟩⟩
    refine along_of_imp (fun _ _ hin e he => ?_) hal
    exact (hst.given_isPrefix.map Prod.snd).subset (hin e he)
  · exact ⟨[], _, rfl, shows_init mb opts eng, trivial⟩

end Servers

/-! ## Where entries come from -/

variable {mb : Members} {c c' : Cluster} {A : Abs} {es : List LogEntry}

/-- A run that creates only entries in `es` keeps the histories in `es`. -/
theorem Sim.run_creates (h : Sim False mb c A) (hA : ∀ t, ∀ e ∈ A.hist t, e ∈ es) {as : List Action}
    (hal : Along (Cluster.step mb) (Servers.CreatesIn es) c as)
    (hrun : exec (Cluster.step mb) c as = some c') :
    ∃ A', Sim False mb c' A' ∧ ∀ t, ∀ e ∈ A'.hist t, e ∈ es := by
  refine exec_induct (I := fun c => ∃ A, Sim False mb c A ∧ ∀ t, ∀ e ∈ A.hist t, e ∈ es)
    (fun c a c' ⟨A, hsim, hA⟩ hin hstep => ?_) ⟨A, h, hA⟩ hal hrun
  obtain ⟨A', hsim', hmoves⟩ := hsim.step False.elim hstep
  refine ⟨A', hsim', fun t e he => ?_⟩
  rcases hmoves.fresh t e he with ⟨u, hu⟩ | hnew
  · exact hA u e hu
  · exact hin e hnew

/-- The committed entries that a node still has. -/
theorem Spans.committedEntries_eq {r : Raft} {l : List LogEntry} {b : ℕ} (h : Spans r l b) :
    r.committedEntries = (l.take r.commitIndex).drop b := by
  have hcut := (h.indexed.drop b).filter_lt (r.commitIndex + 1)
  rw [Nat.zero_add, Nat.add_sub_cancel, ← List.drop_take] at hcut
  rw [Raft.committedEntries, h.log_eq, window, List.tail_cons, ← hcut]
  exact List.filter_congr fun e _ => by simp only [Nat.lt_succ_iff]

/-- What `Entries` hands out up to the commit index is committed. -/
theorem Spans.mem_committedEntries {r : Raft} {l : List LogEntry} {b start : ℕ} (h : Spans r l b)
    (hes : r.entries start r.commitIndex = some es) {e : LogEntry} (he : e ∈ es) :
    e ∈ r.committedEntries ∧ e ∈ l := by
  rw [h.entries] at hes
  obtain rfl := Option.some.inj hes
  rw [h.committedEntries_eq]
  exact ⟨(List.drop_sublist_drop_left _ (le_max_right _ _)).subset he,
    List.mem_of_mem_take (List.mem_of_mem_drop he)⟩

end KvStore
