import KvStore.Server.SnapshotContent

/-!
# Replicas

Every server applies the one committed log, each as far as it has got. Two servers may be at
different places of it, and a server that has been started again may have content that is ahead of
its `lastApplied`.

* `Servers.Finds T`: the condition on a step beside `Regular`. A process that dies without a stored
  snapshot leaves an engine with keys that the first `T` entries write; the entries it had applied,
  in the intended use.
* `Servers.Holds`: the engine of a server has what the committed entries up to `lastApplied` make of
  such a content. Nothing of the abstract protocol is in it: the log is read off the entries that
  have been recorded as committed.
* `replicas_agree`: servers that have applied their first `T` entries again are at two places of one
  committed log.
* `reads_never_go_back`: what one process answers to local reads moves along this log and never
  back.
-/

namespace KvStore

open Consensus Machine StorageEngine

/-- A log has one entry at an index. -/
theorem IndexedFrom.eq_of_index {k : ℕ} {l : List LogEntry} (h : IndexedFrom k l) {e e' : LogEntry}
    (he : e ∈ l) (he' : e' ∈ l) (hindex : e'.index = e.index) : e' = e := by
  obtain ⟨i, hi, rfl⟩ := List.mem_iff_getElem.mp he
  obtain ⟨j, hj, rfl⟩ := List.mem_iff_getElem.mp he'
  rw [h i hi, h j hj] at hindex
  obtain rfl : j = i := by omega
  rfl

namespace Servers

variable {ε : Type} {mb : Members} {opts : ℕ → ServerOptions} {S S' : Servers ε} {c : Cluster}
    {A A' : Abs} {n : ℕ}

/-! ## The log that is recorded -/

/-- Recorded entries that are numbered from one on are a committed log. -/
theorem decided_of_recorded {C H : List LogEntry} (hgood : Good True mb A)
    (hcom : ∀ e ∈ C, ∃ K, Decided A K ∧ e ∈ K) (hidx : Indexed H) (hsub : ∀ e ∈ H, e ∈ C) :
    Decided A H := by
  by_cases hnil : H = []
  · rw [hnil]
    exact .nil
  -- the committed log that has the last entry has all of them
  obtain ⟨K, hK, hlast⟩ := hcom _ (hsub _ (List.getLast_mem hnil))
  have hpos : 0 < H.length := List.length_pos_iff.mpr hnil
  have hlen : H.length ≤ K.length := by
    have hle := (hgood.indexed_decided hK).index_le hlast
    rw [List.getLast_eq_getElem, hidx _ (by omega)] at hle
    omega
  refine hK.of_isPrefix (List.prefix_iff_eq_take.mpr (List.ext_getElem ?_ fun i hi hi' => ?_))
  · rw [List.length_take_of_le hlen]
  · obtain ⟨L, hL, hmem⟩ := hcom _ (hsub _ (List.getElem_mem hi))
    have hin : H[i] ∈ K := hgood.mem_decided hK hL hmem (by rw [hidx i hi]; omega)
    have hidxK := hgood.indexed_decided hK
    rw [List.getElem_take]
    exact hidxK.eq_of_index (List.getElem_mem _) hin (by rw [hidx i hi, hidxK i])

/-- The committed log up to an index stays the committed log up to it. -/
theorem CommittedUpTo.mono {i : ℕ} {H : List LogEntry} (h : S.CommittedUpTo i H)
    (hgood : Good True mb A') (hcom : ∀ e ∈ S'.committed, ∃ K, Decided A' K ∧ e ∈ K)
    (hsub : S.committed ⊆ S'.committed) : S'.CommittedUpTo i H := by
  have hmem : ∀ e ∈ H, e ∈ S'.committed := fun e he => hsub ((h.mem e).mp he).1
  rw [← h.length]
  exact Faithful.committedUpTo hgood hcom (decided_of_recorded hgood hcom h.indexed hmem) hmem

/-- Two committed logs are one, each up to its length. -/
theorem CommittedUpTo.isPrefix {i j : ℕ} {H K : List LogEntry} (h : S.CommittedUpTo i H)
    (h' : S.CommittedUpTo j K) (hij : i ≤ j) : H <+: K := by
  have hi := h.length
  have hj := h'.length
  refine List.prefix_iff_eq_take.mpr (List.ext_getElem ?_ fun k hk hk' => ?_)
  · rw [List.length_take_of_le (by omega)]
  · obtain ⟨hmem, -⟩ := (h.mem _).mp (List.getElem_mem hk)
    have hin : H[k] ∈ K := (h'.mem H[k]).mpr ⟨hmem, by rw [h.indexed k hk]; omega⟩
    rw [List.getElem_take]
    exact h'.indexed.eq_of_index (List.getElem_mem _) hin (by rw [h.indexed k hk, h'.indexed k])

/-! ## What a server holds -/

variable [StorageEngine ε] {T : ℕ → ℕ}

/-- A process that dies without a stored snapshot leaves an engine with keys that the first `T`
entries write. -/
def Finds (T : ℕ → ℕ) (S : Servers ε) (a : ServersAction ε) : Prop :=
  S.Kills a.node a → (replayAll (S.servers a.node).node.storage).snap.lastIncludedIndex = 0 →
    Covered S.committed (T a.node) (get a.recovered)

/-- The engine of server `n` has what the committed entries up to `lastApplied` make of a content
whose keys the first `T` entries write. -/
def Holds (T : ℕ → ℕ) (S : Servers ε) (n : ℕ) : Prop :=
  ∃ H c, S.CommittedUpTo (S.servers n).lastApplied H ∧
    get (S.servers n).eng = applyOps c (opsOf H) ∧ Covered S.committed (T n) c

/-- Once the first `T` entries have been applied, nothing is left of that content. -/
theorem Holds.content (h : S.Holds T n) (hT : T n ≤ (S.servers n).lastApplied) :
    ∃ H, S.CommittedUpTo (S.servers n).lastApplied H ∧
      get (S.servers n).eng = storeAt H H.length := by
  obtain ⟨H, c, hH, hget, hcov⟩ := h
  refine ⟨H, hH, hget.trans (hcov.applyOps_eq fun e he hi => ?_)⟩
  exact (hH.mem e).mpr ⟨he, hi.trans hT⟩

/-- A later state has the committed log up to some index, and the server had not gone past it. -/
theorem Holds.eq_storeAt (h : S.Holds T n) (hT : T n ≤ (S.servers n).lastApplied)
    (hgood : Good True mb A') (hcom : ∀ e ∈ S'.committed, ∃ K, Decided A' K ∧ e ∈ K)
    (hsub : S.committed ⊆ S'.committed) {j : ℕ} {H : List LogEntry} (hH : S'.CommittedUpTo j H)
    (hj : (S.servers n).lastApplied ≤ j) :
    get (S.servers n).eng = storeAt H (S.servers n).lastApplied := by
  obtain ⟨K, hK, hget⟩ := h.content hT
  have hpre := (hK.mono hgood hcom hsub).isPrefix hH hj
  rw [hget, ← hK.length, storeAt, storeAt, List.take_length, ← List.prefix_iff_eq_take.mp hpre]

/-- A server that neither applies nor restores. -/
theorem Holds.congr (h : S.Holds T n) (hgood : Good True mb A')
    (hcom : ∀ e ∈ S'.committed, ∃ K, Decided A' K ∧ e ∈ K) (hsub : S.committed ⊆ S'.committed)
    (heng : (S'.servers n).eng = (S.servers n).eng)
    (happ : (S'.servers n).lastApplied = (S.servers n).lastApplied) : S'.Holds T n := by
  obtain ⟨H, c, hH, hget, hcov⟩ := h
  refine ⟨H, c, ?_, by rw [heng]; exact hget, hcov.mono hsub⟩
  rw [happ]
  exact hH.mono hgood hcom hsub

/-- A server whose log is committed and recorded. -/
theorem holds_of_replays {H : List LogEntry} {b : Content} (hgood : Good True mb A)
    (hcom : ∀ e ∈ S.committed, ∃ K, Decided A K ∧ e ∈ K) (hH : Decided A H)
    (hlen : H.length = (S.servers n).lastApplied) (hsub : ∀ e ∈ H, e ∈ S.committed)
    (hrep : (S.servers n).Replays H b) (hcov : Covered S.committed (T n) b) : S.Holds T n := by
  refine ⟨H, b, ?_, ?_, hcov⟩
  · rw [← hlen]
    exact Faithful.committedUpTo hgood hcom hH hsub
  · unfold Server.Replays at hrep
    rw [hrep, ← hlen, List.take_length]

theorem Holds.tracks (h : S.Holds T n) (hgood : Good True mb A)
    (hcom : ∀ e ∈ S.committed, ∃ K, Decided A K ∧ e ∈ K) :
    (S.servers n).Tracks A S.committed (T n) := by
  obtain ⟨H, b, hH, hget, hcov⟩ := h
  refine ⟨H, b, decided_of_recorded hgood hcom hH.indexed fun e he =>
    ((hH.mem e).mp he).1, hH.length, ?_, hcov⟩
  unfold Server.Replays
  rw [hget, ← hH.length, List.take_length]

variable [LawfulEngine ε] [LawfulSnapshot ε]

/-- **A step keeps what the servers hold.** -/
theorem Holds.step (hI : InStep mb S c A) (hF : S.Faithful mb opts A) {a : ServersAction ε}
    (ha : S.Regular opts a) (hfinds : S.Finds T a) (hstep : Stepped mb opts S a S')
    (h : ∀ m ∈ mb.ids, S.Holds T m) : ∀ m ∈ mb.ids, S'.Holds T m := by
  obtain ⟨c', A', hI', hF'⟩ := hF.step hI ha hstep
  intro m hm
  cases hstep with
  | idle n ev s hsees hh =>
    by_cases hmn : m = n
    · subst hmn
      have hleaves := (Server.handle_leaves hh).1
      refine (h m hm).congr hI'.sim.good hF'.committed (List.Subset.refl _) ?_ ?_
      · simp only [absorb, Function.update_self]
        exact hleaves.eng
      · simp only [absorb, Function.update_self]
        exact hleaves.applied
    · refine (h m hm).congr hI'.sim.good hF'.committed (List.Subset.refl _) ?_ ?_ <;>
        simp only [absorb, Function.update_of_ne hmn, note]
  | pumped n ev s nd rd s' hn hsees hh hp hs =>
    have hsub := List.subset_append_left S.committed nd.r.committedEntries
    by_cases hmn : m = n
    · subst hmn
      obtain ⟨c₁, A₁, hshows, hsim, happlies⟩ := hI.shows_pumped hn ha.1.1 ha.1.2 hsees hh hp hs
      have hsnap := hF.snapshots _ (InStep.carries_persisted hn hsees hh hp).1
      have htr := happlies.tracks (Server.handle_leaves hh).1 (fun x hev hinst => by
        subst hev
        exact ha.1.2 hinst) hsnap ((h m hm).tracks hI.sim.good hF.committed)
      obtain ⟨s₁, happ, heng, hlast, -⟩ := Server.pumped_applied hs
      obtain ⟨b, hget, hcov⟩ :=
        happlies.tracks_applied htr (ha.2.1.1 _ (Server.delivers_eq hh hp)) happ
      have hcommit : s'.lastApplied = nd.r.commitIndex := hlast.trans (happlies.caught_up happ).1
      refine holds_of_replays hsim.good (hF.committed_pumped happlies) happlies.decided ?_
        (happlies.recorded hsnap) ?_ (hcov.mono hsub)
      · simp only [absorb, Function.update_self]
        exact happlies.length_take.trans hcommit.symm
      · simp only [absorb, Function.update_self]
        unfold Server.Replays
        dsimp only
        rw [heng, hget, List.take_of_length_le (happlies.length_take.trans hcommit.symm).le]
    · refine (h m hm).congr hI'.sim.good hF'.committed hsub ?_ ?_ <;>
        simp only [absorb, Function.update_of_ne hmn, note]
  | died n e S₁ S' storage hae hk hn hT hr =>
    obtain ⟨rfl, rfl⟩ := hae
    have hcom := Faithful.committed_died hI hn ha.1 hT
    obtain ⟨nd, snap, s, hopen, hstart, rfl⟩ := restart_start hr
    have hsub : S.committed ⊆ S₁.committed := by rw [hcom]; exact List.Subset.refl _
    by_cases hmn : m = a.node
    · subst hmn
      obtain ⟨H, b, hH, hlen, hrec, hrep, hcov⟩ := hF.started_replays hn (hfinds hk) hT hopen hstart
      have hmem : ∀ x ∈ H, x ∈ S₁.committed := fun x hx => hsub (hrec x hx)
      have hH' :=
        decided_of_recorded hI'.sim.good hF'.committed (hI.sim.good.indexed_decided hH) hmem
      refine holds_of_replays hI'.sim.good hF'.committed hH' ?_ hmem ?_ (hcov.mono hsub)
      · simp only [Function.update_self]
        exact hlen
      · simp only [Function.update_self]
        exact hrep
    · refine (h m hm).congr hI'.sim.good hF'.committed hsub ?_ ?_ <;>
        simp only [Function.update_of_ne hmn, hT.servers_of_ne hmn]

end Servers

/-! ## One log for all -/

section Main

variable {ε : Type} [StorageEngine ε] {mb : Members} {opts : ℕ → ServerOptions}
    {T : ℕ → ℕ} {eng : ε}
  {S S' : Servers ε} {as bs : List (ServersAction ε)} {n m : ℕ}

/-- No unsafe snapshot is processed, no call of the engine fails, and a process finds an engine that
its first entries cover: `SnapshotThreshold` of them, where it takes snapshots, and `T` of them. -/
abbrev Servers.Undisturbed (opts : ℕ → ServerOptions) (T : ℕ → ℕ) (S : Servers ε)
    (a : ServersAction ε) : Prop :=
  S.Regular opts a ∧ S.Finds T a

theorem Servers.Stepped.committed_subset {a : ServersAction ε} (h : Stepped mb opts S a S') :
    S.committed ⊆ S'.committed := by
  cases h with
  | idle n ev s hsees hh => exact List.Subset.refl _
  | pumped n ev s nd rd s' hn hsees hh hp hs => exact List.subset_append_left _ _
  | died n e S₁ S' storage hae hk hn hT hr =>
    obtain ⟨nd, snap, s, hopen, hstart, rfl⟩ := restart_start hr
    cases hT with
    | between | handling | persisting | cut => exact List.Subset.refl _
    | pumping => exact List.subset_append_left _ _

/-- What has been committed once has been committed ever after. -/
theorem Servers.exec_committed_subset (h : exec (Servers.step mb opts) S bs = some S') :
    S.committed ⊆ S'.committed :=
  exec_induct (P := fun _ _ => True) (I := fun S₁ : Servers ε => S.committed ⊆ S₁.committed)
    (fun _ _ _ hsub _ hstep => List.Subset.trans hsub (Servers.step_cases hstep).committed_subset)
    (List.Subset.refl _)
    (along_of_all (fun _ _ => trivial) S bs) h

/-- A process that survives has applied no less afterwards. -/
theorem Servers.InStep.exec_applied_le {c : Cluster} {A : Abs} (hI : InStep mb S c A)
    (h : exec (Servers.step mb opts) S bs = some S') (hn : n ∈ mb.ids)
    (hP : Along (Servers.step mb opts) Orderly S bs)
    (hlives : Along (Servers.step mb opts) (fun S a => ¬S.Kills n a) S bs) :
    (S.servers n).lastApplied ≤ (S'.servers n).lastApplied := by
  suffices hall : (∃ c A, InStep mb S' c A) ∧
    (S.servers n).lastApplied ≤ (S'.servers n).lastApplied from hall.2
  refine exec_induct (I := fun S' => (∃ c A, Servers.InStep mb S' c A) ∧
    (S.servers n).lastApplied ≤ (S'.servers n).lastApplied) ?_ ⟨⟨c, A, hI⟩, le_rfl⟩
      (along_and hP hlives) h
  rintro S₁ a S₂ ⟨⟨c₁, A₁, h₁⟩, hle⟩ ⟨ha, hk⟩ hstep
  have hstepped := Servers.step_cases hstep
  obtain ⟨c₂, A₂, h₂, -⟩ := h₁.step ha.1 ha.2 hstepped
  exact ⟨⟨c₂, A₂, h₂⟩, hle.trans (h₁.advances hn ha hk hstepped).applied⟩

variable [LawfulEngine ε] [LawfulSnapshot ε]

theorem Servers.Runs.holds (heng : get eng = fun _ => none) (h : Servers.Runs mb opts eng as S)
    (hP : Along (Servers.step mb opts) (Servers.Undisturbed opts T) (Servers.init mb opts eng) as) :
    (∃ c A, InStep mb S c A ∧ S.Faithful mb opts A) ∧ ∀ n ∈ mb.ids, S.Holds T n := by
  refine exec_induct (I := fun S => (∃ c A, Servers.InStep mb S c A ∧ S.Faithful mb opts A) ∧
    ∀ n ∈ mb.ids, S.Holds T n) ?_ ⟨⟨_, _, Servers.inStep_init mb opts eng, .init mb opts heng⟩,
      fun n hn => ?_⟩ hP h
  · rintro S a S' ⟨⟨c, A, hI, hF⟩, hS⟩ ⟨hreg, hfinds⟩ hstep
    have hstepped := Servers.step_cases hstep
    exact ⟨hF.step hI hreg hstepped, Servers.Holds.step hI hF hreg hfinds hstepped hS⟩
  · exact ⟨[], fun _ => none, ⟨indexed_nil 0, rfl, fun e => by simp [Servers.init]⟩, heng,
      covered_empty _ _⟩

/-- **Replicas agree.** Any two servers that have applied their first `T` entries, at one time or at
two, hold what the entries of one committed log up to their `lastApplied` make of an empty store. -/
theorem replicas_agree (heng : get eng = fun _ => none) (h : Servers.Runs mb opts eng as S)
    (h' : exec (Servers.step mb opts) S bs = some S')
    (hP : Along (Servers.step mb opts) (Servers.Undisturbed opts T) (Servers.init mb opts eng)
    (as ++ bs)) (hn : n ∈ mb.ids) (hm : m ∈ mb.ids) (hnT : T n ≤ (S.servers n).lastApplied)
    (hmT : T m ≤ (S'.servers m).lastApplied) : ∃ H, S'.CommittedUpTo H.length H ∧
      (S.servers n).lastApplied ≤ H.length ∧ (S'.servers m).lastApplied ≤ H.length ∧
      get (S.servers n).eng = storeAt H (S.servers n).lastApplied ∧
      get (S'.servers m).eng = storeAt H (S'.servers m).lastApplied := by
  have hrun : Servers.Runs mb opts eng (as ++ bs) S' := exec_append.mpr ⟨S, h, h'⟩
  have hsub := Servers.exec_committed_subset h'
  obtain ⟨-, hholds⟩ := h.holds heng ((along_append h).mp hP).1
  obtain ⟨⟨c', A', hI', hF'⟩, hholds'⟩ := hrun.holds heng hP
  -- the log of the server that is further on
  obtain ⟨j, H, hH, hnj, hmj⟩ : ∃ j H, S'.CommittedUpTo j H ∧ (S.servers n).lastApplied ≤ j ∧
      (S'.servers m).lastApplied ≤ j := by
    obtain ⟨K, -, hK, -⟩ := hholds n hn
    obtain ⟨L, -, hL, -⟩ := hholds' m hm
    rcases Nat.le_total (S.servers n).lastApplied (S'.servers m).lastApplied with hle | hle
    · exact ⟨_, L, hL, hle, le_rfl⟩
    · exact ⟨_, K, hK.mono hI'.sim.good hF'.committed hsub, le_rfl, hle⟩
  have hn' := (hholds n hn).eq_storeAt hnT hI'.sim.good hF'.committed hsub hH hnj
  have hm' := (hholds' m hm).eq_storeAt hmT hI'.sim.good hF'.committed (List.Subset.refl _) hH hmj
  have hlen := hH.length
  rw [← hlen] at hH hnj hmj
  exact ⟨H, hH, hnj, hmj, hn', hm'⟩

/-- **Local reads of one process never go back.** As long as the process lives, a later `Get` is
answered from the same committed log at the same place or one further on. -/
theorem reads_never_go_back (heng : get eng = fun _ => none) (h : Servers.Runs mb opts eng as S)
    (h' : exec (Servers.step mb opts) S bs = some S')
    (hP : Along (Servers.step mb opts) (Servers.Undisturbed opts T) (Servers.init mb opts eng)
    (as ++ bs)) (hn : n ∈ mb.ids) (hnT : T n ≤ (S.servers n).lastApplied)
    (hlives : Along (Servers.step mb opts) (fun S a => ¬S.Kills n a) S bs) :
    ∃ H i, i ≤ H.length ∧ S'.CommittedUpTo H.length H ∧ get (S.servers n).eng = storeAt H i ∧
      get (S'.servers n).eng = storeAt H H.length := by
  obtain ⟨hPas, hPbs⟩ := (along_append h).mp hP
  obtain ⟨⟨c, A, hI, -⟩, hholds⟩ := h.holds heng hPas
  have hle := hI.exec_applied_le h' hn (along_of_imp (fun _ _ hu => hu.1.1) hPbs) hlives
  have hrun : Servers.Runs mb opts eng (as ++ bs) S' := exec_append.mpr ⟨S, h, h'⟩
  obtain ⟨⟨c', A', hI', hF'⟩, hholds'⟩ := hrun.holds heng hP
  obtain ⟨H, hH, hget⟩ := (hholds' n hn).content (hnT.trans hle)
  have hold :=
    (hholds n hn).eq_storeAt hnT hI'.sim.good hF'.committed
      (Servers.exec_committed_subset h') hH hle
  have hlen := hH.length
  rw [← hlen] at hH hle
  exact ⟨H, _, hle, hH, hold, hget⟩

end Main

/-! ## A follower behind its leader -/

/-- A process that would find an empty engine. -/
theorem finds_of_empty {T : ℕ → ℕ} {S : Servers FlakyStore} {a : ServersAction FlakyStore}
    (h : a.recovered.kvs = []) : S.Finds T a := by
  intro _ _
  have hget : get a.recovered = fun _ => none := by
    show contentOf a.recovered.kvs = _
    rw [h]
    rfl
  rw [hget]
  exact covered_empty _ _

/-- Node one sends a heartbeat, from which node two learns that the entry is committed. -/
def spreadCommit : List (ServersAction FlakyStore) :=
  [roundOf 1 .tick,
    roundOf 2 (.recv { type := .appendEntries, fromId := 1, toId := 2, term := 1, prevLogIndex := 1,
                       prevLogTerm := 1, leaderCommit := 1 })]

/-- A run on engines that work and that every process finds empty. -/
theorem undisturbed_of_empty {T : ℕ → ℕ} {as : List (ServersAction FlakyStore)}
    {opts : ℕ → ServerOptions} {S : Servers FlakyStore}
    (hworks : Along (Servers.step .three opts) (fun S a => Servers.Orderly S a ∧ a.Works S) S as)
    (hempty : ∀ a ∈ as, a.recovered.kvs = []) :
    Along (Servers.step .three opts) (Servers.Undisturbed opts T) S as :=
  along_of_imp (fun _ _ h => ⟨⟨h.1.1, h.1.2, recovers_of_empty h.2⟩, finds_of_empty h.2⟩)
    (along_and hworks (along_of_forall hempty _))

theorem undisturbed_spread :
    Along (Servers.step .three fun _ => {}) (Servers.Undisturbed (fun _ => {}) fun _ => 0)
    (Servers.init .three (fun _ => {}) ({} : FlakyStore))
    (electServer 1 2 0 1 ++ commitPut ++ spreadCommit) :=
  undisturbed_of_empty (by decide +kernel) (by decide)

/-- Node one has applied the entry before node two hears of it, and both then hold the same. -/
theorem replicas_agree_spread : ∃ S S' : Servers FlakyStore,
    Servers.Runs .three (fun _ => {}) {} (electServer 1 2 0 1 ++ commitPut) S ∧
    exec (Servers.step .three fun _ => {}) S spreadCommit = some S' ∧
    (S.servers 1).lastApplied = 1 ∧ (S.servers 2).lastApplied = 0 ∧ (S'.servers 2).lastApplied = 1 ∧
    ∃ H, S'.CommittedUpTo H.length H ∧ get (S.servers 1).eng = storeAt H 1 ∧
      get (S'.servers 2).eng = storeAt H 1 := by
  have hrun : ((exec (Servers.step .three fun _ => {}) (Servers.init .three (fun _ => {}) {})
      (electServer 1 2 0 1 ++ commitPut)).bind fun S =>
        (exec (Servers.step .three fun _ => {}) S spreadCommit).map fun S' =>
          decide ((S.servers 1).lastApplied = 1 ∧ (S.servers 2).lastApplied = 0 ∧
            (S'.servers 2).lastApplied = 1)) = some true := by
    decide +kernel
  obtain ⟨S, h, hrun⟩ := Option.bind_eq_some_iff.mp hrun
  obtain ⟨S', h', hrun⟩ := Option.map_eq_some_iff.mp hrun
  obtain ⟨h1, h2, h2'⟩ := of_decide_eq_true hrun
  obtain ⟨H, hH, -, -, hget, hget'⟩ :=
    replicas_agree rfl h h' undisturbed_spread (n := 1) (m := 2) (by decide)
    (by decide) (Nat.zero_le _) (Nat.zero_le _)
  rw [h1] at hget
  rw [h2'] at hget'
  exact ⟨S, S', h, h', h1, h2, h2', H, hH, hget, hget'⟩

/-- Node one reads its own write twice, with a heartbeat in between. -/
theorem reads_never_go_back_spread : ∃ S S' : Servers FlakyStore,
    Servers.Runs .three (fun _ => {}) {} (electServer 1 2 0 1 ++ commitPut) S ∧
    exec (Servers.step .three fun _ => {}) S spreadCommit = some S' ∧
    ∃ H i, i ≤ H.length ∧ S'.CommittedUpTo H.length H ∧ get (S.servers 1).eng = storeAt H i ∧
      get (S'.servers 1).eng = storeAt H H.length := by
  have hrun : ((exec (Servers.step .three fun _ => {}) (Servers.init .three (fun _ => {}) {})
      (electServer 1 2 0 1 ++ commitPut)).bind fun S =>
        (exec (Servers.step .three fun _ => {}) S spreadCommit).map fun _ =>
          decide (Along (Servers.step .three fun _ => {}) (fun S a => ¬S.Kills 1 a) S spreadCommit))
            =
      some true := by
    decide +kernel
  obtain ⟨S, h, hrun⟩ := Option.bind_eq_some_iff.mp hrun
  obtain ⟨S', h', hrun⟩ := Option.map_eq_some_iff.mp hrun
  exact ⟨S, S', h, h', reads_never_go_back rfl h h' undisturbed_spread (by decide) (Nat.zero_le _)
    (of_decide_eq_true hrun)⟩

end KvStore
