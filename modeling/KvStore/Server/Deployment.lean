import KvStore.Server.Linearizable
import KvStore.Server.OpenStore

/-!
# Servers on stores

The whole of a node: the event loop, the Raft node with its log file, and the store with its
memtables, tables, logs and flushes in the background. A process that dies opens both again.

* `Servers.Reopens T`: what a dying process leaves is the directory of its own store, and it has not
  applied more than `T` entries unless it has stored a snapshot.
* `Servers.Deployed`: the condition on a step. Beside `Reopens` it is that no unsafe snapshot is
  processed, that none arrives while a flush is in progress, and that the snapshots taken are not
  too long. Nothing else is assumed of the store: batches are never refused
  (`OpenStore.applyBatch_ok`).
* `Servers.Runs.undisturbed`: such a run meets the condition of `Replicas.lean` and
  `Linearizable.lean`. What a store shows after it was opened is what its server had applied.
* `deployed_content`: every store shows a committed log, and would still show it after a death.
-/

namespace KvStore

open Consensus Machine StorageEngine

/-! ## What entries cover -/

/-- A key that entries write is written by one of them. -/
theorem exists_layerOf {H : List LogEntry} {key : Bytes} (h : layerOf (opsOf H) key ≠ none) :
    ∃ e ∈ H, layerOf (opsOf [e]) key ≠ none := by
  induction H with
  | nil => exact absurd rfl h
  | cons e H ih =>
    rw [show e :: H = [e] ++ H from rfl, opsOf_append, layerOf_append] at h
    cases hH : layerOf (opsOf H) key with
    | none =>
      refine ⟨e, List.mem_cons_self, ?_⟩
      rwa [Layered.atop, hH, Option.none_or] at h
    | some v =>
      obtain ⟨e', he', hw⟩ := ih (by rw [hH]; exact Option.some_ne_none v)
      exact ⟨e', List.mem_cons_of_mem _ he', hw⟩

theorem Covered.applyOps {C H : List LogEntry} {i : ℕ} {c : Content} (h : Covered C i c)
    (hH : ∀ e ∈ H, e ∈ C ∧ e.index ≤ i) : Covered C i (KvStore.applyOps c (opsOf H)) := by
  intro key hkey
  rw [applyOps_apply] at hkey
  cases hw : layerOf (opsOf H) key with
  | none =>
    rw [hw, Option.getD_none] at hkey
    exact h key hkey
  | some v =>
    have hne : layerOf (opsOf H) key ≠ none := by
      rw [hw]
      exact Option.some_ne_none v
    obtain ⟨e, he, hwrites⟩ := exists_layerOf hne
    exact ⟨e, (hH e he).1, (hH e he).2, hwrites⟩

theorem Covered.le {C : List LogEntry} {i j : ℕ} {c : Content} (h : Covered C i c) (hij : i ≤ j) :
    Covered C j c := by
  intro key hkey
  obtain ⟨e, he, hi, hw⟩ := h key hkey
  exact ⟨e, he, hi.trans hij, hw⟩

/-! ## Conditions -/

namespace Servers

variable {mb : Members} {opts : ℕ → ServerOptions} {T : ℕ → ℕ} {S S' : Servers OpenStore}
  {a : ServersAction OpenStore}

/-- A process that dies opens its own directory again, and has applied at most `T` entries unless it
has stored a snapshot. -/
def Reopens (T : ℕ → ℕ) (S : Servers OpenStore) (a : ServersAction OpenStore) : Prop :=
  S.Kills a.node a → OpenStore.Reboots (S.servers a.node).eng a.recovered ∧
    ((replayAll (S.servers a.node).node.storage).snap.lastIncludedIndex = 0 →
      (S.servers a.node).lastApplied ≤ T a.node)

/-- The snapshot that the step takes fits its length fields. -/
def Fits (S : Servers OpenStore) : ServersAction OpenStore → Prop
  | .round n ev none _ => ∀ p ∈ (S.servers n).takes ev, p.2.length < 2 ^ 32
  | _ => True

instance (S : Servers OpenStore) : DecidablePred S.Fits
  | .round n ev none _ =>
    inferInstanceAs (Decidable (∀ p ∈ (S.servers n).takes ev, p.2.length < 2 ^ 32))
  | .round _ _ (some _) _ | .crash _ _ => .isTrue trivial

/-- The condition on a step of servers on stores. -/
abbrev Deployed (T : ℕ → ℕ) (S : Servers OpenStore) (a : ServersAction OpenStore) : Prop :=
  Orderly S a ∧ S.Fits a ∧ S.Reopens T a

theorem step_mem {ε : Type} [StorageEngine ε] {S S' : Servers ε} {a : ServersAction ε}
    (h : S.step mb opts a = some S') : a.node ∈ mb.ids := by
  cases a with
  | round n ev cut recovered =>
    unfold step at h
    dsimp only at h
    split_ifs at h with hn
    exact hn.1
  | crash n recovered =>
    unfold step at h
    dsimp only at h
    split_ifs at h with hn
    exact hn

/-- A store accepts every batch. -/
theorem Fits.works (h : S.Fits a) : a.Works S := by
  cases a with
  | round n ev cut recovered =>
    cases cut with
    | none => exact ⟨fun d _ es _ _ => d.eng.applyBatch_ok _, h⟩
    | some k => trivial
  | crash n recovered => trivial

/-- What a process finds is what its server had applied. -/
theorem Reopens.covered (h : S.Reopens T a) (hS : S.Holds T a.node) (hk : S.Kills a.node a)
    (hsnap : (replayAll (S.servers a.node).node.storage).snap.lastIncludedIndex = 0) :
    Covered S.committed (T a.node) (get a.recovered) := by
  obtain ⟨hreboots, hle⟩ := h hk
  obtain ⟨H, c, hH, hget, hcov⟩ := hS
  have hcontent : get a.recovered = applyOps c (opsOf H) := hreboots.content.trans hget
  rw [hcontent]
  refine hcov.applyOps fun e he => ?_
  obtain ⟨hmem, hindex⟩ := (hH.mem e).mp he
  exact ⟨hmem, hindex.trans (hle hsnap)⟩

theorem Deployed.undisturbed (h : Deployed T S a) (hS : S.Holds T a.node)
    (hT : (opts a.node).snapshotThreshold ≠ 0 → T a.node ≤ (opts a.node).snapshotThreshold) :
    Undisturbed opts T S a := by
  obtain ⟨horderly, hfits, hreopens⟩ := h
  refine ⟨⟨horderly, hfits.works, fun hk hsnap hthr => ?_⟩, fun hk hsnap =>
    hreopens.covered hS hk hsnap⟩
  exact (hreopens.covered hS hk hsnap).le (hT hthr)

/-- **Stores that are opened again are found as the model of the servers asks for.** -/
theorem Runs.undisturbed {eng : OpenStore} {as : List (ServersAction OpenStore)}
    (heng : get eng = fun _ => none) (h : Servers.Runs mb opts eng as S)
    (hT : ∀ n, (opts n).snapshotThreshold ≠ 0 → T n ≤ (opts n).snapshotThreshold)
    (hP : Along (Servers.step mb opts) (Deployed T) (Servers.init mb opts eng) as) :
    Along (Servers.step mb opts) (Undisturbed opts T) (Servers.init mb opts eng) as := by
  have hinit : Servers.Runs mb opts eng [] (Servers.init mb opts eng) := rfl
  refine along_of_induct (I := fun S => (∃ c A, Servers.InStep mb S c A ∧ S.Faithful mb opts A) ∧
    ∀ n ∈ mb.ids, S.Holds T n) ?_ (hinit.holds heng trivial) hP h
  rintro S a S' ⟨⟨c, A, hI, hF⟩, hS⟩ ha hstep
  have hstepped := Servers.step_cases hstep
  have hu : Undisturbed opts T S a := ha.undisturbed (hS a.node (step_mem hstep)) (hT a.node)
  exact ⟨hu, hF.step hI hu.1 hstepped, Holds.step hI hF hu.1 hu.2 hstepped hS⟩

end Servers

/-! ## What the stores show -/

/-- A store on an empty directory, with memtables that are flushed after every write. -/
def emptyStore : OpenStore where
  threshold := 1
  history := [.openOk]
  store := ({} : Store).opened newEngine [.openWal 0]
  eng := newEngine
  run := rfl
  up := rfl
  order_perm := fun _ => .refl _

/-- The store that the steps lead to, if its process runs then. -/
def storeAfter (history : List StoreAction) : Option OpenStore :=
  match run : exec (Store.step 1) {} history with
  | none => none
  | some σ =>
    match up : σ.eng with
    | none => none
    | some e =>
      some { emptyStore with history := history, store := σ, eng := e, run := run, up := up }

/-- The directory of a store that was given the `Put`. The process died when the table was written
and not yet installed; both logs were still there. -/
def reopenedStore : OpenStore :=
  (storeAfter [.openOk, .batch [⟨[7], [8], false⟩], .job 0, .job 0, .crash, .openOk]).getD
    emptyStore

/-- The same actions, on stores. -/
def onStore : ServersAction FlakyStore → ServersAction OpenStore
  | .round n ev cut _ => .round n ev cut emptyStore
  | .crash n _ => .crash n reopenedStore

/-- Node two applies the `Put` of node one, dies, and applies it again when the next heartbeat
comes. -/
def diesFlushing : List (ServersAction OpenStore) :=
  (electServer 1 2 0 1 ++ commitPut ++ spreadCommit ++ .crash 2 {} :: spreadCommit.tail).map onStore

/-- What `Reopens` says where the process dies as the one of node two does. -/
abbrev ReopensFlushing (S : Servers OpenStore) (a : ServersAction OpenStore) : Prop :=
  S.Kills a.node a → a.recovered.threshold = (S.servers a.node).eng.threshold ∧
    a.recovered.history = (S.servers a.node).eng.history ++ [.job 0, .job 0, .crash, .openOk] ∧
    Along (Store.step a.recovered.threshold) Store.Guarded {} a.recovered.history ∧
      (S.servers a.node).lastApplied ≤ 1

end KvStore
