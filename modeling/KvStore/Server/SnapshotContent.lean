import KvStore.Engine.SnapshotRoundTrip
import KvStore.Raft.LogAccess
import KvStore.Server.Lifetime
import KvStore.Server.Provenance
import KvStore.Server.Reapply

/-!
# What is in a snapshot

`maybeSnapshot` labels the engine's content with `lastApplied`. The two agree as long as the engine
holds nothing of what comes after that index. A restart can break this: without a stored snapshot
`lastApplied` starts at zero while the engine keeps what it had applied.

* `Covered C i c`: every key of the content `c` is written by an entry of `C` at or below index `i`.
  Applying the entries up to `i` again then leaves nothing of `c` (`Covered.applyOps_eq`).
* `Servers.Regular`: the condition on a step. A process that dies without a stored snapshot leaves
  an engine that is covered by the first `SnapshotThreshold` committed entries, and no call fails.
* `Servers.Faithful`: the invariant. Every snapshot that is carried anywhere holds the content of
  the committed entries up to its index, and an engine is what these entries make of a covered
  content.
* `snapshot_contents`: every `CreateSnapshot` gets the content of the committed entries up to its
  index, and so does a server that installs a snapshot.
* `snapshot_ahead`: the first snapshot of a node is only in memory when its process dies. A new
  leader tells it that two entries are committed, and the snapshot it then takes has the effect of
  the third.
-/

namespace KvStore

open Consensus Layered Machine StorageEngine

/-! ## Contents and entries -/

/-- An engine whose snapshots are its live pairs. -/
class LawfulSnapshot (ε : Type) [StorageEngine ε] : Prop where
  snapshot_ok : ∀ (e : ε) (data : Bytes), snapshot e = .ok data →
    ∃ kvs, data = encodeSnapshotEntries kvs ∧ contentOf kvs = get e

instance : LawfulSnapshot FlakyStore where
  snapshot_ok s _ h := ⟨s.kvs, (Except.ok.inj h).symm, rfl⟩

/-- The bytes decode to what the entries make of an empty store. -/
def Depicts (H : List LogEntry) (data : Bytes) : Prop :=
  ∃ kvs, decodeSnapshotEntries data = some kvs ∧ contentOf kvs = storeAt H H.length

/-- Every key of the content is written by one of the entries at or below the index. -/
def Covered (C : List LogEntry) (i : ℕ) (c : Content) : Prop :=
  ∀ key, c key ≠ none → ∃ e ∈ C, e.index ≤ i ∧ layerOf (opsOf [e]) key ≠ none

theorem covered_empty (C : List LogEntry) (i : ℕ) : Covered C i fun _ => none :=
  fun _ h => absurd rfl h

theorem Covered.mono {C C' : List LogEntry} {i : ℕ} {c : Content} (h : Covered C i c)
    (hC : C ⊆ C') : Covered C' i c := fun key hkey => by
  obtain ⟨e, he, hrest⟩ := h key hkey
  exact ⟨e, hC he, hrest⟩

/-- What the entries write over does not matter. -/
theorem Covered.applyOps_eq {C H : List LogEntry} {i : ℕ} {c : Content} (h : Covered C i c)
    (hH : ∀ e ∈ C, e.index ≤ i → e ∈ H) : applyOps c (opsOf H) = storeAt H H.length := by
  rw [storeAt, List.take_length]
  refine applyOps_congr fun key hkey => ?_
  by_contra hne
  obtain ⟨e, he, hi, hw⟩ := h key hne
  exact layerOf_covers_of_mem (hH e he hi) key hw hkey

/-! ## The committed log -/

theorem IndexedFrom.index_le {l : List LogEntry} (h : Indexed l) {e : LogEntry} (he : e ∈ l) :
    e.index ≤ l.length := by
  obtain ⟨i, hi, rfl⟩ := List.mem_iff_getElem.mp he
  rw [h i hi]
  omega

theorem IndexedFrom.mem_of_isPrefix {l l' : List LogEntry} (h : Indexed l') (hp : l <+: l')
    {e : LogEntry} (he : e ∈ l') (hi : e.index ≤ l.length) : e ∈ l := by
  obtain ⟨i, hil, rfl⟩ := List.mem_iff_getElem.mp he
  rw [h i hil] at hi
  rw [← hp.getElem (by omega)]
  exact List.getElem_mem _

section Committed

variable {mb : Members} {A A' : Abs} {H K C C' : List LogEntry}

theorem Good.indexed_decided (h : Good True mb A) (hH : Decided A H) : Indexed H := by
  rcases hH.isPrefix_hist with rfl | ⟨u, hu⟩
  · exact indexed_nil 0
  · exact (h.indexed u).of_isPrefix hu

theorem Good.decided_isPrefix (h : Good True mb A) (hH : Decided A H) (hK : Decided A K)
    (hlen : H.length ≤ K.length) : H <+: K := hH.isPrefix h.wf (h.safe trivial) hK hlen

/-- A committed log has all committed entries up to its length. -/
theorem Good.mem_decided (h : Good True mb A) (hH : Decided A H) (hK : Decided A K) {e : LogEntry}
    (he : e ∈ K) (hi : e.index ≤ H.length) : e ∈ H := by
  rcases Nat.le_total K.length H.length with hle | hge
  · exact (h.decided_isPrefix hK hH hle).subset he
  · exact (h.indexed_decided hK).mem_of_isPrefix (h.decided_isPrefix hH hK hge) he hi

/-- The snapshot holds the content of the committed entries up to its index, which are all in
`C`. -/
def Snapshot.Matches (C : List LogEntry) (A : Abs) (snap : Snapshot) : Prop :=
  snap.lastIncludedIndex ≠ 0 →
    ∃ H, Decided A H ∧ H.length = snap.lastIncludedIndex ∧ (∀ e ∈ H, e ∈ C) ∧ Depicts H snap.data

theorem Snapshot.Matches.mono {snap : Snapshot} (h : snap.Matches C A) (hC : C ⊆ C')
    (hg : Grows LogEntry.term A A') : snap.Matches C' A' := fun hpos => by
  obtain ⟨H, hH, hlen, hsub, hdata⟩ := h hpos
  exact ⟨H, hH.grows hg, hlen, fun e he => hC (hsub e he), hdata⟩

end Committed

/-- The committed entries up to the index, all of them and in their order. -/
structure Servers.CommittedUpTo {ε : Type} (S : Servers ε) (index : ℕ) (H : List LogEntry) :
    Prop where
  indexed : Indexed H
  length : H.length = index
  mem : ∀ e, e ∈ H ↔ e ∈ S.committed ∧ e.index ≤ index

/-! ## What a server has applied -/

section Tracks

variable {ε : Type} [StorageEngine ε] {mb : Members} {S : Servers ε} {A A₁ : Abs} {n : ℕ}
    {ev : Event} {nd : Node}
  {rd : Ready} {s s₁ d : Server ε} {C C' : List LogEntry} {T : ℕ}

/-- The engine has what the committed entries up to `lastApplied` make of a covered content. -/
def Server.Tracks (A : Abs) (C : List LogEntry) (T : ℕ) (s : Server ε) : Prop :=
  ∃ H c, Decided A H ∧ H.length = s.lastApplied ∧ s.Replays H c ∧ Covered C T c

theorem Server.Tracks.congr (h : s.Tracks A C T) (heng : s₁.eng = s.eng)
    (happ : s₁.lastApplied = s.lastApplied) (hC : C ⊆ C') (hg : Grows LogEntry.term A A₁) :
    s₁.Tracks A₁ C' T := by
  obtain ⟨H, c, hH, hlen, hrep, hcov⟩ := h
  refine ⟨H, c, hH.grows hg, hlen.trans happ.symm, ?_, hcov.mono hC⟩
  unfold Server.Replays
  rw [heng, happ]
  exact hrep

namespace Servers.Applies

omit [StorageEngine ε] in
/-- The entries up to the commit index are committed. -/
theorem decided (h : Applies mb S A n ev nd rd d A₁) :
    Decided A₁ ((A₁.log n).take nd.r.commitIndex) :=
  .of_backed (h.ok.live.secure trivial).commit

omit [StorageEngine ε] in
theorem length_take (h : Applies mb S A n ev nd rd d A₁) :
    ((A₁.log n).take nd.r.commitIndex).length = nd.r.commitIndex :=
  List.length_take_of_le h.commit_le

omit [StorageEngine ε] in
/-- They are recorded: those that the node still has now, and those below its snapshot before. -/
theorem recorded (h : Applies mb S A n ev nd rd d A₁) (hsnap : nd.r.snapshot.Matches C A) :
    ∀ e ∈ (A₁.log n).take nd.r.commitIndex, e ∈ C ++ nd.r.committedEntries := by
  intro e he
  rw [List.mem_append, h.ok.live.spans.committedEntries_eq]
  rw [← List.take_append_drop nd.r.snapshot.lastIncludedIndex ((A₁.log n).take _)] at he
  refine (List.mem_append.mp he).imp_left fun he => ?_
  by_cases hpos : nd.r.snapshot.lastIncludedIndex = 0
  · rw [hpos] at he
    cases he
  obtain ⟨H, hH, hlen, hsub, -⟩ := hsnap hpos
  have hle : H.length ≤ ((A₁.log n).take nd.r.commitIndex).length := by
    rw [hlen, h.length_take]
    exact (h.ok.live.secure trivial).snap_le_commit
  have hpre := h.ok.live.good.decided_isPrefix (hH.grows h.grows) h.decided hle
  rw [← hlen, ← List.prefix_iff_eq_take.mp hpre] at he
  exact hsub e he

variable [LawfulEngine ε]

/-- A snapshot that a round restores is the content of the committed entries up to its index. -/
theorem restored (h : Applies mb S A n ev nd rd (s.delivered nd rd) A₁)
    (hleaves : Server.Leaves (S.servers n) s)
    (hr : ∀ m, ev = .recv m → (S.servers n).node.r.Installs m →
      (restoreSnapshot (S.servers n).eng m.snapshot.data).2 = none)
    (hsnap : nd.r.snapshot.Matches C A) (htoApply : rd.snapshotToApply ≠ none) :
    nd.r.commitIndex = nd.r.snapshot.lastIncludedIndex ∧
      (s.delivered nd rd).lastApplied = nd.r.snapshot.lastIncludedIndex ∧
      ∃ H, Decided A H ∧ H.length = nd.r.snapshot.lastIncludedIndex ∧ (∀ e ∈ H, e ∈ C) ∧
        get (s.delivered nd rd).eng = storeAt H H.length := by
  cases h.hands with
  | nothing toApply => exact absurd toApply htoApply
  | snapshot m ev_eq installs toApply snapshot boundary le commit =>
    rw [snapshot] at hsnap ⊢
    obtain ⟨H, hH, hlen, hsub, kvs, hkvs, hcont⟩ := hsnap (by omega)
    have hres := hr m ev_eq installs
    rw [← hleaves.eng] at hres
    obtain ⟨kvs', hkvs', hget⟩ := LawfulEngine.restore_ok s.eng m.snapshot.data hres
    cases hkvs.symm.trans hkvs'
    rw [s.delivered_of_some nd toApply hres]
    exact ⟨commit, rfl, H, hH, hlen, hsub, hget.trans hcont⟩

/-- Where the second half of a round starts from. -/
theorem tracks (h : Applies mb S A n ev nd rd (s.delivered nd rd) A₁)
    (hleaves : Server.Leaves (S.servers n) s)
    (hr : ∀ m, ev = .recv m → (S.servers n).node.r.Installs m →
      (restoreSnapshot (S.servers n).eng m.snapshot.data).2 = none)
    (hsnap : nd.r.snapshot.Matches C A) (htr : (S.servers n).Tracks A C T) :
    (s.delivered nd rd).Tracks A₁ C T := by
  by_cases htoApply : rd.snapshotToApply = none
  · rw [Server.delivered_of_none htoApply]
    exact htr.congr hleaves.eng hleaves.applied (List.Subset.refl C) h.grows
  · obtain ⟨-, happ, H, hH, hlen, -, hget⟩ := h.restored hleaves hr hsnap htoApply
    refine ⟨H, fun _ => none, hH.grows h.grows, hlen.trans happ.symm, ?_, covered_empty C T⟩
    unfold Server.Replays
    rw [hget, happ, ← hlen]
    rfl

/-- What has been applied when the round comes to `maybeSnapshot`. -/
theorem tracks_applied (h : Applies mb S A n ev nd rd d A₁) (htr : d.Tracks A₁ C T)
    (hacc : d.Accepts) (happ : d.applyCommitted = .ok s₁) :
    ∃ c, get s₁.eng = applyOps c (opsOf ((A₁.log n).take nd.r.commitIndex)) ∧ Covered C T c := by
  obtain ⟨H, c, hH, hlen, hrep, hcov⟩ := htr
  refine ⟨c, ?_, hcov⟩
  have hle : H.length ≤ ((A₁.log n).take nd.r.commitIndex).length := by
    rw [h.length_take, hlen]
    exact h.le
  have hpre := h.ok.live.good.decided_isPrefix hH h.decided hle
  have hrep' : d.Replays ((A₁.log n).take nd.r.commitIndex) c := by
    unfold Server.Replays at hrep ⊢
    rw [hrep, ← hlen, List.take_length, ← List.prefix_iff_eq_take.mp hpre]
  have hnode : d.node.r.commitIndex = nd.r.commitIndex := by rw [h.node]
  have hrun := hrep'.applyCommitted h.spans (by rw [hnode]) (fun first hfirst => ?_) hacc happ
  · unfold Server.Replays at hrun
    rw [hrun, (h.caught_up happ).1, List.take_of_length_le h.length_take.le]
  · cases h.spans.firstIndex.symm.trans hfirst
    exact Or.inl h.boundary

end Servers.Applies

end Tracks

/-! ## A round returns -/

namespace Servers.InStep

variable {ε : Type} {mb : Members} {S : Servers ε} {c : Cluster} {A : Abs} {n : ℕ} {ev : Event}
    {s : Server ε}
  {recovered : ε} {cut : Option ℕ}

/-- `Persist` returns, and leaves a node that shows a state of the protocol. -/
theorem persist_total (h : InStep mb S c A) (hn : n ∈ mb.ids)
    (ha : (ServersAction.round n ev cut recovered).Safe S) (hsees : S.Sees n ev)
    (hh : (S.servers n).handle ev = .ok (s, true)) : ∃ nd rd A₁, s.node.persist = some (nd, rd) ∧
      NodeOk True mb A₁ n nd ∧ Grows LogEntry.term A A₁ := by
  have hsafe : ((S.servers n).call ev).Safe (c.nodes n).r :=
    h.shows.call_safe fun m hev => by subst hev; exact ha
  have hrun := Server.handle_call hh
  rw [← h.shows.nodes] at hrun
  have hcalled :=
    h.sim.called hn (h.shows.deliverable hsees fun m => Server.call_step) (fun _ => hsafe) hrun
  obtain ⟨A₁, d', rd, nd, hp, -, -, -, -, hmoves, hok, -⟩ := hcalled.persist (h.sim.node n hn)
  rw [h.shows.nodes, ← (Server.handle_leaves hh).1.storage] at hp
  exact ⟨nd, rd, A₁, hp, hok, hmoves.toGrows⟩

variable [StorageEngine ε]

/-- **A round that has made its call returns.** -/
theorem pumped_total (h : InStep mb S c A) (hn : n ∈ mb.ids)
    (ha : (ServersAction.round n ev cut recovered).Safe S)
    (hr : (ServersAction.round n ev cut recovered).Restores S) (hsees : S.Sees n ev)
    (hh : (S.servers n).handle ev = .ok (s, true)) :
    ∃ nd rd s', s.node.persist = some (nd, rd) ∧ s.pumped nd rd = .ok s' := by
  obtain ⟨nd, rd, A₁, hp, hok, hg⟩ := h.persist_total hn ha hsees hh
  have happlies := h.applies hn ha hr hsees hh hp hok hg
  have happ := Server.applyCommitted_ok happlies.spans happlies.boundary
  obtain ⟨happ₁, hnode₁⟩ := happlies.caught_up happ
  obtain ⟨s₂, hs₂⟩ := Server.maybeSnapshot_total fun data hnone => by
    rw [hnode₁, happ₁] at hnone
    have hend := (hok.live.spans.createSnapshot_none_iff _ data).mp hnone
    exact absurd happlies.commit_le (not_le.mpr hend.2.2)
  refine ⟨nd, rd, rd.readStates.foldl Server.resolveRead s₂, hp, ?_⟩
  have hpump : s.pumped nd rd = (s.delivered nd rd).applyCommitted.bind fun s =>
      s.maybeSnapshot.bind fun s => .ok (rd.readStates.foldl Server.resolveRead s) := rfl
  rw [hpump, happ, Except.bind, hs₂]
  rfl

/-- A step that is such a round has finished it. -/
theorem stepped_pumped {opts : ℕ → ServerOptions} {S' : Servers ε} (h : InStep mb S c A)
    (hn : n ∈ mb.ids) (ha : (ServersAction.round n ev none recovered).Safe S)
    (hr : (ServersAction.round n ev none recovered).Restores S) (hsees : S.Sees n ev)
    (hh : (S.servers n).handle ev = .ok (s, true))
    (hstep : S.step mb opts (.round n ev none recovered) = some S') :
    ∃ nd rd s', s.node.persist = some (nd, rd) ∧ s.pumped nd rd = .ok s' ∧
      S' = { S.note n ev with committed := S.committed ++ nd.r.committedEntries }.absorb n s' := by
  obtain ⟨nd, rd, s', hp, hs⟩ := h.pumped_total hn ha hr hsees hh
  refine ⟨nd, rd, s', hp, hs, ?_⟩
  have hround := (Server.round_eq hh).trans ((Server.pump_eq hp).trans hs)
  rw [Servers.step, if_pos ⟨hn, hsees⟩] at hstep
  simp only [finish, hround, Server.persisted_eq hh, hp, Option.map_some, Option.elim_some] at hstep
  exact (Option.some.inj hstep).symm

end Servers.InStep

/-! ## The invariant -/

section Conditions

variable {ε : Type} [StorageEngine ε]

/-- The engine accepts the batch of the step, and what the store then holds fits the length fields,
if a snapshot of it is taken. -/
def ServersAction.Works (S : Servers ε) : ServersAction ε → Prop
  | .round n ev none _ => (∀ d ∈ (S.servers n).delivers ev, d.Accepts) ∧
      ∀ p ∈ (S.servers n).takes ev, p.2.length < 2 ^ 32
  | _ => True

/-- A process that dies without a stored snapshot leaves an engine with keys that the first
`SnapshotThreshold` entries write. -/
def Servers.Recovers (opts : ℕ → ServerOptions) (S : Servers ε) (a : ServersAction ε) : Prop :=
  S.Kills a.node a → (replayAll (S.servers a.node).node.storage).snap.lastIncludedIndex = 0 →
    (opts a.node).snapshotThreshold ≠ 0 →
      Covered S.committed (opts a.node).snapshotThreshold (get a.recovered)

/-- No unsafe snapshot is processed, no call of the engine fails, and a process finds an engine that
its entries cover. -/
abbrev Servers.Regular (opts : ℕ → ServerOptions) (S : Servers ε) (a : ServersAction ε) : Prop :=
  Servers.Orderly S a ∧ a.Works S ∧ S.Recovers opts a

/-- Every snapshot matches its index, and every server tracks the committed entries. -/
structure Servers.Faithful (mb : Members) (opts : ℕ → ServerOptions) (S : Servers ε) (A : Abs) :
    Prop where
  committed : ∀ e ∈ S.committed, ∃ H, Decided A H ∧ e ∈ H
  snapshots : ∀ snap, S.Carries mb snap → snap.Matches S.committed A
  threshold : ∀ n ∈ mb.ids, (S.servers n).snapshotThreshold = (opts n).snapshotThreshold
  content : ∀ n ∈ mb.ids, (opts n).snapshotThreshold ≠ 0 →
    (S.servers n).Tracks A S.committed (opts n).snapshotThreshold

end Conditions

namespace Servers.Faithful

variable {ε : Type} [StorageEngine ε] {mb : Members} {opts : ℕ → ServerOptions} {S S' : Servers ε}
    {c : Cluster}
  {A A₁ : Abs} {n : ℕ} {ev : Event} {s s' : Server ε} {nd : Node} {rd : Ready} {recovered : ε}

omit [StorageEngine ε] in
/-- A committed log whose entries are all recorded is the committed log up to its length. -/
theorem committedUpTo {H : List LogEntry} (hgood : Good True mb A)
    (hcom : ∀ e ∈ S.committed, ∃ K, Decided A K ∧ e ∈ K) (hH : Decided A H)
    (hsub : ∀ e ∈ H, e ∈ S.committed) : S.CommittedUpTo H.length H where
  indexed := hgood.indexed_decided hH
  length := rfl
  mem := fun e => ⟨fun he => ⟨hsub e he, (hgood.indexed_decided hH).index_le he⟩, fun ⟨he, hi⟩ => by
    obtain ⟨K, hK, heK⟩ := hcom e he
    exact hgood.mem_decided hH hK heK hi⟩

/-- What a round that pumps records is committed. -/
theorem committed_pumped (hF : S.Faithful mb opts A) {d : Server ε}
    (h : Applies mb S A n ev nd rd d A₁) :
    ∀ e ∈ S.committed ++ nd.r.committedEntries, ∃ H, Decided A₁ H ∧ e ∈ H := by
  intro e he
  rcases List.mem_append.mp he with he | he
  · obtain ⟨H, hH, heH⟩ := hF.committed e he
    exact ⟨H, hH.grows h.grows, heH⟩
  · rw [h.ok.live.spans.committedEntries_eq] at he
    exact ⟨_, h.decided, List.mem_of_mem_drop he⟩

variable [LawfulEngine ε]

/-- What a server with automatic snapshots has applied when its round comes to `maybeSnapshot`. -/
theorem applied (hF : S.Faithful mb opts A) (hn : n ∈ mb.ids)
    (ha : S.Regular opts (.round n ev none recovered)) (hsees : S.Sees n ev)
    (hh : (S.servers n).handle ev = .ok (s, true)) (hp : s.node.persist = some (nd, rd))
    (h : Applies mb S A n ev nd rd (s.delivered nd rd) A₁) {s₁ : Server ε}
    (happ : (s.delivered nd rd).applyCommitted = .ok s₁) (hthr : (opts n).snapshotThreshold ≠ 0) :
    ∃ c, get s₁.eng = applyOps c (opsOf ((A₁.log n).take nd.r.commitIndex)) ∧
      Covered S.committed (opts n).snapshotThreshold c := by
  have hsnap := hF.snapshots _ (InStep.carries_persisted hn hsees hh hp).1
  have htr := h.tracks (Server.handle_leaves hh).1 (fun m hev hinst => by
    subst hev
    exact ha.1.2 hinst) hsnap (hF.content n hn hthr)
  exact h.tracks_applied htr (ha.2.1.1 _ (Server.delivers_eq hh hp)) happ

/-- **What a snapshot holds.** -/
theorem depicts [LawfulSnapshot ε] (hF : S.Faithful mb opts A) (hn : n ∈ mb.ids)
    (ha : S.Regular opts (.round n ev none recovered)) (hsees : S.Sees n ev)
    (hh : (S.servers n).handle ev = .ok (s, true)) (hp : s.node.persist = some (nd, rd))
    (h : Applies mb S A n ev nd rd (s.delivered nd rd) A₁) {index : ℕ} {data : Bytes}
    (htakes : (S.servers n).takes ev = some (index, data)) :
    index = nd.r.commitIndex ∧ Depicts ((A₁.log n).take nd.r.commitIndex) data := by
  obtain ⟨s', nd', rd', s₁, hh', hp', happ, hcall⟩ := Server.takes_some htakes
  cases hh.symm.trans hh'
  cases hp.symm.trans hp'
  obtain ⟨hindex, hthr, hle, hdata⟩ := Server.snapshotCall_some hcall
  have hopts : s₁.snapshotThreshold = (opts n).snapshotThreshold := by
    rw [Server.applied_threshold s nd rd happ, (Server.handle_leaves hh).1.threshold,
      hF.threshold n hn]
  rw [hopts] at hthr hle
  have hlast := (h.caught_up happ).1
  refine ⟨hindex.trans hlast, ?_⟩
  obtain ⟨c, hget, hcov⟩ := hF.applied hn ha hsees hh hp h happ hthr
  obtain ⟨kvs, rfl, hkvs⟩ := LawfulSnapshot.snapshot_ok s₁.eng data hdata
  refine ⟨kvs, decode_of_small (ha.2.1.2 _ htakes), ?_⟩
  rw [hkvs, hget]
  -- the snapshot is taken at or above the threshold, where nothing of the old content is left
  refine hcov.applyOps_eq fun e he hi => ?_
  obtain ⟨K, hK, heK⟩ := hF.committed e he
  refine h.ok.live.good.mem_decided h.decided (hK.grows h.grows) heK ?_
  rw [h.length_take, ← hlast]
  omega

/-- What a process starts from: its engine has the stored snapshot, or what was recovered and
nothing to go on from. -/
theorem started_replays (hF : S.Faithful mb opts A) {a : ServersAction ε}
    (hn : a.node ∈ mb.ids) {T : ℕ} (hrec :
      (replayAll (S.servers a.node).node.storage).snap.lastIncludedIndex = 0 →
        Covered S.committed T (get a.recovered))
    {e : Option Event} {S₁ : Servers ε} {storage : List Record} (hT : Dies S a.node e S₁ storage)
    {snap : Option Snapshot} (hopen : openNode (mb.config a.node) storage = .ok (some (nd, snap)))
    (hstart : Server.start (opts a.node) nd snap a.recovered = some s) :
    ∃ H c, Decided A H ∧ H.length = s.lastApplied ∧ (∀ x ∈ H, x ∈ S.committed) ∧ s.Replays H c ∧
      Covered S.committed T c := by
  obtain ⟨-, -, -, -, hcases⟩ := Server.start_cases hstart
  obtain ⟨-, -, -, hlevel⟩ := openNode_level hopen
  rcases hlevel with ⟨rfl, -, hzero⟩ | ⟨rfl, hstored, hpos⟩
  · rcases hcases with ⟨-, heng, happ⟩ | ⟨sn, hsn, -⟩
    swap
    · cases hsn
    have hold : (replayAll (S.servers a.node).node.storage).snap.lastIncludedIndex = 0 := by
      rcases InStep.stored_died hn hT with heq | ⟨-, hne⟩
      · rw [← heq]
        exact hzero
      · exact absurd hzero hne
    refine ⟨[], get a.recovered, .nil, happ.symm, fun x hx =>
      absurd hx List.not_mem_nil, ?_, hrec hold⟩
    unfold Server.Replays
    rw [heng, List.take_nil]
    rfl
  · rcases hcases with ⟨hnone, -⟩ | ⟨sn, hsn, hok, heng, happ⟩
    · cases hnone
    obtain rfl := Option.some.inj hsn
    have hmatch := hF.snapshots _ (InStep.carries_died hn hT)
    rw [← hstored] at hmatch
    obtain ⟨H, hH, hlen, hsub, kvs, hkvs, hcont⟩ := hmatch hpos
    obtain ⟨kvs', hkvs', hget⟩ := LawfulEngine.restore_ok a.recovered nd.r.snapshot.data hok
    cases hkvs.symm.trans hkvs'
    refine ⟨H, fun _ => none, hH, hlen.trans happ.symm, hsub, ?_, covered_empty _ _⟩
    unfold Server.Replays
    rw [heng, happ, hget, hcont, ← hlen]
    rfl

/-- A process that starts tracks the committed entries. -/
theorem started (hF : S.Faithful mb opts A) {a : ServersAction ε} (hn : a.node ∈ mb.ids)
    (hk : S.Kills a.node a) (hrec : S.Recovers opts a) {e : Option Event} {T : Servers ε}
    {storage : List Record} (hT : Dies S a.node e T storage) {snap : Option Snapshot}
    (hopen : openNode (mb.config a.node) storage = .ok (some (nd, snap)))
    (hstart : Server.start (opts a.node) nd snap a.recovered = some s)
    (hthr : (opts a.node).snapshotThreshold ≠ 0) :
    s.Tracks A S.committed (opts a.node).snapshotThreshold := by
  obtain ⟨H, c, hH, hlen, -, hrep, hcov⟩ :=
    hF.started_replays hn (fun hzero => hrec hk hzero hthr) hT hopen hstart
  exact ⟨H, c, hH, hlen, hrep, hcov⟩

omit [LawfulEngine ε] in
/-- A server keeps its setting. -/
theorem threshold_step (hF : S.Faithful mb opts A) {a : ServersAction ε}
    (hstep : Stepped mb opts S a S') : ∀ m ∈ mb.ids, (S'.servers m).snapshotThreshold =
    (opts m).snapshotThreshold := by
  intro m hm
  have hchange := hstep.change m
  generalize S'.servers m = s at hchange ⊢
  cases hchange with
  | same => exact hF.threshold m hm
  | idle ev recovered s ha hh =>
    exact (Server.handle_leaves hh).1.threshold.trans (hF.threshold m hm)
  | pumped ev recovered s nd rd s' ha hsees hh hp hs =>
    obtain ⟨-, -, -, -, hthr⟩ := Server.pumped_applied hs
    exact hthr.trans ((Server.handle_leaves hh).1.threshold.trans (hF.threshold m hm))
  | started storage nd snap s hk hopen hstart => exact (Server.start_cases hstart).2.1

omit [LawfulEngine ε] in
/-- A process that dies has recorded nothing. -/
theorem committed_died (hI : InStep mb S c A) {a : ServersAction ε} (hn : a.node ∈ mb.ids)
    (ha : Orderly S a) {T : Servers ε} {storage : List Record}
    (hT : Dies S a.node a.event T storage) : T.committed = S.committed := by
  generalize he : a.event = e at hT
  cases hT with
  | between | handling | persisting | cut => rfl
  | pumping ev s nd rd s' hsees hh hp hs =>
    cases a with
    | crash n recovered => cases he
    | round n ev' cut recovered =>
      cases he
      obtain ⟨nd', rd', s'', hp', hs'⟩ := hI.pumped_total hn ha.1 ha.2 hsees hh
      cases hp.symm.trans hp'
      cases hs.symm.trans hs'

/-- **A step keeps the snapshots faithful.** -/
theorem step [LawfulSnapshot ε] (hI : InStep mb S c A) (hF : S.Faithful mb opts A)
    {a : ServersAction ε} (ha : S.Regular opts a) (hstep : Stepped mb opts S a S') :
    ∃ c' A', InStep mb S' c' A' ∧ S'.Faithful mb opts A' := by
  have hthreshold := hF.threshold_step hstep
  have hcarries := fun snap (hsnap : S'.Carries mb snap) => hI.carries_step hstep hsnap
  have hany := hI.step ha.1.1 ha.1.2 hstep
  have hlevel := fun c' A' (hshows : Shows S' c') (hsim : Sim True mb c' A') =>
    hI.level_step ha.1.1 ha.1.2 hstep hshows hsim
  cases hstep with
  | idle n ev s hsees hh =>
    obtain ⟨c', A', hI', hg⟩ := hany
    refine ⟨c', A', hI', fun e he => ?_, fun snap hsnap hpos => ?_, hthreshold, fun m hm hthr => ?_⟩
    · obtain ⟨H, hH, heH⟩ := hF.committed e he
      exact ⟨H, hH.grows hg, heH⟩
    · rcases hcarries snap hsnap hpos with hold | ⟨n', ev', recovered, heq, -, htakes⟩
      · exact (hF.snapshots snap hold).mono (List.Subset.refl _) hg hpos
      · cases heq
        obtain ⟨s', -, -, -, hh', -⟩ := Server.takes_some htakes
        cases hh.symm.trans hh'
    · have htr := hF.content m hm hthr
      by_cases hmn : m = n
      · subst hmn
        simp only [absorb, Function.update_self]
        exact htr.congr (Server.handle_leaves hh).1.eng (Server.handle_leaves hh).1.applied
          (List.Subset.refl _) hg
      · simp only [absorb, Function.update_of_ne hmn]
        exact htr.congr rfl rfl (List.Subset.refl _) hg
  | pumped n ev s nd rd s' hn hsees hh hp hs =>
    obtain ⟨c', A₁, hshows, hsim, happlies⟩ := hI.shows_pumped hn ha.1.1 ha.1.2 hsees hh hp hs
    have hsub := List.subset_append_left S.committed nd.r.committedEntries
    refine ⟨c', A₁, ⟨hshows, hsim, hlevel c' A₁ hshows hsim⟩, hF.committed_pumped happlies,
      fun snap hsnap hpos => ?_, hthreshold, fun m hm hthr => ?_⟩
    · rcases hcarries snap hsnap hpos with hold | ⟨n', ev', recovered, heq, -, htakes⟩
      · exact (hF.snapshots snap hold).mono hsub happlies.grows hpos
      · cases heq
        obtain ⟨hindex, hdata⟩ := hF.depicts hn ha hsees hh hp happlies htakes
        have hown := hF.snapshots _ (InStep.carries_persisted hn hsees hh hp).1
        exact ⟨_, happlies.decided, happlies.length_take.trans hindex.symm,
          happlies.recorded hown, hdata⟩
    · by_cases hmn : m = n
      · subst hmn
        simp only [absorb, Function.update_self]
        obtain ⟨s₁, happ, heng, hlast, -⟩ := Server.pumped_applied hs
        obtain ⟨c, hget, hcov⟩ := hF.applied hn ha hsees hh hp happlies happ hthr
        have hcommit : s'.lastApplied = nd.r.commitIndex := hlast.trans (happlies.caught_up happ).1
        refine ⟨_, c, happlies.decided, happlies.length_take.trans hcommit.symm, ?_, hcov.mono hsub⟩
        unfold Server.Replays
        dsimp only
        rw [heng, hget, List.take_of_length_le (happlies.length_take.trans hcommit.symm).le]
      · simp only [absorb, Function.update_of_ne hmn]
        exact (hF.content m hm hthr).congr rfl rfl hsub happlies.grows
  | died n e T S' storage hae hk hn hT hr =>
    obtain ⟨rfl, rfl⟩ := hae
    obtain ⟨c', A', hI', hg⟩ := hany
    have hcom := committed_died hI hn ha.1 hT
    obtain ⟨nd, snap, s, hopen, hstart, rfl⟩ := restart_start hr
    refine ⟨c', A', hI', fun e he => ?_, fun snap hsnap hpos => ?_, hthreshold, fun m hm hthr => ?_⟩
    · obtain ⟨H, hH, heH⟩ := hF.committed e (hcom ▸ he)
      exact ⟨H, hH.grows hg, heH⟩
    · rw [hcom]
      rcases hcarries snap hsnap hpos with hold | ⟨n', ev', recovered, heq, hsurvives, -⟩
      · exact (hF.snapshots snap hold).mono (List.Subset.refl _) hg hpos
      · subst heq
        exact absurd hk hsurvives
    · rw [hcom]
      by_cases hmn : m = a.node
      · subst hmn
        simp only [Function.update_self]
        exact (hF.started hn hk ha.2.2 hT hopen hstart hthr).congr rfl rfl (List.Subset.refl _) hg
      · simp only [Function.update_of_ne hmn, hT.servers_of_ne hmn]
        exact (hF.content m hm hthr).congr rfl rfl (List.Subset.refl _) hg

omit [LawfulEngine ε] in
theorem init (mb : Members) (opts : ℕ → ServerOptions) {eng : ε} (heng : get eng = fun _ => none) :
    (Servers.init mb opts eng).Faithful mb opts State.init where
  committed := nofun
  snapshots := fun snap hsnap hpos => by
    cases hsnap with
    | node n hn h => exact absurd (congrArg Snapshot.lastIncludedIndex h.symm) hpos
    | stored n hn h => exact absurd (congrArg Snapshot.lastIncludedIndex h.symm) hpos
    | message m hm => cases hm
  threshold := fun _ _ => rfl
  content := fun n hn _ => ⟨[], fun _ => none, .nil, rfl, heng, covered_empty _ _⟩

end Servers.Faithful

/-! ## Snapshots match their index -/

/-- A message that is installed is taken over, and handed to the server. -/
theorem Raft.Installs.step_eq {r : Raft} {m : Message} (h : r.Installs m) :
    ∃ r', r.step m = some r' ∧ r'.pendingSnapshotToApply = some m.snapshot := by
  obtain ⟨hty, hto, hterm, hany⟩ := h
  obtain ⟨first, hfirst, hlt⟩ := (Option.any_eq_true _ _).mp hany
  have hlt := of_decide_eq_true hlt
  rw [Raft.step, if_neg (not_not.mpr hto), hty]
  simp only [Raft.handleInstallSnapshot, hfirst, Option.bind_eq_bind, Option.bind_some,
    if_neg (not_lt.mpr hterm), if_neg (not_le.mpr hlt)]
  exact ⟨_, rfl, rfl⟩

section Main

variable {ε : Type} [StorageEngine ε] [LawfulEngine ε] [LawfulSnapshot ε] {mb : Members}
    {opts : ℕ → ServerOptions}
  {eng : ε} {S S' : Servers ε} {as : List (ServersAction ε)} {n : ℕ} {ev : Event} {recovered : ε}

theorem Servers.Runs.faithful (heng : get eng = fun _ => none) (h : Servers.Runs mb opts eng as S)
    (hP : Along (Servers.step mb opts) (Servers.Regular opts) (Servers.init mb opts eng) as) :
    ∃ c A, InStep mb S c A ∧ S.Faithful mb opts A := by
  refine exec_induct (I := fun S => ∃ c A, InStep mb S c A ∧ S.Faithful mb opts A)
    (fun S a S' ⟨c, A, hI, hF⟩ ha hstep => ?_) ⟨_, _, inStep_init mb opts eng, .init mb opts heng⟩
      hP h
  exact hF.step hI ha (step_cases hstep)

/-- **Snapshots match their index**, as long as no unsafe snapshot is processed, no call fails and a
process that starts without a stored snapshot finds an engine that the first `SnapshotThreshold`
entries cover. What `maybeSnapshot` gives to `CreateSnapshot` decodes to what the committed entries
up to the index make of an empty store, and a server that installs a snapshot has exactly this
content at its index. -/
theorem snapshot_contents (heng : get eng = fun _ => none) (h : Servers.Runs mb opts eng as S)
    (hstep : S.step mb opts (.round n ev none recovered) = some S')
    (hP : Along (Servers.step mb opts) (Servers.Regular opts) (Servers.init mb opts eng)
      (as ++ [.round n ev none recovered])) :
    (∀ index data, (S.servers n).takes ev = some (index, data) →
      ∃ H, S'.CommittedUpTo index H ∧ Depicts H data) ∧
    ∀ m, ev = .recv m → (S.servers n).node.r.Installs m →
      (S'.servers n).lastApplied = m.snapshot.lastIncludedIndex ∧
      ∃ H, S'.CommittedUpTo m.snapshot.lastIncludedIndex H ∧
        get (S'.servers n).eng = storeAt H m.snapshot.lastIncludedIndex := by
  obtain ⟨hPas, hPlast⟩ := (along_append h).mp hP
  have ha := (along_cons.mp hPlast).1
  obtain ⟨c, A, hI, hF⟩ := h.faithful heng hPas
  obtain ⟨hn, hsees⟩ : n ∈ mb.ids ∧ S.Sees n ev := by
    by_contra hg
    rw [Servers.step, if_neg hg] at hstep
    cases hstep
  constructor
  · intro index data htakes
    obtain ⟨s, -, -, -, hh, -⟩ := Server.takes_some htakes
    obtain ⟨nd, rd, s', hp, hs, rfl⟩ := hI.stepped_pumped hn ha.1.1 ha.1.2 hsees hh hstep
    obtain ⟨c', A₁, -, hsim, happlies⟩ := hI.shows_pumped hn ha.1.1 ha.1.2 hsees hh hp hs
    obtain ⟨rfl, hdata⟩ := hF.depicts hn ha hsees hh hp happlies htakes
    have hown := hF.snapshots _ (Servers.InStep.carries_persisted hn hsees hh hp).1
    refine ⟨_, ?_, hdata⟩
    have hup := Servers.Faithful.committedUpTo
      (S := { S.note n ev with committed := S.committed ++ nd.r.committedEntries }.absorb n s')
      hsim.good (hF.committed_pumped happlies) happlies.decided (happlies.recorded hown)
    rwa [happlies.length_take] at hup
  · rintro m rfl hinst
    obtain ⟨r, hr, hpend⟩ := hinst.step_eq
    have hh : (S.servers n).handle (.recv m) = .ok ((S.servers n).setRaft r, true) := by
      rw [Server.handle, hr]
      rfl
    obtain ⟨nd, rd, s', hp, hs, rfl⟩ := hI.stepped_pumped hn ha.1.1 ha.1.2 hsees hh hstep
    obtain ⟨c', A₁, -, hsim, happlies⟩ := hI.shows_pumped hn ha.1.1 ha.1.2 hsees hh hp hs
    have hown := hF.snapshots _ (Servers.InStep.carries_persisted hn hsees hh hp).1
    have htoApply : rd.snapshotToApply = some m.snapshot :=
      (Node.persist_cases hp).2.2.2.trans hpend
    have hsnap : nd.r.snapshot = m.snapshot := by
      cases happlies.hands with
      | nothing toApply => cases toApply.symm.trans htoApply
      | snapshot m' ev_eq installs toApply snapshot =>
        exact snapshot.trans (Option.some.inj (toApply.symm.trans htoApply))
    obtain ⟨hcommit, happ, H, hH, hlen, hsub, hget⟩ := happlies.restored (Server.handle_leaves hh).1
      (fun m' hev => by cases hev; exact ha.1.2) hown
        (by rw [htoApply]; exact Option.some_ne_none _)
    rw [hsnap] at hcommit happ hlen
    -- nothing is left to apply
    obtain ⟨s₁, happ₁, heng₁, hlast₁, -⟩ := Server.pumped_applied hs
    have hs₁ := happlies.applied_eq happ₁
    rw [List.drop_eq_nil_of_le (by rw [happlies.length_take, happ, hcommit]), Server.applyEntries,
      if_pos rfl] at hs₁
    have hup := Servers.Faithful.committedUpTo
      (S :=
        { S.note n (.recv m) with committed := S.committed ++ nd.r.committedEntries }.absorb n s')
      hsim.good (hF.committed_pumped happlies) (hH.grows happlies.grows)
      fun e he => List.mem_append_left _ (hsub e he)
    rw [hlen] at hup hget
    refine ⟨?_, H, hup, ?_⟩
    · simp only [Servers.absorb, Function.update_self, hlast₁, hs₁, happ]
    · simp only [Servers.absorb, Function.update_self, heng₁, hs₁, hget]

end Main

/-! ## A witness and a failure -/

section Decide

variable {ε : Type} [StorageEngine ε]

instance (s : Server ε) : Decidable s.Accepts :=
  match h : s.node.r.entries s.lastApplied s.node.r.commitIndex with
  | none => .isTrue fun es hes => by rw [h] at hes; cases hes
  | some es => decidable_of_iff (opsOf es ≠ [] → (applyBatch s.eng (opsOf es)).2 = none)
      ⟨fun hacc es' hes' => by rw [h] at hes'; cases hes'; exact hacc, fun hacc => hacc es h⟩

instance (S : Servers ε) : ∀ a : ServersAction ε, Decidable (a.Works S)
  | .round n ev none _ => inferInstanceAs (Decidable ((∀ d ∈ (S.servers n).delivers ev, d.Accepts) ∧
      ∀ p ∈ (S.servers n).takes ev, p.2.length < 2 ^ 32))
  | .round _ _ (some _) _ | .crash _ _ => .isTrue trivial

end Decide

/-- Every server takes a snapshot after two entries. -/
def everyTwo : ℕ → ServerOptions := fun _ => { snapshotThreshold := 2 }

/-- The entry of term one that puts a key. -/
def putKey (key : UInt8) : LogEntry := ⟨1, key.toNat, encodeCommand ⟨cmdPut, [key], [key]⟩⟩

/-- Node one leads and has two entries, node three starts again with nothing, and node two takes the
entries in. -/
def appendTwo : List (ServersAction FlakyStore) :=
  electServer 1 2 0 1 ++ [roundOf 1 (.propose ⟨(putKey 1).data, 1⟩),
    roundOf 1 (.propose ⟨(putKey 2).data, 2⟩), .crash 3 {},
    roundOf 2
      (.recv { type := .appendEntries, fromId := 1, toId := 2, term := 1, entries := [putKey 1] }),
    roundOf 2 (.recv { type := .appendEntries, fromId := 1, toId := 2, term := 1, prevLogIndex := 1,
                       prevLogTerm := 1, entries := [putKey 2] })]

/-- Node two has the first two entries. -/
def ackTwo : Event :=
  .recv
    { type := .appendEntriesResponse, fromId := 2, toId := 1, term := 1, success := true,
      matchIndex := 2 }

/-- A step after which an engine would have nothing. -/
theorem recovers_of_empty {opts : ℕ → ServerOptions} {S : Servers FlakyStore}
    {a : ServersAction FlakyStore} (h : a.recovered.kvs = []) : S.Recovers opts a := by
  intro _ _ _
  have hget : get a.recovered = fun _ => none := by
    show contentOf a.recovered.kvs = _
    rw [h]
    rfl
  rw [hget]
  exact covered_empty _ _

/-- The leader takes a snapshot of the two entries that it commits. -/
theorem snapshot_contents_two : ∃ (S S' : Servers FlakyStore) (data : Bytes),
    Servers.Runs .three everyTwo {} appendTwo S ∧
    S.step .three everyTwo (roundOf 1 ackTwo) = some S' ∧
    (S.servers 1).takes ackTwo = some (2, data) ∧ ∃ H, S'.CommittedUpTo 2 H ∧ Depicts H data := by
  have hrun :
    ((exec (Servers.step .three everyTwo) (Servers.init .three everyTwo {}) appendTwo).bind fun S =>
      (S.step .three everyTwo (roundOf 1 ackTwo)).bind fun _ =>
        ((S.servers 1).takes ackTwo).map fun p => decide (p.1 = 2)) = some true := by
    decide +kernel
  have hworks : Along (Servers.step .three everyTwo) (fun S a => Servers.Orderly S a ∧ a.Works S)
      (Servers.init .three everyTwo ({} : FlakyStore)) (appendTwo ++ [roundOf 1 ackTwo]) := by
    decide +kernel
  have hempty : ∀ a ∈ appendTwo ++ [roundOf 1 ackTwo], a.recovered.kvs = [] := by decide
  have hP : Along (Servers.step .three everyTwo) (Servers.Regular everyTwo)
      (Servers.init .three everyTwo ({} : FlakyStore)) (appendTwo ++ [roundOf 1 ackTwo]) :=
    along_of_imp (fun _ _ h => ⟨h.1.1, h.1.2, recovers_of_empty h.2⟩)
      (along_and hworks (along_of_forall hempty _))
  obtain ⟨S, h, hrun⟩ := Option.bind_eq_some_iff.mp hrun
  obtain ⟨S', hstep, hrun⟩ := Option.bind_eq_some_iff.mp hrun
  obtain ⟨⟨index, data⟩, htakes, hindex⟩ := Option.map_eq_some_iff.mp hrun
  obtain rfl : index = 2 := of_decide_eq_true hindex
  exact ⟨S, S', data, h, hstep, htakes, (snapshot_contents rfl h hstep hP).1 2 data htakes⟩

/-- Node one leads. Both others take in three entries, of which node one commits two with node
three. Node two hears of these two, and node three only of the third, so that it applies three
entries at once. -/
def applyThree : List (LinkedAction FlakyStore) :=
  [tickOf 1, tickOf 1, arrives 1 2, arrives 2 1, arrives 1 2, arrives 2 1] ++ [1, 2, 3].map putTo ++
  List.replicate 4 (arrives 1 2) ++ List.replicate 6 (arrives 1 3) ++ List.replicate 3
    (arrives 2 1) ++
  List.replicate 5 (arrives 3 1) ++ [tickOf 1, arrives 1 2, .drop 1 3, arrives 3 1, tickOf 1,
    arrives 1 3]

/-- What node three has applied. -/
def threeKeys : FlakyStore := ⟨[([3], [3]), ([2], [2]), ([1], [1])], []⟩

/-- The process of node three dies and starts again, and node two becomes the leader with its
vote. -/
def electTwo : List (LinkedAction FlakyStore) :=
  [.act (.crash 3 threeKeys), tickOf 2, tickOf 2, tickOf 2, arrives 2 3, arrives 3 2, arrives 2 3,
    arrives 3 2]

/-- **A snapshot that is ahead of its index.** The engine of node three has recovered what it had
applied. The first message of the new leader says that two entries are committed, and the snapshot
that node three takes of them has the key of the third. -/
theorem snapshot_ahead : ∃ f₀ f f' : LinkedServers FlakyStore,
    LinkedServers.Runs .three everyTwo {} applyThree f₀ ∧
    (f₀.all.servers 3).eng.kvs = threeKeys.kvs ∧
    LinkedServers.Runs .three everyTwo {} (applyThree ++ electTwo) f ∧
    f.step .three everyTwo (arrives 2 3) = some f' ∧
      ∃ m data kvs H, f.inner (arrives 2 3) = some (roundOf 3 (.recv m)) ∧
    (f.all.servers 3).takes (.recv m) = some (2, data) ∧ decodeSnapshotEntries data = some kvs ∧
      contentOf kvs [3] = some [3] ∧ f'.all.CommittedUpTo 2 H ∧ storeAt H 2 [3] = none := by
  have hrun :
      ((exec (LinkedServers.step .three everyTwo) ⟨Servers.init .three everyTwo {}, fun _ _ => []⟩
        applyThree).bind fun f₀ => (exec (LinkedServers.step .three everyTwo) f₀ electTwo).bind
          fun f =>
        (f.step .three everyTwo (arrives 2 3)).bind fun f' => (f.link 2 3).head?.bind fun m =>
          ((f.all.servers 3).takes (.recv m)).bind fun p =>
            (decodeSnapshotEntries p.2).map fun kvs =>
            decide ((f₀.all.servers 3).eng.kvs = threeKeys.kvs ∧ p.1 = 2 ∧
              contentOf kvs [3] = some [3] ∧
                (∀ e ∈ [putKey 1, putKey 2], e ∈ f'.all.committed ∧ e.index ≤ 2) ∧
              ∀ e ∈ f'.all.committed, e.index ≤ 2 → e ∈ [putKey 1, putKey 2])) = some true := by
    decide +kernel
  obtain ⟨f₀, h₀, hrun⟩ := Option.bind_eq_some_iff.mp hrun
  obtain ⟨f, h, hrun⟩ := Option.bind_eq_some_iff.mp hrun
  obtain ⟨f', hstep, hrun⟩ := Option.bind_eq_some_iff.mp hrun
  obtain ⟨m, hm, hrun⟩ := Option.bind_eq_some_iff.mp hrun
  obtain ⟨⟨index, data⟩, htakes, hrun⟩ := Option.bind_eq_some_iff.mp hrun
  obtain ⟨kvs, hkvs, hrun⟩ := Option.map_eq_some_iff.mp hrun
  obtain ⟨heng, rfl, hthree, hsub, hall⟩ := of_decide_eq_true hrun
  refine ⟨f₀, f, f', h₀, heng, exec_append.mpr ⟨f₀, h₀, h⟩, hstep, m, data, kvs,
    [putKey 1, putKey 2], ?_, htakes, hkvs, hthree,
      ⟨by decide, rfl, fun e => ⟨hsub e, fun he => hall e he.1 he.2⟩⟩, by decide +kernel⟩
  show (f.link 2 3).head?.map (fun m => roundOf 3 (.recv m)) = _
  rw [hm, Option.map_some]

end KvStore
