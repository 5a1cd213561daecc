import KvStore.Raft.LogMatching
import KvStore.Server.Rounds

/-!
# What a pump works on

A server's engine, the index it has applied, the index of its last snapshot and the answers to
reads: the event loop leaves them to `pump`, and here is what each part of `pump` does to them.

* `Server.handle_leaves`, `Server.handle_call`: a round up to `Persist` leaves them alone, and makes
  the call `Server.call` on the node.
* `Server.pumped_ok`: the parts of `pump`, in their order.
* `Server.applyCommitted_eq`: what is applied are the entries of the node's log from `lastApplied`
  to the commit index, if none of them has been compacted away.
* `Server.maybeSnapshot_ok`: what `maybeSnapshot` does with the result of the call it makes, if it
  makes one (`Server.snapshotCall`).
-/

namespace KvStore

open StorageEngine

/-! ## Up to `Persist` -/

namespace Server

section Handle

variable {ε : Type} {s s₁ s' : Server ε} {ev : Event} {pumps : Bool}

/-- The server `s'` has what a pump of `s` would work on. -/
structure Leaves (s s' : Server ε) : Prop where
  storage : s'.node.storage = s.node.storage
  eng : s'.eng = s.eng
  applied : s'.lastApplied = s.lastApplied
  snapshotIndex : s'.lastSnapshotIndex = s.lastSnapshotIndex
  threshold : s'.snapshotThreshold = s.snapshotThreshold
  /-- Only errors are said to readers. -/
  reads : ∀ ch i, (ch, .ok i) ∈ s'.readResults → (ch, .ok i) ∈ s.readResults

/-- The call on the node that a round makes. -/
def call (s : Server ε) : Event → Op
  | .tick => .tick
  | .recv m => .step m
  | .readIndex _ => .readIndex s.nextReadCtx
  | ev => .propose ((s.batch ev).map ProposeRequest.data)

theorem call_ne_createSnapshot (s : Server ε) (ev : Event) (index : ℕ) (data : Bytes) :
    s.call ev ≠ .createSnapshot index data := by
  cases ev <;> exact Op.noConfusion

theorem call_step {m : Message} (h : s.call ev = .step m) : ev = .recv m := by
  cases ev with
  | recv m' => cases h; rfl
  | tick | propose req | readIndex ch | batchTimer | closed | stop => cases h

/-- A round that answers no reader. -/
theorem leaves_of_eq (hst : s'.node.storage = s.node.storage) (heng : s'.eng = s.eng)
    (happ : s'.lastApplied = s.lastApplied) (hsnap : s'.lastSnapshotIndex = s.lastSnapshotIndex)
    (hthr : s'.snapshotThreshold = s.snapshotThreshold) (hreads : s'.readResults = s.readResults) :
    Leaves s s' :=
  ⟨hst, heng, happ, hsnap, hthr, fun _ _ h => hreads ▸ h⟩

/-- A batch is proposed to the node if it is not empty. -/
theorem submitBatch_leaves {reqs : List ProposeRequest} (h : s.submitBatch reqs = .ok (s₁, pumps)) :
    Leaves s s₁ ∧
      (pumps = true → (Op.propose (reqs.map ProposeRequest.data)).run s.node.r =
        some s₁.node.r) := by
  unfold submitBatch at h
  split_ifs at h
  · cases h
    exact ⟨leaves_of_eq rfl rfl rfl rfl rfl rfl, fun h => by cases h⟩
  rcases s.orPanic_cases (s.node.r.proposeBatch (reqs.map ProposeRequest.data)) with
    ⟨-, hp⟩ | ⟨⟨r, res⟩, hrun, hp⟩
  · rw [hp] at h
    cases h
  · rw [hp] at h
    cases res with
    | error e =>
      cases h
      exact ⟨leaves_of_eq rfl rfl rfl rfl rfl rfl, fun h => by cases h⟩
    | ok indices =>
      cases h
      exact ⟨leaves_of_eq rfl rfl rfl rfl rfl rfl, fun _ => by rw [Op.run, hrun]; rfl⟩

/-- A round whose call cannot be refused. -/
theorem setRaft_leaves {o : Option Raft}
    (h : (s.orPanic o).bind (fun r => .ok (s.setRaft r, true)) = .ok (s₁, pumps)) :
    Leaves s s₁ ∧ o = some s₁.node.r := by
  rcases s.orPanic_cases o with ⟨-, hp⟩ | ⟨r, ho, hp⟩ <;> rw [hp] at h <;> cases h
  exact ⟨leaves_of_eq rfl rfl rfl rfl rfl rfl, ho⟩

/-- **A round up to `Persist`** leaves to the pump what is the pump's, and has made its call if it
pumps. -/
theorem handle_leaves (h : s.handle ev = .ok (s₁, pumps)) :
    Leaves s s₁ ∧ (pumps = true → (s.call ev).run s.node.r = some s₁.node.r) := by
  cases ev with
  | tick => exact (setRaft_leaves h).imp id fun hr _ => hr
  | recv m => exact (setRaft_leaves h).imp id fun hr _ => hr
  | propose req =>
    unfold handle at h
    dsimp only at h
    split_ifs at h with hfull
    · obtain ⟨hl, hr⟩ := submitBatch_leaves h
      refine ⟨⟨hl.storage, hl.eng, hl.applied, hl.snapshotIndex, hl.threshold, hl.reads⟩, fun hp =>
        ?_⟩
      have hb : s.batch (.propose req) = s.pending ++ [req] := if_pos hfull
      show (Op.propose ((s.batch (.propose req)).map ProposeRequest.data)).run s.node.r = _
      rw [hb]
      exact hr hp
    · cases h
      exact ⟨leaves_of_eq rfl rfl rfl rfl rfl rfl, fun h => by cases h⟩
    · cases h
      exact ⟨leaves_of_eq rfl rfl rfl rfl rfl rfl, fun h => by cases h⟩
  | readIndex ch =>
    unfold handle at h
    dsimp only at h
    rcases ({ s with nextReadCtx := s.nextReadCtx + 1 } : Server ε).orPanic_cases
      (s.node.r.requestReadIndex s.nextReadCtx) with ⟨-, hp⟩ | ⟨⟨r, res⟩, hrun, hp⟩
    · rw [hp] at h
      cases h
    · rw [hp] at h
      cases res with
      | error e =>
        cases h
        refine ⟨⟨rfl, rfl, rfl, rfl, rfl, fun ch i hi => ?_⟩, fun h => by cases h⟩
        rcases List.mem_append.mp hi with hi | hi
        · exact hi
        · cases List.mem_singleton.mp hi
      | ok u =>
        cases h
        exact ⟨leaves_of_eq rfl rfl rfl rfl rfl rfl, fun _ => by rw [call, Op.run, hrun]; rfl⟩
  | batchTimer =>
    obtain ⟨hl, hr⟩ := submitBatch_leaves (show submitBatch _ _ = _ from h)
    exact ⟨⟨hl.storage, hl.eng, hl.applied, hl.snapshotIndex, hl.threshold, hl.reads⟩, hr⟩
  | closed =>
    cases h
    exact ⟨leaves_of_eq rfl rfl rfl rfl rfl rfl, fun h => by cases h⟩
  | stop =>
    cases h
    refine ⟨⟨rfl, rfl, rfl, rfl, rfl, fun ch i hi => ?_⟩, fun h => by cases h⟩
    rcases List.mem_append.mp hi with hi | hi
    · exact hi
    · obtain ⟨p, -, hp⟩ := List.mem_map.mp hi
      cases hp

/-- The call of a round that pumps. -/
theorem handle_call (h : s.handle ev = .ok (s₁, true)) :
    (s.call ev).run s.node.r = some s₁.node.r :=
  (handle_leaves h).2 rfl

end Handle

/-! ## The parts of `pump` -/

section Pump

variable {ε : Type} [StorageEngine ε] {s s₁ s' : Server ε}

/-- **The parts of `pump`.** -/
theorem pumped_ok {nd : Node} {rd : Ready} (h : s.pumped nd rd = .ok s') : ∃ s₁ s₂,
    (s.delivered nd rd).applyCommitted = .ok s₁ ∧ s₁.maybeSnapshot = .ok s₂ ∧
      s' = rd.readStates.foldl resolveRead s₂ := by
  have hpump : s.pumped nd rd = (s.delivered nd rd).applyCommitted.bind fun s =>
      s.maybeSnapshot.bind fun s => .ok (rd.readStates.foldl resolveRead s) := rfl
  rw [hpump] at h
  cases happ : (s.delivered nd rd).applyCommitted with
  | error s₁ => rw [happ] at h; cases h
  | ok s₁ =>
    rw [happ, Except.bind] at h
    cases hsnap : s₁.maybeSnapshot with
    | error s₂ => rw [hsnap] at h; cases h
    | ok s₂ =>
      rw [hsnap] at h
      cases h
      exact ⟨s₁, s₂, rfl, hsnap, rfl⟩

/-- Without a snapshot to restore, what is delivered is the node and the messages. -/
theorem delivered_of_none {nd : Node} {rd : Ready} (h : rd.snapshotToApply = none) :
    s.delivered nd rd = { s with node := nd, sent := s.sent ++ rd.messages } := by
  unfold delivered
  rw [h]

/-- A snapshot that the engine restores is where the server goes on from. -/
theorem delivered_of_some (s : Server ε) (nd : Node) {rd : Ready} {snap : Snapshot}
    (h : rd.snapshotToApply = some snap) (hok : (restoreSnapshot s.eng snap.data).2 = none) :
    s.delivered nd rd = { s with
      node := nd
      eng := (restoreSnapshot s.eng snap.data).1
      lastApplied := snap.lastIncludedIndex
      lastSnapshotIndex := snap.lastIncludedIndex
      sent := s.sent ++ rd.messages } := by
  unfold delivered restore
  rw [h]
  dsimp only
  generalize restoreSnapshot s.eng snap.data = res at hok ⊢
  obtain ⟨eng, err⟩ := res
  cases hok
  rfl

/-- `applyCommitted` returns, if nothing that it is to apply has been compacted away. -/
theorem applyCommitted_ok {l : List LogEntry} {b : ℕ} (hs : Spans s.node.r l b)
    (hb : b ≤ s.lastApplied) : s.applyCommitted =
      .ok (s.applyEntries ((l.take s.node.r.commitIndex).drop s.lastApplied)) := by
  unfold applyCommitted
  split_ifs with hle
  · rw [List.drop_eq_nil_of_le (by rw [List.length_take]; omega), applyEntries, if_pos rfl]
    rfl
  · rw [hs.entries, max_eq_left hb]
    rfl

/-- What is applied. -/
theorem applyCommitted_eq {l : List LogEntry} {b : ℕ} (hs : Spans s.node.r l b)
    (hb : b ≤ s.lastApplied) (h : s.applyCommitted = .ok s') :
    s' = s.applyEntries ((l.take s.node.r.commitIndex).drop s.lastApplied) := by
  rw [applyCommitted_ok hs hb] at h
  exact (Except.ok.inj h).symm

/-- The last of the entries from index `i` on is the last of the log. -/
theorem getLast_index_drop {p : List LogEntry} (hidx : Indexed p) {i : ℕ} (hi : i ≤ p.length) :
    ((p.drop i).getLast?.map LogEntry.index).getD i = p.length := by
  rcases hi.lt_or_eq with hi | rfl
  · have hlast := hidx (p.length - 1) (by omega)
    rw [List.getLast?_drop, if_neg (by omega), List.getLast?_eq_getElem?,
      List.getElem?_eq_getElem (by omega), Option.map_some, hlast, Option.getD_some]
    omega
  · rw [List.drop_length]
    rfl

/-- Applying entries changes the engine, and what the loop over the waiters changes. -/
theorem applyEntries_eq (s : Server ε) (es : List LogEntry) : ∃ w rs, s.applyEntries es = { s with
    eng := if opsOf es = [] then s.eng else (applyBatch s.eng (opsOf es)).1
    lastApplied := (es.getLast?.map LogEntry.index).getD s.lastApplied
    waiters := w
    results := rs } := by
  unfold applyEntries
  by_cases hnil : es = []
  · rw [if_pos hnil, hnil]
    exact ⟨s.waiters, s.results, rfl⟩
  · rw [if_neg hnil]
    obtain ⟨w, rs, heq⟩ := foldl_settle_eq
      (if opsOf es = [] then (s.eng, none) else applyBatch s.eng (opsOf es)).2 es
      { s with eng := (if opsOf es = [] then (s.eng, none) else applyBatch s.eng (opsOf es)).1 }
    refine ⟨w, rs, ?_⟩
    dsimp only
    rw [heq]
    split_ifs <;> rfl

/-- The entries of a prefix of the log have been applied. -/
theorem applyEntries_lastApplied (s : Server ε) {p : List LogEntry} (hidx : Indexed p) :
    (s.applyEntries (p.drop s.lastApplied)).lastApplied = max s.lastApplied p.length := by
  obtain ⟨w, rs, heq⟩ := s.applyEntries_eq (p.drop s.lastApplied)
  rw [heq]
  dsimp only
  rcases Nat.le_total s.lastApplied p.length with hle | hge
  · rw [getLast_index_drop hidx hle, max_eq_right hle]
  · rw [List.drop_eq_nil_of_le hge, max_eq_left hge]
    rfl

/-- The setting of a server stays. -/
theorem applied_threshold (s : Server ε) (nd : Node) (rd : Ready)
    (h : (s.delivered nd rd).applyCommitted = .ok s') :
    s'.snapshotThreshold = s.snapshotThreshold := by
  have hdelivered : (s.delivered nd rd).snapshotThreshold = s.snapshotThreshold := by
    unfold delivered
    dsimp only
    split
    · rfl
    · unfold restore
      split <;> rfl
  rw [← hdelivered]
  generalize s.delivered nd rd = d at h
  unfold applyCommitted at h
  split_ifs at h
  · cases h
    rfl
  · rcases d.orPanic_cases (d.node.r.entries d.lastApplied d.node.r.commitIndex) with
      ⟨-, hp⟩ | ⟨es, -, hp⟩
    · rw [hp] at h
      cases h
    · rw [hp] at h
      cases h
      obtain ⟨w, rs, heq⟩ := d.applyEntries_eq es
      rw [heq]

/-! ## Starting -/

/-- A process goes on from the stored snapshot, or from nothing. -/
theorem start_cases {opts : ServerOptions} {nd : Node} {snap : Option Snapshot} {eng : ε}
    (h : Server.start opts nd snap eng = some s) :
    s.node = nd ∧ s.snapshotThreshold = opts.snapshotThreshold ∧ s.readResults = [] ∧
      s.lastSnapshotIndex = s.lastApplied ∧
      (snap = none ∧ s.eng = eng ∧ s.lastApplied = 0 ∨ ∃ sn, snap = some sn ∧
        (restoreSnapshot eng sn.data).2 = none ∧ s.eng = (restoreSnapshot eng sn.data).1 ∧
        s.lastApplied = sn.lastIncludedIndex) := by
  unfold Server.start at h
  dsimp only at h
  split at h
  · obtain rfl := Option.some.inj h
    exact ⟨rfl, rfl, rfl, rfl, Or.inl ⟨rfl, rfl, rfl⟩⟩
  · next sn =>
    split at h
    · cases h
    · next eng' hres =>
      obtain rfl := Option.some.inj h
      exact ⟨rfl, rfl, rfl, rfl, Or.inr ⟨sn, rfl, by rw [hres], by rw [hres]; rfl, rfl⟩⟩

/-! ## Snapshots -/

/-- The arguments of the `CreateSnapshot` that `maybeSnapshot` calls, if it calls it. -/
def snapshotCall (s : Server ε) : Option (ℕ × Bytes) :=
  if s.snapshotThreshold = 0 ∨ s.lastApplied ≤ s.lastSnapshotIndex ∨
      s.lastApplied - s.lastSnapshotIndex < s.snapshotThreshold then none
  else match snapshot s.eng with
    | .error _ => none
    | .ok data => some (s.lastApplied, data)

/-- The arguments of the call are the last applied index, which is high enough, and what the engine
returns. -/
theorem snapshotCall_some {p : ℕ × Bytes} (h : s.snapshotCall = some p) :
    p.1 = s.lastApplied ∧ s.snapshotThreshold ≠ 0 ∧ s.snapshotThreshold ≤ s.lastApplied ∧
      snapshot s.eng = .ok p.2 := by
  unfold snapshotCall at h
  split_ifs at h with hskip
  split at h
  · cases h
  · next data hdata =>
    cases h
    exact ⟨rfl, by omega, by omega, hdata⟩

/-- `maybeSnapshot` returns, if the call on the node does. -/
theorem maybeSnapshot_total (h : ∀ data, s.node.r.createSnapshot s.lastApplied data ≠ none) :
    ∃ s', s.maybeSnapshot = .ok s' := by
  rcases s.maybeSnapshot_cases with herr | ⟨s', hok, -⟩
  swap
  · exact ⟨s', hok⟩
  unfold maybeSnapshot at herr
  split_ifs at herr
  iterate 3 cases herr
  split at herr
  · cases herr
  · next data hdata =>
    rcases s.orPanic_cases (s.node.r.createSnapshot s.lastApplied data) with
      ⟨hnone, -⟩ | ⟨⟨r, err⟩, -, hp⟩
    · exact absurd hnone (h data)
    · rw [hp] at herr
      cases err <;> cases herr

/-- **What `maybeSnapshot` does**: nothing, or it takes over what its call leaves. -/
theorem maybeSnapshot_ok (h : s.maybeSnapshot = .ok s') :
    s.snapshotCall = none ∧ s' = s ∨ ∃ data r err, s.snapshotCall = some (s.lastApplied, data) ∧
      s.node.r.createSnapshot s.lastApplied data = some (r, err) ∧
      s' = { s with
        node := ⟨r, s.node.storage⟩
        lastSnapshotIndex := match err with
          | .error _ => s.lastSnapshotIndex
          | .ok () => s.lastApplied } := by
  unfold maybeSnapshot at h
  unfold snapshotCall
  split_ifs at h with h1 h2 h3
  · cases h
    exact Or.inl ⟨if_pos (Or.inl h1), rfl⟩
  · cases h
    exact Or.inl ⟨if_pos (Or.inr (Or.inl h2)), rfl⟩
  · cases h
    exact Or.inl ⟨if_pos (Or.inr (Or.inr h3)), rfl⟩
  rw [if_neg (by tauto)]
  cases hdata : snapshot s.eng with
  | error e =>
    rw [hdata] at h
    cases h
    exact Or.inl ⟨rfl, rfl⟩
  | ok data =>
    simp only [hdata] at h
    rcases s.orPanic_cases (s.node.r.createSnapshot s.lastApplied data) with
      ⟨-, hp⟩ | ⟨⟨r, err⟩, hrun, hp⟩
    · rw [hp] at h
      cases h
    · rw [hp] at h
      refine Or.inr ⟨data, r, err, rfl, hrun, ?_⟩
      cases err with
      | error e => cases h; rfl
      | ok u => cases h; rfl

/-- What a pump has applied it keeps to its end. -/
theorem pumped_applied {nd : Node} {rd : Ready} (h : s.pumped nd rd = .ok s') : ∃ s₁,
    (s.delivered nd rd).applyCommitted = .ok s₁ ∧ s'.eng = s₁.eng ∧
      s'.lastApplied = s₁.lastApplied ∧ s'.snapshotThreshold = s.snapshotThreshold := by
  obtain ⟨s₁, s₂, happ, hsnap, rfl⟩ := pumped_ok h
  obtain ⟨ps, rs, heq, -⟩ := foldl_resolveRead_eq rd.readStates s₂
  have hthr := applied_threshold s nd rd happ
  rw [heq]
  rcases maybeSnapshot_ok hsnap with ⟨-, rfl⟩ | ⟨data, r, err, -, -, rfl⟩
  · exact ⟨s₂, happ, rfl, rfl, hthr⟩
  · exact ⟨s₁, happ, rfl, rfl, hthr⟩

end Pump

end Server

end KvStore
