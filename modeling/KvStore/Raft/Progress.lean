import KvStore.Raft.Outcome
import KvStore.Raft.Refinement

/-!
# A node moves forward

What a call hands over to the server, and what it does to the commit index and the boundary of the
log.

* `Handover op r r'`: a snapshot is handed over by an `InstallSnapshot` that replaces the log, and
  by nothing else. `Op.run_handover`: every call is one of these.
* `Raft.mergeEntries_last`: after `AppendEntries` the log reaches the last entry of the message.
* `Sim.forward`: in a cluster that processes no unsafe snapshot, no call takes the commit index or
  the boundary back, and a snapshot that is handed over ends where the commit index is.
-/

namespace KvStore

open Consensus Machine

variable {r r' : Raft} {m : Message} {op : Op}

/-! ## What is handed over -/

/-- The snapshot of a node, and the one it hands to its server. -/
def Raft.handed (r : Raft) : Snapshot × Option Snapshot := (r.snapshot, r.pendingSnapshotToApply)

/-- The message brings a snapshot that the node puts in the place of its log. -/
def Raft.Installs (r : Raft) (m : Message) : Prop :=
  m.type = .installSnapshot ∧ m.toId = r.id ∧ r.currentTerm ≤ m.term ∧
    r.firstIndex.any (· < m.snapshot.lastIncludedIndex)

instance (r : Raft) (m : Message) : Decidable (r.Installs m) := inferInstanceAs (Decidable (_ ∧ _))

/-- What a call can do to a node's snapshot and to what it hands over. -/
inductive Handover : Op → Raft → Raft → Prop
  | kept {op : Op} {r r' : Raft} (handed : r'.handed = r.handed) : Handover op r r'
  | compacted {index : ℕ} {data : Bytes} {r r' : Raft}
      (pending : r'.pendingSnapshotToApply = r.pendingSnapshotToApply) :
      Handover (.createSnapshot index data) r r'
  | installed {m : Message} {r r' : Raft} (installs : r.Installs m)
      (handed : r'.handed = (m.snapshot, some m.snapshot))
      (log : r'.log = [⟨m.snapshot.lastIncludedTerm, m.snapshot.lastIncludedIndex, []⟩])
      (commit : r'.commitIndex = max r.commitIndex m.snapshot.lastIncludedIndex) :
      Handover (.step m) r r'

/-- **What a call hands over.** -/
theorem Op.run_handover (h : op.run r = some r') : Handover op r r' := by
  cases Op.run_outcome h with
  | idle | waited | ticked | preVoted | counted | tallied | outrun | rejected | mismatched
  | declined | known | answered => exact .kept rfl
  | beat _ round | alone _ _ _ round | crowned _ _ _ _ _ _ round | elected _ _ _ _ _ _ round
  | asked _ round =>
    obtain ⟨ms, f, i, rfl, -⟩ := round.eq
    exact .kept rfl
  | polled _ _ asks | campaigned _ _ _ _ _ asks =>
    obtain ⟨ms, rfl, -⟩ := asks
    exact .kept rfl
  | refused _ _ hmeets | voted _ _ hmeets =>
    rcases hmeets with rfl | ⟨-, rfl⟩
    · exact .kept rfl
    · exact .kept rfl
  | merged _ _ _ _ _ _ run =>
    obtain ⟨log, u, rfl⟩ := Raft.mergeEntries_eq run
    exact .kept rfl
  | acked _ _ _ _ hears run =>
    obtain ⟨states, reads, rfl⟩ := hears.eq
    obtain ⟨i, rfl, -⟩ := Raft.maybeAdvanceCommitIndex_eq run
    exact .kept rfl
  | nacked _ _ _ _ hears run =>
    obtain ⟨states, reads, rfl⟩ := hears.eq
    obtain ⟨x, f, rfl, -⟩ := Raft.sendAppendEntries_eq run
    exact .kept rfl
  | @installed m first type dst le firstIndex lt =>
    have hany : r.firstIndex.any (· < m.snapshot.lastIncludedIndex) = true := by
      rw [firstIndex, Option.any_some]
      exact decide_eq_true lt
    refine .installed ⟨type, dst, le, hany⟩ rfl rfl ?_
    show (if r.commitIndex < _ then _ else r.commitIndex) = _
    rw [max_def]
    split_ifs <;> omega
  | received run =>
    obtain ⟨i, rfl, -⟩ := Raft.maybeAdvanceCommitIndex_eq run
    exact .kept rfl
  | proposed _ append round =>
    obtain ⟨log, rfl⟩ := Raft.appendDatas_eq append
    obtain ⟨ms, f, i, rfl, -⟩ := round.eq
    exact .kept rfl
  | compacted run =>
    refine .compacted ?_
    rcases Raft.createSnapshot_eq run with ⟨rfl, -⟩ | ⟨-, log, u, snap, rfl⟩ <;> rfl

/-- What a `CreateSnapshot` that succeeds does. -/
theorem Raft.createSnapshot_ok {index : ℕ} {data : Bytes}
    (h : r.createSnapshot index data = some (r', .ok ())) : r.firstIndex.any (· < index) ∧
      r'.firstIndex = some index ∧ r'.snapshot.lastIncludedIndex = index ∧ r'.snapshot.data = data ∧
      r'.commitIndex = r.commitIndex ∧ r'.pendingSnapshotToApply = r.pendingSnapshotToApply ∧
        r'.pendingReads = r.pendingReads := by
  simp only [createSnapshot, Option.bind_eq_bind, pure] at h
  by_cases h1 : r.commitIndex < index
  · rw [if_pos h1] at h
    simp at h
  rw [if_neg h1] at h
  obtain ⟨first, hfirst, h⟩ := Option.bind_eq_some_iff.mp h
  by_cases h2 : index ≤ first
  · rw [if_pos h2] at h
    simp at h
  rw [if_neg h2] at h
  obtain ⟨term, -, h⟩ := Option.bind_eq_some_iff.mp h
  obtain ⟨pos, -, h⟩ := Option.bind_eq_some_iff.mp h
  obtain ⟨rest, -, h⟩ := Option.bind_eq_some_iff.mp h
  obtain ⟨rfl, -⟩ := Prod.mk.inj (Option.some.inj h)
  refine ⟨?_, rfl, rfl, rfl, rfl, rfl, rfl⟩
  rw [hfirst, Option.any_some]
  exact decide_eq_true (not_le.mp h2)

/-! ## The commit index -/

/-- Merging reaches the last entry of the message. -/
theorem Raft.mergeEntries_last {es : List LogEntry} {k last last' : ℕ} (hes : IndexedFrom k es)
    (hlast : r.lastLogIndex = some last) (hle : k ≤ last) (h : r.mergeEntries (k + 1) es = some r')
    (hlast' : r'.lastLogIndex = some last') : k + es.length ≤ last' := by
  induction es generalizing r k last with
  | nil =>
    obtain rfl := Option.some.inj h
    rw [hlast] at hlast'
    rw [← Option.some.inj hlast']
    exact hle
  | cons e es ih =>
    rw [mergeEntries] at h
    obtain ⟨last₀, -, h⟩ := Option.bind_eq_some_iff.mp h
    obtain ⟨term, -, h⟩ := Option.bind_eq_some_iff.mp h
    have hidx : e.index = k + 1 := hes 0 (by simp)
    rw [List.length_cons, Nat.add_comm es.length, ← Nat.add_assoc]
    -- whether the entry is added or was there, the log now reaches it
    have hrest : ∀ r₁ : Raft, (r₁.lastLogIndex.bind fun last =>
        (if last < k + 1 then { r₁ with log := r₁.log ++ [e] } else r₁).mergeEntries
          (k + 1 + 1) es) = some r' → k + 1 + es.length ≤ last' := by
      intro r₁ h₁
      obtain ⟨last₁, hlast₁, h₁⟩ := Option.bind_eq_some_iff.mp h₁
      split_ifs at h₁ with hadd
      · have hnew : ({ r₁ with log := r₁.log ++ [e] } : Raft).lastLogIndex = some (k + 1) := by
          rw [lastLogIndex, List.getLast?_concat, ← hidx]
          rfl
        exact ih hes.tail.2 hnew le_rfl h₁
      · exact ih hes.tail.2 hlast₁ (not_lt.mp hadd) h₁
    by_cases hc : k + 1 ≤ last₀ ∧ term ≠ e.term
    · rw [if_pos hc] at h
      obtain ⟨pos, -, h⟩ := Option.bind_eq_some_iff.mp h
      obtain ⟨log, -, h⟩ := Option.bind_eq_some_iff.mp h
      exact hrest _ h
    · rw [if_neg hc] at h
      exact hrest r h

variable {S : Prop} {mb : Members} {A A' : Abs} {n : ℕ} {c : Cluster}

/-- The entries of a message follow its `PrevLogIndex`. -/
theorem Extract.indexedFrom {H : List LogEntry} (h : Extract H m) (hH : Indexed H) :
    IndexedFrom m.prevLogIndex m.entries := by
  intro i hi
  have hlen : (H.take m.prevLogIndex).length = m.prevLogIndex := List.length_take_of_le h.prev_le
  have hidx :=
    hH.of_isPrefix h.entries (m.prevLogIndex + i) (by rw [List.length_append, hlen]; omega)
  rw [List.getElem_append_right (by omega)] at hidx
  simp only [hlen, Nat.add_sub_cancel_left] at hidx
  omega

/-- A call that moves a node forward: it keeps the snapshot, or it installs one that ends no earlier
than the commit index. -/
inductive Forward : Op → Raft → Raft → Prop
  | kept {op : Op} {r r' : Raft} (handed : r'.handed = r.handed)
      (commit : r.commitIndex ≤ r'.commitIndex) : Forward op r r'
  | installed {m : Message} {r r' : Raft} (installs : r.Installs m)
      (handed : r'.handed = (m.snapshot, some m.snapshot))
      (boundary : r.snapshot.lastIncludedIndex < m.snapshot.lastIncludedIndex)
      (le : r.commitIndex ≤ m.snapshot.lastIncludedIndex)
      (commit : r'.commitIndex = m.snapshot.lastIncludedIndex) : Forward (.step m) r r'

namespace Sim

/-- **No call takes the commit index back.** -/
theorem commit_le (h : Sim True mb c A) (hdel : c.deliverable op)
    (hrun : op.run (c.nodes n).r = some r') : (c.nodes n).r.commitIndex ≤ r'.commitIndex := by
  cases op.run_outcome hrun with
  | idle | waited | ticked | preVoted | counted | tallied | outrun | rejected | mismatched
  | declined | known | answered => exact le_rfl
  | beat _ round | alone _ _ _ round | crowned _ _ _ _ _ _ round | elected _ _ _ _ _ _ round
  | asked _ round =>
    obtain ⟨ms, f, i, rfl, hge, -⟩ := round.eq
    exact hge
  | polled _ _ asks | campaigned _ _ _ _ _ asks =>
    obtain ⟨ms, rfl, -⟩ := asks
    exact le_rfl
  | refused _ _ hmeets | voted _ _ hmeets =>
    rcases hmeets with rfl | ⟨-, rfl⟩
    · exact le_rfl
    · exact le_rfl
  | merged type _ _ lastLogIndex prev _ run lastLogIndex' =>
    -- the leader's commit index is within the message, and the log reaches its end
    obtain ⟨hx, hle, -⟩ := (h.netSafe trivial _ hdel).append type
    have hend := (Raft.mergeEntries_last (hx.indexedFrom (h.good.indexed _)) · prev run
      lastLogIndex') lastLogIndex
    obtain ⟨log, u, rfl⟩ := Raft.mergeEntries_eq run
    show (c.nodes n).r.commitIndex ≤ if (c.nodes n).r.commitIndex < _ then _ else _
    split_ifs with hlt
    · exact le_min hlt.le (hlt.le.trans (hle.trans hend))
    · exact le_rfl
  | acked _ _ _ _ hears run =>
    obtain ⟨states, reads, rfl⟩ := hears.eq
    obtain ⟨i, rfl, hge, -⟩ := Raft.maybeAdvanceCommitIndex_eq run
    exact hge
  | nacked _ _ _ _ hears run =>
    obtain ⟨states, reads, rfl⟩ := hears.eq
    obtain ⟨x, f, rfl, -⟩ := Raft.sendAppendEntries_eq run
    exact le_rfl
  | installed =>
    show (c.nodes n).r.commitIndex ≤ if (c.nodes n).r.commitIndex < _ then _ else _
    split_ifs <;> omega
  | received run =>
    obtain ⟨i, rfl, hge, -⟩ := Raft.maybeAdvanceCommitIndex_eq run
    exact hge
  | proposed _ append round =>
    obtain ⟨log, rfl⟩ := Raft.appendDatas_eq append
    obtain ⟨ms, f, i, rfl, hge, -⟩ := round.eq
    exact hge
  | compacted run =>
    rcases Raft.createSnapshot_eq run with ⟨rfl, -⟩ | ⟨-, log, u, snap, rfl⟩
    · exact le_rfl
    · exact le_rfl

/-- After a call the commit index is within the log. -/
theorem commit_le_last (h : Sim True mb c A) (hn : n ∈ mb.ids) (hdel : c.deliverable op)
    (hsafe : op.Safe (c.nodes n).r) (hrun : op.run (c.nodes n).r = some r') :
    ∃ last, r'.lastLogIndex = some last ∧ r'.commitIndex ≤ last := by
  obtain ⟨A', hlive, -⟩ := (h.called hn hdel (fun _ => hsafe) hrun).unsaved (h.node n hn)
  exact ⟨_, hlive.spans.lastLogIndex, (hlive.secure trivial).commit.le_length⟩

/-- **A call moves a node forward**, if it is no unsafe install. -/
theorem forward (h : Sim True mb c A) (hn : n ∈ mb.ids) (hdel : c.deliverable op)
    (hsafe : op.Safe (c.nodes n).r) (hop : ∀ index data, op ≠ .createSnapshot index data)
    (hrun : op.run (c.nodes n).r = some r') : Forward op (c.nodes n).r r' := by
  have hle := h.commit_le hdel hrun
  cases op.run_handover hrun with
  | kept handed => exact .kept handed hle
  | compacted => exact absurd rfl (hop _ _)
  | installed installs handed log commit =>
    -- the commit index is within a log that has only the boundary
    obtain ⟨last, hlast, hcommit⟩ := h.commit_le_last hn hdel hsafe hrun
    rw [Raft.lastLogIndex, log] at hlast
    obtain rfl := Option.some.inj hlast
    have hlt := installs.2.2.2
    rw [(h.node n hn).live.spans.firstIndex, Option.any_some] at hlt
    have heq := le_antisymm hcommit (commit.ge.trans' (le_max_right _ _))
    exact .installed installs handed (of_decide_eq_true hlt) (hle.trans heq.le) heq

end Sim

end KvStore
