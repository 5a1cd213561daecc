import KvStore.Raft.Turns

/-!
# What a call sends

`Emits r op r'`: what the call `op` sends bears the node's id and a term that it has reached; a
snapshot is the node's own, and a pre-vote is given only to a request that deserves it.
`Op.run_emits`: so it is with every call.

`Op.run_ships`: every snapshot that a call sends is the node's own.
-/

namespace KvStore

variable {r r' : Raft} {m : Message} {op : Op}

/-- A message that brings no snapshot and gives no pre-vote. -/
def MessageType.Plain (type : MessageType) : Prop :=
  type ≠ .preVoteResponse ∧ type ≠ .installSnapshot

instance (type : MessageType) : Decidable type.Plain := inferInstanceAs (Decidable (_ ∧ _))

/-- A message that the call `op` sends, from `r` to `r'`. -/
structure Sent (r : Raft) (op : Op) (r' : Raft) (x : Message) : Prop where
  src : x.fromId = r.id
  term_le : x.term ≤ r'.currentTerm
  snapshot : x.type = .installSnapshot → x.snapshot = r.snapshot
  grant : x.type = .preVoteResponse → x.voteGranted = true → ∃ m, op = .step m ∧ m.type = .preVote ∧
    m.fromId = x.toId ∧ r.currentTerm ≤ m.term + 1 ∧
    (r.votedFor = 0 ∨ r.votedFor = m.fromId ∨ r.currentTerm < m.term + 1) ∧ r.logOK m = some true

/-- What has been sent since `r` was sent by the call. -/
def Emits (r : Raft) (op : Op) (r' : Raft) : Prop := ∀ x ∈ r'.msgs, x ∈ r.msgs ∨ Sent r op r' x

theorem Sent.of_plain {x : Message} (type : MessageType) (hsrc : x.fromId = r.id)
    (hterm : x.term = r'.currentTerm) (hty : x.type = type) (hplain : type.Plain) :
    Sent r op r' x :=
  ⟨hsrc, hterm.le, fun h => absurd (hty.symm.trans h) hplain.2, fun h =>
    absurd (hty.symm.trans h) hplain.1⟩

namespace Emits

theorem of_eq (h : r'.msgs = r.msgs) : Emits r op r' := fun _ hx => Or.inl (h ▸ hx)

theorem of_append {ms : List Message} (h : r'.msgs = r.msgs ++ ms)
    (hms : ∀ x ∈ ms, Sent r op r' x) : Emits r op r' := by
  intro x hx
  rw [h] at hx
  exact (List.mem_append.mp hx).imp_right (hms x)

theorem of_send {x : Message} (h : r'.msgs = r.msgs ++ [x]) (hx : Sent r op r' x) : Emits r op r' :=
  of_append h fun _ hy => (List.mem_singleton.mp hy).symm ▸ hx

/-- A leader that sends its log or its snapshot. -/
theorem of_round {r₀ : Raft} {ctx : ℕ} {ms : List Message}
    (hms : ∀ x ∈ ms, r₀.Replicates ctx x ∧ (x.type = .installSnapshot → x.snapshot = r₀.snapshot))
    (hmsgs : r'.msgs = r.msgs ++ ms) (hid : r₀.id = r.id) (hterm : r₀.currentTerm = r'.currentTerm)
    (hsnap : r₀.snapshot = r.snapshot) : Emits r op r' := by
  refine of_append hmsgs fun x hx => ?_
  obtain ⟨⟨hsrc, ht, hty⟩, hown⟩ := hms x hx
  refine ⟨hsrc.trans hid, (ht.trans hterm).le, fun h => (hown h).trans hsnap, fun h => ?_⟩
  rcases hty with ⟨hty, -⟩ | ⟨hty, -⟩
  · cases hty.symm.trans h
  · cases hty.symm.trans h

/-- A node that asks for votes or for pre-votes. -/
theorem of_asks {r₀ : Raft} {type : MessageType} (h : r₀.Asks type r') (hmsgs : r₀.msgs = r.msgs)
    (hid : r₀.id = r.id) (hty : type.Plain) : Emits r op r' := by
  obtain ⟨ms, rfl, hms⟩ := h
  refine of_append (congrArg (· ++ ms) hmsgs) fun x hx => ?_
  obtain ⟨hty', hsrc, ht, -⟩ := hms x hx
  exact .of_plain type (hsrc.trans hid) ht hty' hty

/-- The answer to a vote request. -/
theorem of_meets {r₁ : Raft} {x : Message} (h : r.Meets m r₁) (hmsgs : r'.msgs = r₁.msgs ++ [x])
    (hsrc : x.fromId = r₁.id) (ht : x.term = r'.currentTerm) (hty : x.type = .requestVoteResponse) :
    Emits r op r' := by
  rcases h with rfl | ⟨-, rfl⟩
  · exact of_send hmsgs (.of_plain _ hsrc ht hty (by decide))
  · exact of_send hmsgs (.of_plain _ hsrc ht hty (by decide))

end Emits

/-- **What a call sends.** -/
theorem Op.run_emits (h : op.run r = some r') : Emits r op r' := by
  cases Op.run_outcome h with
  | idle | waited | ticked | counted | tallied | outrun | answered => exact .of_eq rfl
  | beat _ round | alone _ _ _ round | crowned _ _ _ _ _ _ round | elected _ _ _ _ _ _ round
  | asked _ round =>
    obtain ⟨ms, f, i, rfl, -, -, hms⟩ := round.eq
    exact .of_round hms rfl rfl rfl rfl
  | polled _ _ asks | campaigned _ _ _ _ _ asks => exact .of_asks asks rfl rfl (by decide)
  | preVoted type grants =>
    exact .of_send rfl ⟨rfl, le_rfl, (fun h => by cases h), fun _ hg =>
      ⟨_, rfl, type, rfl, grants hg⟩⟩
  | refused _ _ hmeets | voted _ _ hmeets => exact .of_meets hmeets rfl rfl rfl rfl
  | rejected | mismatched =>
    exact .of_send rfl (.of_plain .appendEntriesResponse rfl rfl rfl (by decide))
  | declined | known | installed =>
    exact .of_send rfl (.of_plain .installSnapshotResponse rfl rfl rfl (by decide))
  | merged _ _ _ _ _ _ run =>
    obtain ⟨log, u, rfl⟩ := Raft.mergeEntries_eq run
    exact .of_send rfl (.of_plain .appendEntriesResponse rfl rfl rfl (by decide))
  | acked _ _ _ _ hears run =>
    obtain ⟨states, reads, rfl⟩ := hears.eq
    obtain ⟨i, rfl, -⟩ := Raft.maybeAdvanceCommitIndex_eq run
    exact .of_eq rfl
  | nacked _ _ _ _ hears run =>
    obtain ⟨states, reads, rfl⟩ := hears.eq
    obtain ⟨x, f, rfl, hx⟩ := Raft.sendAppendEntries_eq run
    exact .of_round (fun y hy => (List.mem_singleton.mp hy).symm ▸ hx) rfl rfl rfl rfl
  | received run =>
    obtain ⟨i, rfl, -⟩ := Raft.maybeAdvanceCommitIndex_eq run
    exact .of_eq rfl
  | proposed _ append round =>
    obtain ⟨log, rfl⟩ := Raft.appendDatas_eq append
    obtain ⟨ms, f, i, rfl, -, -, hms⟩ := round.eq
    exact .of_round hms rfl rfl rfl rfl
  | compacted run =>
    rcases Raft.createSnapshot_eq run with ⟨rfl, -⟩ | ⟨-, log, u, snap, rfl⟩
    · exact .of_eq rfl
    · exact .of_eq rfl

/-- What has been sent since `r` brings no snapshot but the node's own. -/
def Raft.Ships (r r' : Raft) : Prop :=
  ∀ x ∈ r'.msgs, x.type = .installSnapshot → x ∈ r.msgs ∨ x.snapshot = r.snapshot

/-- **Every snapshot that a call sends is the node's own.** -/
theorem Op.run_ships (h : op.run r = some r') : r.Ships r' := fun x hx hty =>
  (Op.run_emits h x hx).imp_right fun hsent => hsent.snapshot hty

end KvStore
