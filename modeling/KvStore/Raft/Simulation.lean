import KvStore.Consensus.Safety
import KvStore.Raft.Cluster
import KvStore.Raft.Persist

/-!
# How a cluster shows a run of the abstract protocol

The relation between a cluster and a state of `Consensus/Protocol.lean`, node by node and message by
message.

* `Mirrors`: what a node has in memory is its part of the abstract state. Its log is a window on the
  full log the abstract state gives it, and a leader's full log is its term's history.
* `Secure`: its commit index is backed by what leaders committed, and a leader's bookkeeping by what
  the peers acknowledged. This half holds as long as no snapshot overwrites what a node has
  acknowledged, so everything about it is stated under a proposition `S`: with `S` false the
  relation is election safety and log matching, with `S` true it is also leader completeness.
* `MsgOk` and `MsgSafe`: the same two halves for a message.

Each is kept when somebody else takes a step (`Mirrors.of_ne`, `Secure.of_ne`) or, for messages,
when anybody does (`MsgOk.mono`, `MsgSafe.mono`).
-/

namespace KvStore

open Consensus

/-- A state of the abstract protocol over this cluster's nodes and entries. -/
abbrev Abs := Consensus.State ℕ LogEntry

namespace Members

variable (mb : Members) {n p : ℕ}

/-- The members as a set. -/
def set : Finset ℕ := mb.ids.toFinset

variable {mb}

@[simp] theorem mem_set : n ∈ mb.set ↔ n ∈ mb.ids := List.mem_toFinset

theorem card_set : mb.set.card = mb.ids.length := List.toFinset_card_of_nodup mb.nodup

theorem mem_peers (hn : n ∈ mb.ids) : p ∈ (mb.config n).peers ↔ p ≠ n ∧ p ∈ mb.ids := by
  rw [(mb.peers_perm n hn).mem_iff, mb.nodup.mem_erase_iff]

theorem nodup_peers (hn : n ∈ mb.ids) : (mb.config n).peers.Nodup :=
  (mb.peers_perm n hn).nodup_iff.mpr (mb.nodup.erase n)

theorem length_peers (hn : n ∈ mb.ids) : (mb.config n).peers.length + 1 = mb.ids.length := by
  rw [(mb.peers_perm n hn).length_eq, List.length_erase_of_mem hn]
  have := List.length_pos_of_mem hn
  omega

theorem ne_zero (hn : n ∈ mb.ids) : n ≠ 0 := by
  intro h0
  have hv := mb.valid n hn
  rw [Config.validate, if_pos (by rw [mb.id_eq n hn, h0])] at hv
  exact absurd hv (by simp)

/-- Enough votes are a majority. -/
theorem majority_of_card {Q : Finset ℕ} (hn : n ∈ mb.ids) (hQ : ∀ q ∈ Q, q ∈ mb.ids)
    (hcard : ((mb.config n).peers.length + 1) / 2 + 1 ≤ Q.card) : Majority mb.set Q := by
  refine ⟨fun q hq => mem_set.mpr (hQ q hq), ?_⟩
  rw [card_set, ← mb.length_peers hn]
  omega

end Members

/-! ## What the relation reads of a node -/

/-- The part of a node's state the relation is about. Timers, hints and read requests are not. -/
structure View where
  id : ℕ
  peers : List ℕ
  role : Role
  currentTerm : ℕ
  votedFor : ℕ
  log : List LogEntry
  snapIndex : ℕ
  snapTerm : ℕ
  commitIndex : ℕ
  nextIndex : ℕ → ℕ
  matchIndex : ℕ → ℕ
  sentIndex : ℕ → ℕ
  votesReceived : Finset ℕ
  msgs : List Message

/-- A node's view. -/
def Raft.view (r : Raft) : View :=
  ⟨r.id, r.peers, r.role, r.currentTerm, r.votedFor, r.log, r.snapshot.lastIncludedIndex,
    r.snapshot.lastIncludedTerm, r.commitIndex, r.nextIndex, r.matchIndex, r.sentIndex,
    r.votesReceived, r.msgs⟩

/-! ## Nodes -/

section Relation

variable (mb : Members) (A : Abs) (n : ℕ) (v : View)

/-- Node `n` in memory is its part of the abstract state. -/
structure Mirrors : Prop where
  mem : n ∈ mb.ids
  id_eq : v.id = n
  peers_eq : v.peers = (mb.config n).peers
  term_eq : A.term n = v.currentTerm
  vote_eq : A.vote n v.currentTerm = if v.votedFor = 0 then none else some v.votedFor
  log_eq : v.log = window (A.log n) v.snapIndex
  snap_le : v.snapIndex ≤ (A.log n).length
  snap_term : v.snapTerm = termAt LogEntry.term (A.log n) v.snapIndex
  leader : v.role = .leader → A.leader v.currentTerm = some n ∧ A.hist v.currentTerm = A.log n
  candidate : v.role = .candidate → A.vote n v.currentTerm = some n ∧
    A.cand n v.currentTerm = A.log n ∧ A.leader v.currentTerm ≠ some n ∧
    ∀ q ∈ v.votesReceived, q ∈ mb.ids ∧ A.vote q v.currentTerm = some n

/-- Node `p` holds the first `k` entries of term `t`: it acknowledged them, or they are
committed. -/
def Acked (t p k : ℕ) : Prop := k ≤ A.ack p t ∨ ∃ u ≤ t, k ≤ A.com u

/-- What a leader knows about its peers. -/
structure Leads : Prop where
  com_le : A.com v.currentTerm ≤ v.commitIndex
  ack_self : (A.hist v.currentTerm).length ≤ A.ack n v.currentTerm
  next_pos : ∀ p ∈ v.peers, 0 < v.nextIndex p
  next_le : ∀ p ∈ v.peers, v.nextIndex p ≤ (A.log n).length + 1
  sent_le : ∀ p ∈ v.peers, v.sentIndex p ≤ (A.log n).length
  acked : ∀ p ∈ v.peers, Acked A v.currentTerm p (v.matchIndex p)

/-- Node `n` has committed only what leaders committed. -/
structure Secure : Prop where
  commit : Backed A v.currentTerm v.commitIndex (A.log n)
  snap_le_commit : v.snapIndex ≤ v.commitIndex
  leads : v.role = .leader → Leads A n v

/-! ## Messages -/

/-- The entries of an `AppendEntries` are those of the log `H` after `PrevLogIndex`. -/
structure Extract (H : List LogEntry) (m : Message) : Prop where
  prev_le : m.prevLogIndex ≤ H.length
  prev_term : m.prevLogTerm = termAt LogEntry.term H m.prevLogIndex
  entries : H.take m.prevLogIndex ++ m.entries <+: H

/-- A message says what its sender's part of the abstract state was. -/
structure MsgOk (m : Message) : Prop where
  src : m.fromId ∈ mb.ids
  ne : m.fromId ≠ m.toId
  vote : m.type = .requestVote → A.vote m.fromId m.term = some m.fromId ∧
    m.lastLogIndex = (A.cand m.fromId m.term).length ∧
    m.lastLogTerm = lastTerm LogEntry.term (A.cand m.fromId m.term)
  granted : m.type = .requestVoteResponse → m.voteGranted = true →
    A.vote m.fromId m.term = some m.toId
  append : m.type = .appendEntries → A.leader m.term = some m.fromId ∧
    ((m.entries = [] ∧ m.prevLogTerm = 0) ∨ Extract (A.hist m.term) m)
  snap : m.type = .installSnapshot → A.leader m.term = some m.fromId ∧
    m.snapshot.lastIncludedIndex ≤ (A.hist m.term).length ∧
    m.snapshot.lastIncludedTerm =
      termAt LogEntry.term (A.hist m.term) m.snapshot.lastIncludedIndex

/-- A message's commit indices and acknowledgements are backed. -/
structure MsgSafe (m : Message) : Prop where
  append : m.type = .appendEntries → Extract (A.hist m.term) m ∧
    m.leaderCommit ≤ m.prevLogIndex + m.entries.length ∧
    Backed A m.term m.leaderCommit (A.hist m.term)
  reply : m.type = .appendEntriesResponse → m.success = true →
    Acked A m.term m.fromId m.matchIndex
  snap : m.type = .installSnapshot →
    Backed A m.term m.snapshot.lastIncludedIndex (A.hist m.term)
  snapReply : m.type = .installSnapshotResponse → Acked A m.term m.fromId m.matchIndex

end Relation

section Messages

variable {mb : Members} {A : Abs} {m : Message}

theorem Extract.length_le {H : List LogEntry} (h : Extract H m) :
    m.prevLogIndex + m.entries.length ≤ H.length := by
  have hle := h.entries.length_le
  rwa [List.length_append, List.length_take_of_le h.prev_le] at hle

/-- A message of another type says nothing. -/
theorem MsgOk.of_type (hsrc : m.fromId ∈ mb.ids) (hne : m.fromId ≠ m.toId)
    (hty : m.type ∉ [.requestVote, .requestVoteResponse, .appendEntries, .installSnapshot]) :
    MsgOk mb A m where
  src := hsrc
  ne := hne
  vote := fun ht => absurd (by simp [ht]) hty
  granted := fun ht => absurd (by simp [ht]) hty
  append := fun ht => absurd (by simp [ht]) hty
  snap := fun ht => absurd (by simp [ht]) hty

theorem MsgSafe.of_type (hty : m.type ∉
    [.appendEntries, .appendEntriesResponse, .installSnapshot, .installSnapshotResponse]) :
    MsgSafe A m where
  append := fun ht => absurd (by simp [ht]) hty
  reply := fun ht => absurd (by simp [ht]) hty
  snap := fun ht => absurd (by simp [ht]) hty
  snapReply := fun ht => absurd (by simp [ht]) hty

end Messages

/-- What the abstract state itself satisfies. -/
structure Good (S : Prop) (mb : Members) (A : Abs) : Prop where
  wf : Wf LogEntry.term mb.set A
  indexed : ∀ t, Indexed (A.hist t)
  safe : S → Safe LogEntry.term mb.set A

/-! ## What other nodes' steps keep -/

section Mono

variable {mb : Members} {A A' : Abs} {n m : ℕ} {v : View}

theorem Acked.mono {t p k : ℕ} (h : Acked A t p k) (hg : Grows LogEntry.term A A') :
    Acked A' t p k := by
  rcases h with h | ⟨u, hu, h⟩
  · exact Or.inl (h.trans (hg.ack_le p t))
  · exact Or.inr ⟨u, hu, h.trans (hg.com_le u)⟩

/-- A step of node `m` leaves the other nodes' mirrors as they are. -/
theorem Mirrors.of_ne (h : Mirrors mb A n v) (he : Ext LogEntry.term m A A') (hne : n ≠ m) :
    Mirrors mb A' n v where
  mem := h.mem
  id_eq := h.id_eq
  peers_eq := h.peers_eq
  term_eq := by rw [he.term_ne n hne, h.term_eq]
  vote_eq := by rw [he.vote_ne n hne, h.vote_eq]
  log_eq := by rw [he.log_ne n hne, h.log_eq]
  snap_le := by rw [he.log_ne n hne]; exact h.snap_le
  snap_term := by rw [he.log_ne n hne, h.snap_term]
  leader := fun hr => by
    obtain ⟨h1, h2⟩ := h.leader hr
    exact ⟨he.leader_keep _ _ h1, by rw [he.hist_ne _ n h1 hne, he.log_ne n hne, h2]⟩
  candidate := fun hr => by
    obtain ⟨h1, h2, h3, h4⟩ := h.candidate hr
    refine ⟨he.vote_keep _ _ _ h1, ?_, ?_, ?_⟩
    · rw [he.cand_keep n _ h1, he.log_ne n hne, h2]
    · exact fun hl => h3 (he.leader_ne _ n hl hne)
    · exact fun q hq => ⟨(h4 q hq).1, he.vote_keep _ _ _ (h4 q hq).2⟩

theorem Leads.of_ne (h : Leads A n v) (hl : A.leader v.currentTerm = some n)
    (he : Ext LogEntry.term m A A') (hne : n ≠ m) : Leads A' n v where
  com_le := by rw [he.com_ne _ n hl hne]; exact h.com_le
  ack_self := by rw [he.hist_ne _ n hl hne, he.ack_ne n hne]; exact h.ack_self
  next_pos := h.next_pos
  next_le := by rw [he.log_ne n hne]; exact h.next_le
  sent_le := by rw [he.log_ne n hne]; exact h.sent_le
  acked := fun p hp => (h.acked p hp).mono he.toGrows

theorem Secure.of_ne (h : Secure A n v) (hm : Mirrors mb A n v) (he : Ext LogEntry.term m A A')
    (hne : n ≠ m) : Secure A' n v where
  commit := by rw [he.log_ne n hne]; exact h.commit.grows he.toGrows
  snap_le_commit := h.snap_le_commit
  leads := fun hr => (h.leads hr).of_ne (hm.leader hr).1 he hne

theorem Extract.mono {H H' : List LogEntry} {m : Message} (h : Extract H m) (hp : H <+: H') :
    Extract H' m where
  prev_le := h.prev_le.trans hp.length_le
  prev_term := by rw [h.prev_term, termAt_of_isPrefix LogEntry.term hp h.prev_le]
  entries := by
    rw [take_eq_of_isPrefix hp h.prev_le]
    exact h.entries.trans hp

theorem MsgOk.mono {m : Message} (h : MsgOk mb A m) (hg : Grows LogEntry.term A A') :
    MsgOk mb A' m where
  src := h.src
  ne := h.ne
  vote := fun ht => by
    obtain ⟨h1, h2, h3⟩ := h.vote ht
    rw [hg.cand_keep _ _ h1]
    exact ⟨hg.vote_keep _ _ _ h1, h2, h3⟩
  granted := fun ht hv => hg.vote_keep _ _ _ (h.granted ht hv)
  append := fun ht => by
    obtain ⟨h1, h2⟩ := h.append ht
    exact ⟨hg.leader_keep _ _ h1, h2.imp_right fun h => h.mono (hg.hist_isPrefix _)⟩
  snap := fun ht => by
    obtain ⟨h1, h2, h3⟩ := h.snap ht
    have hp := hg.hist_isPrefix m.term
    exact ⟨hg.leader_keep _ _ h1, h2.trans hp.length_le,
      by rw [h3, termAt_of_isPrefix LogEntry.term hp h2]⟩

theorem MsgSafe.mono {m : Message} (h : MsgSafe A m) (hg : Grows LogEntry.term A A') :
    MsgSafe A' m where
  append := fun ht => by
    obtain ⟨h1, h2, h3⟩ := h.append ht
    exact ⟨h1.mono (hg.hist_isPrefix _), h2,
      (h3.grows hg).mono le_rfl le_rfl (hg.hist_isPrefix _)⟩
  reply := fun ht hs => (h.reply ht hs).mono hg
  snap := fun ht => ((h.snap ht).grows hg).mono le_rfl le_rfl (hg.hist_isPrefix _)
  snapReply := fun ht => (h.snapReply ht).mono hg

end Mono

/-! ## A node while a call runs -/

/-- The relation for the node that is taking a step, its outbox included. -/
structure Live (S : Prop) (mb : Members) (A : Abs) (n : ℕ) (v : View) : Prop where
  good : Good S mb A
  mirrors : Mirrors mb A n v
  msgs : ∀ m ∈ v.msgs, MsgOk mb A m
  secure : S → Secure A n v
  msgsSafe : S → ∀ m ∈ v.msgs, MsgSafe A m

namespace Live

variable {S : Prop} {mb : Members} {A : Abs} {n : ℕ} {r : Raft}

theorem canon_log (h : Live S mb A n r.view) : Canon LogEntry.term A.hist (A.log n) :=
  h.good.wf.canon_log n

theorem leader_eq (h : Live S mb A n r.view) (hr : r.role = .leader) :
    A.leader r.currentTerm = some n :=
  (h.mirrors.leader hr).1

theorem hist_eq (h : Live S mb A n r.view) (hr : r.role = .leader) :
    A.hist r.currentTerm = A.log n :=
  (h.mirrors.leader hr).2

end Live

theorem Good.indexed_log {S : Prop} {mb : Members} {A : Abs} (h : Good S mb A) (n : ℕ) :
    Indexed (A.log n) := by
  by_cases hl : A.log n = []
  · rw [hl]; exact indexed_nil 0
  · exact (h.indexed _).of_isPrefix ((h.wf.canon_log n).prefix_last hl)

theorem Live.spans {S : Prop} {mb : Members} {A : Abs} {n : ℕ} {r : Raft}
    (h : Live S mb A n r.view) : Spans r (A.log n) r.snapshot.lastIncludedIndex :=
  ⟨h.mirrors.log_eq, h.mirrors.snap_le, h.good.indexed_log n⟩

end KvStore
