import KvStore.Codec.Buffered
import KvStore.Transport.Untrusted

/-!
# One connection: `Send` and `handleConn`

`Send` frames an encoded message with its length in 32 bits and writes both to the connection.
`handleConn` reads one frame after the other, decodes it and delivers the message; the first frame
that it cannot read or decode ends the connection.

* `send`, `writeFramed`: either write can fail, as the writes to a `Sink` can. The sender puts no
  bound on the length of a message.
* `readFramed` refuses a declared length above `maxMessageSize`.
* `handleConn`: the messages that are delivered from the bytes of a connection.
* `delivered_iff_bounded`: what `Send` accepted is delivered if and only if no message is longer
  than `maxMessageSize`.
* `install_snapshot_refused`: the snapshot of a store of 64 MiB is accepted by the sender and
  refused by the receiver, and the heartbeat after it is lost with the connection.

The peer's address, dialing, and shutting the receiver down are left out: there is one connection,
and whatever is delivered is received.
-/

namespace KvStore.Transport

open Codec Wal

/-- The errors of `writeFramed`. -/
inductive SendError where
  | frameLength
  | framePayload
  deriving DecidableEq, Repr

/-- `writeFramed`. -/
def writeFramed (s : Sink) (payload : Bytes) : Option SendError × Sink :=
  match s.write (le32 payload.length) with
  | (false, _, s) => (some .frameLength, s)
  | (true, _, s) =>
    match s.write payload with
    | (false, _, s) => (some .framePayload, s)
    | (true, _, s) => (none, s)

/-- `Send` over a connection that is there. -/
def send (m : WireMessage) (s : Sink) : Option (Option SendError × Sink) :=
  (encodeMessage m).map fun b => writeFramed s b.bytes

/-- `Send` of one message after the other, if all calls return nil. -/
def sendAll : List WireMessage → Sink → Option Sink
  | [], s => some s
  | m :: ms, s =>
    match send m s with
    | some (none, s) => sendAll ms s
    | _ => none

/-- The errors of `readFramed`. -/
inductive FrameError where
  | readLength
  | exceedsMax (length : ℕ)
  | readPayload
  deriving DecidableEq, Repr

/-- `readFramed`: the payload, and what follows it. -/
def readFramed (wire : Bytes) : Except FrameError (Bytes × Bytes) :=
  match readLe32 wire with
  | none => .error .readLength
  | some (length, wire) =>
    if maxMessageSize < length then .error (.exceedsMax length)
    else if wire.length < length then .error .readPayload
    else .ok (wire.take length, wire.drop length)

/-- The loop of `handleConn`, for at most `fuel` frames: the messages it delivers. -/
def handleFrames : ℕ → Bytes → List WireMessage
  | 0, _ => []
  | fuel + 1, wire =>
    match readFramed wire with
    | .error _ => []
    | .ok (payload, wire) =>
      match (decodeMessage payload).result with
      | .error _ => []
      | .ok m => m :: handleFrames fuel wire

/-- `handleConn`, on all that arrives. A frame has at least the four bytes of its length. -/
def handleConn (wire : Bytes) : List WireMessage := handleFrames (wire.length + 1) wire

/-! ## What the sender writes -/

/-- A message on the connection. -/
def frame (m : WireMessage) : Bytes := le32 (messageSize m) ++ encoding m

theorem sink_write_bytes {s s' : Sink} {p : Bytes} {n : ℕ} (h : s.write p = (true, n, s')) :
    s'.bytes = s.bytes ++ p := by
  unfold Sink.write at h
  split at h
  · exact absurd (Prod.mk.inj h).1 nofun
  all_goals
    obtain ⟨-, h⟩ := Prod.mk.inj h
    obtain ⟨-, rfl⟩ := Prod.mk.inj h
    rfl

theorem send_bytes {m : WireMessage} {s s' : Sink} (h : send m s = some (none, s')) :
    s'.bytes = s.bytes ++ frame m := by
  have henc : encodeMessage m = some ⟨0, encoding m⟩ := encodeMessage_eq m
  have hbytes : (⟨0, encoding m⟩ : Packer).bytes = encoding m := List.append_nil _
  simp only [send, henc, Option.map_some, Option.some.injEq, hbytes, writeFramed, length_encoding]
    at h
  split at h
  · exact absurd (Prod.mk.inj h).1 nofun
  next n₁ s₁ h₁ =>
  split at h
  · exact absurd (Prod.mk.inj h).1 nofun
  next n₂ s₂ h₂ =>
  obtain ⟨-, rfl⟩ := Prod.mk.inj h
  rw [sink_write_bytes h₂, sink_write_bytes h₁, List.append_assoc]
  rfl

theorem sendAll_bytes {ms : List WireMessage} {s s' : Sink} (h : sendAll ms s = some s') :
    s'.bytes = s.bytes ++ ms.flatMap frame := by
  induction ms generalizing s with
  | nil =>
    obtain rfl := Option.some.inj h
    exact (List.append_nil _).symm
  | cons m ms ih =>
    unfold sendAll at h
    split at h
    next s₁ h₁ => rw [ih h, send_bytes h₁, List.append_assoc, List.flatMap_cons]
    · cases h

/-! ## What the receiver delivers -/

theorem readFramed_length {wire payload rest : Bytes} (h : readFramed wire = .ok (payload, rest)) :
    rest.length < wire.length ∧ payload.length ≤ maxMessageSize := by
  unfold readFramed at h
  split at h
  · cases h
  next length wire' hread =>
  split_ifs at h with hmax hlen
  obtain ⟨rfl, rfl⟩ := Prod.mk.inj (Except.ok.inj h)
  have hwire := readLe32_length hread
  rw [List.length_drop, List.length_take]
  omega

/-- Enough rounds read all. -/
theorem handleFrames_eq_handleConn {wire : Bytes} {n : ℕ} (h : wire.length < n) :
    handleFrames n wire = handleConn wire := by
  induction hlen : wire.length using Nat.strongRecOn generalizing wire n with
  | ind len ih =>
    subst hlen
    obtain ⟨n, rfl⟩ : ∃ k, n = k + 1 := ⟨n - 1, by omega⟩
    unfold handleConn handleFrames
    split
    · rfl
    next payload rest hread =>
    have hrest := (readFramed_length hread).1
    split
    · rfl
    · rw [ih rest.length hrest (n := n) (by omega) rfl,
        ih rest.length hrest (n := wire.length) hrest rfl]

theorem handleConn_eq (wire : Bytes) : handleConn wire =
    match readFramed wire with
    | .error _ => []
    | .ok (payload, rest) =>
      match (decodeMessage payload).result with
      | .error _ => []
      | .ok m => m :: handleConn rest := by
  conv_lhs => unfold handleConn handleFrames
  split
  · rfl
  next payload rest hread =>
  split
  · rfl
  · rw [handleFrames_eq_handleConn (readFramed_length hread).1]

/-- What is delivered is not longer than what `readFramed` lets through. -/
theorem handleConn_bounded (wire : Bytes) :
    ∀ m ∈ handleConn wire, messageSize m ≤ maxMessageSize := by
  induction hlen : wire.length using Nat.strongRecOn generalizing wire with
  | ind len ih =>
    subst hlen
    rw [handleConn_eq]
    split
    · nofun
    next payload rest hread =>
    obtain ⟨hrest, hpayload⟩ := readFramed_length hread
    have hmax : maxMessageSize = 67108864 := rfl
    have hshort : payload.length < 2 ^ 32 := by omega
    split
    · nofun
    next m hm =>
    rcases (decodeMessage_returns hshort).2 with hres | ⟨m', hres, hsize⟩
    · rw [hres] at hm
      cases hm
    · rw [hres] at hm
      obtain rfl := Except.ok.inj hm
      intro q hq
      rcases List.mem_cons.mp hq with rfl | hq
      · exact hsize.trans hpayload
      · exact ih rest.length hrest rest rfl q hq

theorem handleConn_frame {m : WireMessage} (htype : m.type < 256)
    (hsize : messageSize m ≤ maxMessageSize) (rest : Bytes) :
    handleConn (frame m ++ rest) = m :: handleConn rest := by
  have hmax : maxMessageSize = 67108864 := rfl
  have hlen := length_encoding m
  have hread : readFramed (frame m ++ rest) = .ok (encoding m, rest) := by
    rw [readFramed, frame, List.append_assoc, readLe32_le32 (by omega)]
    dsimp only
    rw [if_neg (by omega), if_neg (by rw [List.length_append]; omega), List.take_left' hlen,
      List.drop_left' hlen]
  rw [handleConn_eq, hread]
  dsimp only
  rw [decodeMessage_encoding htype hsize]

theorem handleConn_frames {ms : List WireMessage} (htype : ∀ m ∈ ms, m.type < 256)
    (hsize : ∀ m ∈ ms, messageSize m ≤ maxMessageSize) : handleConn (ms.flatMap frame) = ms := by
  induction ms with
  | nil => rfl
  | cons m ms ih =>
    rw [List.flatMap_cons, handleConn_frame (htype m List.mem_cons_self)
      (hsize m List.mem_cons_self), ih (fun q hq => htype q (List.mem_cons_of_mem _ hq)) fun q hq =>
        hsize q (List.mem_cons_of_mem _ hq)]

/-- **What `Send` accepts is delivered, all of it and in order, if and only if no message is longer
than `maxMessageSize`.** -/
theorem delivered_iff_bounded (ms : List WireMessage) (s s' : Sink) (htype : ∀ m ∈ ms, m.type < 256)
    (hnew : s.bytes = []) (h : sendAll ms s = some s') :
    handleConn s'.bytes = ms ↔ ∀ m ∈ ms, messageSize m ≤ maxMessageSize := by
  rw [sendAll_bytes h, hnew, List.nil_append]
  constructor
  · intro hms m hm
    exact handleConn_bounded _ m (hms.symm ▸ hm)
  · exact handleConn_frames htype

/-- Every `Send` returns nil over a connection that does not fail. -/
theorem sendAll_ok (ms : List WireMessage) (bytes : Bytes) :
    ∃ s', sendAll ms ⟨bytes, []⟩ = some s' := by
  induction ms generalizing bytes with
  | nil => exact ⟨_, rfl⟩
  | cons m ms ih =>
    unfold sendAll send
    rw [encodeMessage_eq]
    exact ih _

/-- The number of a message type on the wire. -/
def typeNumber : MessageType → ℕ
  | .preVote => 0
  | .preVoteResponse => 1
  | .requestVote => 2
  | .requestVoteResponse => 3
  | .appendEntries => 4
  | .appendEntriesResponse => 5
  | .installSnapshot => 6
  | .installSnapshotResponse => 7

/-- A message of raft, as it is given to `Send`. -/
def wireOf (m : Message) : WireMessage where
  type := typeNumber m.type
  fromId := .ofNat m.fromId
  toId := .ofNat m.toId
  term := .ofNat m.term
  lastLogIndex := .ofNat m.lastLogIndex
  lastLogTerm := .ofNat m.lastLogTerm
  voteGranted := m.voteGranted
  prevLogIndex := .ofNat m.prevLogIndex
  prevLogTerm := .ofNat m.prevLogTerm
  entries := m.entries.map fun e => ⟨.ofNat e.term, .ofNat e.index, e.data⟩
  leaderCommit := .ofNat m.leaderCommit
  success := m.success
  matchIndex := .ofNat m.matchIndex
  readContext := .ofNat m.readContext
  snapshot :=
    ⟨.ofNat m.snapshot.lastIncludedIndex, .ofNat m.snapshot.lastIncludedTerm, m.snapshot.data⟩

/-- A leader's heartbeat. -/
def heartbeat : Message := { type := .appendEntries, fromId := 1, toId := 2, term := 1 }

/-- A vote request and a heartbeat. -/
theorem delivered_iff_bounded_two : ∃ s',
    sendAll [wireOf { type := .requestVote, fromId := 1, toId := 2, term := 1 }, wireOf heartbeat]
      ⟨[], []⟩ = some s' ∧
    handleConn s'.bytes = [wireOf { type := .requestVote, fromId := 1, toId := 2, term := 1 },
      wireOf heartbeat] := by
  obtain ⟨s', h⟩ :=
    sendAll_ok [wireOf { type := .requestVote, fromId := 1, toId := 2, term := 1 },
      wireOf heartbeat] []
  exact ⟨s', h, (delivered_iff_bounded _ _ s' (by decide) rfl h).mpr (by decide)⟩

/-- The snapshot of a store of 64 MiB, as a leader sends it to a follower that is behind. -/
def largeSnapshot : Message :=
  { type := .installSnapshot, fromId := 1, toId := 2, term := 1,
    snapshot := ⟨1, 1, List.replicate maxMessageSize 0⟩ }

/-- **A large snapshot is accepted by `Send` and refused by the receiver**, and the heartbeat after
it, which was accepted as well, is lost with the connection. -/
theorem install_snapshot_refused :
    ∃ s', sendAll [wireOf largeSnapshot, wireOf heartbeat] ⟨[], []⟩ = some s' ∧
      handleConn s'.bytes = [] := by
  have hsize : messageSize (wireOf largeSnapshot) = 107 + maxMessageSize := by
    rw [messageSize_eq]
    simp only [wireOf, largeSnapshot, List.map_nil, List.length_replicate]
    rfl
  obtain ⟨s', h⟩ := sendAll_ok [wireOf largeSnapshot, wireOf heartbeat] []
  refine ⟨s', h, ?_⟩
  have hbytes := sendAll_bytes h
  rw [hbytes, List.nil_append, List.flatMap_cons, frame, hsize, handleConn_eq, readFramed,
    List.append_assoc, readLe32_le32 (by decide)]
  dsimp only
  rw [if_pos (by decide)]

end KvStore.Transport
