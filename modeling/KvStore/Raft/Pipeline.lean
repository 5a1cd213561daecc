import KvStore.Raft.LogAccess
import KvStore.Raft.Merging

/-!
# Pipelined replication

A leader does not wait for an answer before it sends the next entries to a peer: `sentIndex` is
where the last message to the peer ended, and `nextIndex` what the peer has acknowledged, which a
late answer can move back. The next message starts at the higher of the two.

* `Leadership`: a leader from `becomeLeader` on, with a trace of what it has sent, the log it had
  then, and the rejections it has processed.
* `lastAppend p tr`: the last `AppendEntries` to peer `p`, unless a rejection from `p` or an
  `InstallSnapshot` to `p` came after it.
* `Piped`: what every call of a leader keeps. After an `AppendEntries` to `p`, `sentIndex` is its
  end, and `nextIndex` is not beyond.
* `Raft.StartsWithin`: the entries do not start at or below the boundary of the log.
* `pipelined_replication`: of two consecutive `AppendEntries` to a peer the second goes on where the
  first ended, and a follower that has accepted the first accepts the second exactly if it starts
  within its log.
* `pipelined_below_boundary`: a follower that has compacted its log gets the first two messages
  late.
-/

namespace KvStore

open Consensus Machine

/-! ## A leader and what it sends -/

/-- What happens in a leadership: a message is sent, with the log of that time; a rejection is
processed. -/
inductive LeaderEvent
  | sent (m : Message) (log : List LogEntry)
  | rejected (p : ℕ)
  deriving DecidableEq

/-- A message to peer `p`, or a rejection from it. -/
def LeaderEvent.Concerns (p : ℕ) : LeaderEvent → Prop
  | .sent m _ => m.toId = p
  | .rejected q => q = p

instance (p : ℕ) : DecidablePred (LeaderEvent.Concerns p)
  | .sent m _ => inferInstanceAs (Decidable (m.toId = p))
  | .rejected q => inferInstanceAs (Decidable (q = p))

/-- The last `AppendEntries` to peer `p` after the event, if it was `last` before. -/
def LeaderEvent.next (p : ℕ) (last : Option Message) : LeaderEvent → Option Message
  | .sent m _ => if m.toId = p then (if m.type = .appendEntries then some m else none) else last
  | .rejected q => if q = p then none else last

/-- The last `AppendEntries` to peer `p`, if nothing that restarts the sequence came after it. -/
def lastAppend (p : ℕ) (tr : List LeaderEvent) : Option Message :=
  tr.foldl (LeaderEvent.next p) none

/-- The messages that have been sent since `r`. -/
def Raft.sentSince (r r' : Raft) : List LeaderEvent :=
  (r'.msgs.drop r.msgs.length).map fun m => .sent m r'.log

/-- A leader, and what has happened since it was elected. -/
structure Leadership where
  node : Raft
  trace : List LeaderEvent

/-- What a leader's server does: a call, or an `Advance`. -/
inductive LeaderAction
  | call (op : Op)
  | advance

namespace Leadership

/-- The rejection that the call processes, if it does. -/
def rejections (L : Leadership) : Op → List LeaderEvent
  | .step m =>
    if m.term = L.node.currentTerm ∧ m.success = false then [.rejected m.fromId] else []
  | _ => []

/-- A call or an `Advance`. -/
def step (L : Leadership) : LeaderAction → Option Leadership
  | .call op => do
    let r ← op.run L.node
    return ⟨r, L.trace ++ L.rejections op ++ L.node.sentSince r⟩
  | .advance => do
    let r ← L.node.advance
    return ⟨r, L.trace⟩

/-- The node becomes leader. -/
def start (r : Raft) : Option Leadership := do
  let r' ← r.becomeLeader
  return ⟨r', r.sentSince r'⟩

/-- The message answers an `AppendEntries` that the leader has sent. -/
def Answers (L : Leadership) (m : Message) : Prop :=
  ∃ x log, LeaderEvent.sent x log ∈ L.trace ∧ x.type = .appendEntries ∧ x.toId = m.fromId ∧
    (m.success = true → m.matchIndex = x.prevLogIndex + x.entries.length)

/-- Only answers to what the leader has sent are delivered to it, and none of a higher term. -/
def Allows (L : Leadership) : LeaderAction → Prop
  | .call (.step m) => m.type = .appendEntriesResponse ∧ m.toId = L.node.id ∧
      m.term ≤ L.node.currentTerm ∧ L.Answers m
  | _ => True

end Leadership

variable {r r' : Raft} {l : List LogEntry} {b p : ℕ} {tr : List LeaderEvent} {m : Message}

theorem lastAppend_concat (e : LeaderEvent) :
    lastAppend p (tr ++ [e]) = e.next p (lastAppend p tr) := by
  rw [lastAppend, List.foldl_append]
  rfl

theorem LeaderEvent.next_of_not_concerns {e : LeaderEvent} (h : ¬e.Concerns p)
    (last : Option Message) : e.next p last = last := by
  cases e with
  | sent m log => exact if_neg h
  | rejected q => exact if_neg h

/-- Nothing comes between. -/
theorem lastAppend_between {before between : List LeaderEvent} {log : List LogEntry}
    (hty : m.type = .appendEntries) (hto : m.toId = p) (h : ∀ e ∈ between, ¬e.Concerns p) :
    lastAppend p (before ++ .sent m log :: between) = some m := by
  induction between using List.reverseRecOn with
  | nil =>
    rw [lastAppend_concat, LeaderEvent.next, if_pos hto, if_pos hty]
  | append_singleton between e ih =>
    have hsplit : before ++ .sent m log :: (between ++ [e]) =
        (before ++ .sent m log :: between) ++ [e] := by simp
    rw [hsplit, lastAppend_concat, LeaderEvent.next_of_not_concerns (h e (by simp))]
    exact ih fun e' he' => h e' (List.mem_append_left _ he')

/-! ## Messages and the leader's log -/

/-- The message is a part of the log `l`. -/
structure Fits (l : List LogEntry) (m : Message) : Prop where
  le : m.prevLogIndex + m.entries.length ≤ l.length
  prevTerm : m.prevLogTerm = termAt LogEntry.term l m.prevLogIndex
  entries : m.entries = (l.drop m.prevLogIndex).take m.entries.length

/-- The message is all of the log after an index that the log still has. -/
def Completes (log : List LogEntry) (m : Message) : Prop :=
  ∃ l b, log = window l b ∧ Indexed l ∧ b ≤ m.prevLogIndex ∧ m.prevLogIndex ≤ l.length ∧
    m.prevLogTerm = termAt LogEntry.term l m.prevLogIndex ∧ m.entries = l.drop m.prevLogIndex

theorem Fits.mono {l' : List LogEntry} (h : Fits l m) (hl : l <+: l') : Fits l' m := by
  obtain ⟨s, rfl⟩ := hl
  have hle := h.le
  refine ⟨by rw [List.length_append]; omega, ?_, ?_⟩
  · rw [h.prevTerm, termAt_of_isPrefix LogEntry.term (List.prefix_append l s) (by omega)]
  · rw [List.drop_append_of_le_length (by omega),
      List.take_append_of_le_length (by rw [List.length_drop]; omega)]
    exact h.entries

/-- Every `AppendEntries` of the trace is all of the leader's log from where the one before
ended. -/
def Chained (tr : List LeaderEvent) : Prop :=
  ∀ before m log after, tr = before ++ .sent m log :: after → m.type = .appendEntries →
    Completes log m ∧ ∀ m₀, lastAppend m.toId before = some m₀ →
      m.prevLogIndex = m₀.prevLogIndex + m₀.entries.length

theorem Chained.concat (h : Chained tr) {e : LeaderEvent}
    (he : ∀ m log, e = .sent m log → m.type = .appendEntries → Completes log m ∧
      ∀ m₀, lastAppend m.toId tr = some m₀ → m.prevLogIndex = m₀.prevLogIndex + m₀.entries.length) :
    Chained (tr ++ [e]) := by
  intro before m log after heq hty
  rcases List.eq_nil_or_concat after with rfl | ⟨after', e', rfl⟩
  · obtain ⟨rfl, hlast⟩ := List.append_inj' heq rfl
    exact he m log (List.head_eq_of_cons_eq hlast) hty
  · have heq' : tr ++ [e] = (before ++ .sent m log :: after') ++ [e'] := by simpa using heq
    obtain ⟨rfl, -⟩ := List.append_inj' heq' rfl
    exact h before m log after' rfl hty

/-! ## What every call keeps -/

/-- What the bookkeeping of a leader rests on. -/
def Raft.pipe (r : Raft) : Role × ℕ × List ℕ × List LogEntry × (ℕ → ℕ) × (ℕ → ℕ) :=
  (r.role, r.currentTerm, r.peers, r.log, r.nextIndex, r.sentIndex)

/-- A leader whose full log is `l`, after the trace `tr`. -/
structure Piped (l : List LogEntry) (b : ℕ) (r : Raft) (tr : List LeaderEvent) : Prop where
  role : r.role = .leader
  term_pos : 0 < r.currentTerm
  positive : ∀ e ∈ l, 0 < e.term
  spans : Spans r l b
  bounds : ∀ p ∈ r.peers, 1 ≤ r.nextIndex p ∧ r.nextIndex p ≤ l.length + 1 ∧
    r.sentIndex p ≤ l.length
  sent : ∀ m log, .sent m log ∈ tr → m.type = .appendEntries → m.toId ∈ r.peers ∧
    m.term = r.currentTerm ∧ Fits l m
  last : ∀ p ∈ r.peers, ∀ m, lastAppend p tr = some m →
    r.sentIndex p = m.prevLogIndex + m.entries.length ∧ r.nextIndex p ≤ r.sentIndex p + 1 ∧
      ∀ x log, .sent x log ∈ tr → x.type = .appendEntries → x.toId = p →
        x.prevLogIndex + x.entries.length ≤ r.sentIndex p
  chained : Chained tr

namespace Piped

theorem congr (h : Piped l b r tr) (heq : r'.pipe = r.pipe) : Piped l b r' tr := by
  simp only [Raft.pipe, Prod.mk.injEq] at heq
  obtain ⟨hrole, hterm, hpeers, hlog, hnext, hsent⟩ := heq
  constructor
  · rw [hrole]; exact h.role
  · rw [hterm]; exact h.term_pos
  · exact h.positive
  · exact h.spans.of_log_eq hlog
  · rw [hpeers, hnext, hsent]; exact h.bounds
  · rw [hpeers, hterm]; exact h.sent
  · rw [hpeers, hnext, hsent]; exact h.last
  · exact h.chained

/-- One more message is sent. If it is an `AppendEntries`, it goes on where the last one to its peer
ended, and goes to the end of the log. -/
theorem push (h : Piped l b r tr) {x : Message} {f : ℕ → ℕ}
    (hr' : r'.pipe = (r.role, r.currentTerm, r.peers, r.log, r.nextIndex, f))
    (hf : ∀ q, q ≠ x.toId → f q = r.sentIndex q) (hle : f x.toId ≤ l.length)
    (hx : x.type = .appendEntries → x.toId ∈ r.peers ∧ x.term = r.currentTerm ∧
      f x.toId = l.length ∧ Fits l x ∧ x.prevLogIndex + x.entries.length = l.length ∧
      Completes r.log x ∧ ∀ m₀, lastAppend x.toId tr = some m₀ →
        x.prevLogIndex = m₀.prevLogIndex + m₀.entries.length) :
    Piped l b r' (tr ++ [.sent x r.log]) := by
  simp only [Raft.pipe, Prod.mk.injEq] at hr'
  obtain ⟨hrole, hterm, hpeers, hlog, hnext, hsent⟩ := hr'
  have hmem : ∀ {m log}, LeaderEvent.sent m log ∈ tr ++ [.sent x r.log] → .sent m log ∈ tr ∨
      m = x := fun hm =>
    (List.mem_append.mp hm).imp_right fun hm => (LeaderEvent.sent.inj (List.mem_singleton.mp hm)).1
  constructor
  · rw [hrole]; exact h.role
  · rw [hterm]; exact h.term_pos
  · exact h.positive
  · exact h.spans.of_log_eq hlog
  · intro q hq
    rw [hpeers] at hq
    obtain ⟨hpos, hnle, hsle⟩ := h.bounds q hq
    rw [hnext, hsent]
    refine ⟨hpos, hnle, ?_⟩
    by_cases heq : q = x.toId
    · rw [heq]; exact hle
    · rw [hf q heq]; exact hsle
  · intro m log hm hty
    rw [hpeers, hterm]
    rcases hmem hm with hm | rfl
    · exact h.sent m log hm hty
    · obtain ⟨hto, hxterm, -, hfits, -⟩ := hx hty
      exact ⟨hto, hxterm, hfits⟩
  · intro q hq m hlast
    rw [hpeers] at hq
    rw [hnext, hsent]
    rw [lastAppend_concat, LeaderEvent.next] at hlast
    by_cases hto : x.toId = q
    · rw [if_pos hto] at hlast
      split_ifs at hlast with hty
      obtain rfl := Option.some.inj hlast
      obtain ⟨-, -, hend, -, hlen, -⟩ := hx hty
      rw [← hto, hend]
      refine ⟨hlen.symm, (h.bounds _ (hto ▸ hq)).2.1, fun y log hy hyty _ => ?_⟩
      rcases hmem hy with hy | rfl
      · exact (h.sent y log hy hyty).2.2.le
      · exact hlen.le
    · rw [if_neg hto] at hlast
      rw [hf q (Ne.symm hto)]
      obtain ⟨hend, hnle, hends⟩ := h.last q hq m hlast
      refine ⟨hend, hnle, fun y log hy hyty hyto => ?_⟩
      rcases hmem hy with hy | rfl
      · exact hends y log hy hyty hyto
      · exact absurd hyto hto
  · refine h.chained.concat fun m log heq hty => ?_
    obtain ⟨rfl, rfl⟩ := LeaderEvent.sent.inj heq
    obtain ⟨-, -, -, -, -, hcompletes, hchain⟩ := hx hty
    exact ⟨hcompletes, hchain⟩

/-- **`sendAppendEntries` goes on where the last message ended.** -/
theorem sendAppendEntries (h : Piped l b r tr) (hp : p ∈ r.peers) (ctx : ℕ) : ∃ r' x,
    r.sendAppendEntries p ctx = some r' ∧ r'.msgs = r.msgs ++ [x] ∧ r'.log = r.log ∧
      r'.peers = r.peers ∧ Piped l b r' (tr ++ [.sent x r.log]) := by
  obtain ⟨hpos, hnle, hsle⟩ := h.bounds p hp
  have hpred : Raft.pred64 (r.nextIndex p) = r.nextIndex p - 1 := if_neg (by omega)
  simp only [Raft.sendAppendEntries, h.spans.firstIndex, h.spans.lastLogIndex, hpred,
    Option.bind_eq_bind, Option.bind_some]
  by_cases hsnap : r.nextIndex p - 1 < b
  · rw [if_pos hsnap]
    exact ⟨_, _, rfl, rfl, rfl, rfl, h.push rfl (fun _ _ => rfl) hsle fun hty => by cases hty⟩
  rw [if_neg hsnap]
  -- the message starts at the higher of the two cursors
  generalize hprev :
    (if r.nextIndex p - 1 < r.sentIndex p then r.sentIndex p else r.nextIndex p - 1) = prev
  have hge : r.nextIndex p - 1 ≤ prev ∧ r.sentIndex p ≤ prev ∧ prev ≤ l.length := by
    rw [← hprev]
    split_ifs <;> omega
  have hes : r.entries prev l.length = some (l.drop prev) := by
    rw [h.spans.entries, List.take_length, max_eq_left (by omega)]
  rw [h.spans.termAt_of_le (by omega) hge.2.2, hes]
  have hend :
      (if r.sentIndex p < l.length then Function.update r.sentIndex p l.length else r.sentIndex) p =
        l.length := by
    split_ifs with hlt
    · exact Function.update_self ..
    · omega
  have hlen : prev + (l.drop prev).length = l.length := by
    rw [List.length_drop]
    omega
  refine ⟨_, _, rfl, rfl, rfl, rfl, h.push rfl (fun q hq => ?_) hend.le
    fun _ => ⟨hp, rfl, hend, ⟨hlen.le, rfl, List.take_length.symm⟩, hlen, ?_, fun m₀ hm₀ => ?_⟩⟩
  · dsimp only
    split_ifs
    · exact Function.update_of_ne hq _ _
    · rfl
  · exact ⟨l, b, h.spans.log_eq, h.spans.indexed, by show b ≤ prev; omega, hge.2.2, rfl, rfl⟩
  · obtain ⟨hsent, hnext, -⟩ := h.last p hp m₀ hm₀
    show prev = _
    rw [← hprev]
    split_ifs <;> omega

/-- A round of `sendAppendEntries`. -/
theorem broadcast (h : Piped l b r tr) (ctx : ℕ) :
    ∃ r', r.broadcast ctx = some r' ∧ r'.log = r.log ∧ Piped l b r' (tr ++ r.sentSince r') := by
  have hround : ∃ r', r.broadcast ctx = some r' ∧ ∃ ms, r'.msgs = r.msgs ++ ms ∧ r'.log = r.log ∧
      r'.peers = r.peers ∧ Piped l b r' (tr ++ ms.map fun m => .sent m r.log) := by
    refine foldlM_inv (I := fun r₁ : Raft => ∃ ms, r₁.msgs = r.msgs ++ ms ∧ r₁.log = r.log ∧
      r₁.peers = r.peers ∧ Piped l b r₁ (tr ++ ms.map fun m => .sent m r.log)) ?_ ⟨[], by
        simp, rfl, rfl, by simpa using h⟩
    rintro r₁ ⟨ms, hmsgs, hlog, hpeers, h₁⟩ p hp
    obtain ⟨r₂, x, hrun, hmsgs₂, hlog₂, hpeers₂, h₂⟩ := h₁.sendAppendEntries (hpeers ▸ hp) ctx
    refine ⟨r₂, hrun, ms ++
      [x], by rw [hmsgs₂, hmsgs, List.append_assoc], hlog₂.trans hlog, hpeers₂.trans hpeers, ?_⟩
    rw [List.map_append, ← List.append_assoc]
    exact hlog ▸ h₂
  obtain ⟨r', hrun, ms, hmsgs, hlog, -, hpiped⟩ := hround
  refine ⟨r', hrun, hlog, ?_⟩
  rw [Raft.sentSince, hmsgs, List.drop_left, hlog]
  exact hpiped

/-- Entries put at the end of the log. -/
theorem grow (h : Piped l b r tr) {es : List LogEntry} (hidx : Indexed (l ++ es))
    (hes : ∀ e ∈ es, 0 < e.term) : Piped (l ++ es) b { r with log := r.log ++ es } tr where
  role := h.role
  term_pos := h.term_pos
  positive := fun e he => (List.mem_append.mp he).elim (h.positive e) (hes e)
  spans := h.spans.append hidx rfl
  bounds := fun p hp => by
    obtain ⟨hpos, hnle, hsle⟩ := h.bounds p hp
    rw [List.length_append]
    exact ⟨hpos, hnle.trans (by omega), hsle.trans (by omega)⟩
  sent := fun m log hm hty => by
    obtain ⟨hto, hterm, hfits⟩ := h.sent m log hm hty
    exact ⟨hto, hterm, hfits.mono (List.prefix_append l es)⟩
  last := h.last
  chained := h.chained

/-- A rejection from `p` ends the sequence, and the cursors of `p` may go back. -/
theorem rejected (h : Piped l b r tr) {f g : ℕ → ℕ}
    (hr' : r'.pipe = (r.role, r.currentTerm, r.peers, r.log, f, g))
    (hf : ∀ q, q ≠ p → f q = r.nextIndex q) (hg : ∀ q, q ≠ p → g q = r.sentIndex q)
    (hp : p ∈ r.peers → 1 ≤ f p ∧ f p ≤ l.length + 1 ∧ g p ≤ l.length) :
    Piped l b r' (tr ++ [.rejected p]) := by
  simp only [Raft.pipe, Prod.mk.injEq] at hr'
  obtain ⟨hrole, hterm, hpeers, hlog, hnext, hsent⟩ := hr'
  have hmem : ∀ {m log}, LeaderEvent.sent m log ∈ tr ++ [.rejected p] → .sent m log ∈ tr :=
    fun hm =>
    (List.mem_append.mp hm).resolve_right fun hm => by simp at hm
  constructor
  · rw [hrole]; exact h.role
  · rw [hterm]; exact h.term_pos
  · exact h.positive
  · exact h.spans.of_log_eq hlog
  · intro q hq
    rw [hpeers] at hq
    rw [hnext, hsent]
    by_cases heq : q = p
    · rw [heq]; exact hp (heq ▸ hq)
    · rw [hf q heq, hg q heq]; exact h.bounds q hq
  · rw [hpeers, hterm]
    exact fun m log hm hty => h.sent m log (hmem hm) hty
  · intro q hq m hlast
    rw [hpeers] at hq
    rw [lastAppend_concat, LeaderEvent.next] at hlast
    split_ifs at hlast with heq
    rw [hnext, hsent, hf q (Ne.symm heq), hg q (Ne.symm heq)]
    obtain ⟨hend, hnle, hends⟩ := h.last q hq m hlast
    exact ⟨hend, hnle, fun x log hx => hends x log (hmem hx)⟩
  · exact h.chained.concat nofun

/-- An acknowledgement moves `nextIndex` to the end of a message that was sent. -/
theorem acknowledged (h : Piped l b r tr) {x : Message} {log : List LogEntry}
    (hx : .sent x log ∈ tr) (hty : x.type = .appendEntries)
    (hr' : r'.pipe = (r.role, r.currentTerm, r.peers, r.log,
      Function.update r.nextIndex x.toId (x.prevLogIndex + x.entries.length + 1), r.sentIndex)) :
    Piped l b r' tr := by
  simp only [Raft.pipe, Prod.mk.injEq] at hr'
  obtain ⟨hrole, hterm, hpeers, hlog, hnext, hsent⟩ := hr'
  obtain ⟨hto, -, hfits⟩ := h.sent x log hx hty
  have hle := hfits.le
  constructor
  · rw [hrole]; exact h.role
  · rw [hterm]; exact h.term_pos
  · exact h.positive
  · exact h.spans.of_log_eq hlog
  · intro q hq
    rw [hpeers] at hq
    obtain ⟨hpos, hnle, hsle⟩ := h.bounds q hq
    rw [hnext, hsent, Function.update_apply]
    split_ifs
    · exact ⟨Nat.le_add_left 1 _, by omega, hsle⟩
    · exact ⟨hpos, hnle, hsle⟩
  · rw [hpeers, hterm]; exact h.sent
  · intro q hq m hlast
    rw [hpeers] at hq
    obtain ⟨hend, hnle, hends⟩ := h.last q hq m hlast
    rw [hnext, hsent, Function.update_apply]
    refine ⟨hend, ?_, hends⟩
    split_ifs with heq
    · -- the message was sent before the last one, or is the last one
      exact Nat.succ_le_succ (hends x log hx hty heq.symm)
    · exact hnle
  · exact h.chained

/-! ### Every call -/

theorem sentSince_of_eq (h : r'.msgs = r.msgs) : r.sentSince r' = [] := by
  rw [Raft.sentSince, h, List.drop_length, List.map_nil]

/-- A call that sends nothing and leaves the bookkeeping alone. -/
theorem quiet (h : Piped l b r tr) (heq : r'.pipe = r.pipe) (hmsgs : r'.msgs = r.msgs) :
    Piped l b r' (tr ++ r.sentSince r') := by
  rw [sentSince_of_eq hmsgs, List.append_nil]
  exact h.congr heq

/-- The commit index may move at the end of a call. -/
theorem maybeAdvanceCommitIndex (h : Piped l b r' (tr ++ r.sentSince r')) {r'' : Raft}
    (hrun : r'.maybeAdvanceCommitIndex = some r'') : Piped l b r'' (tr ++ r.sentSince r'') := by
  obtain ⟨i, rfl, -⟩ := Raft.maybeAdvanceCommitIndex_eq hrun
  exact h.congr rfl

/-- A round of `sendAppendEntries`, after changes that have nothing to do with it. -/
theorem broadcast_of {r₁ : Raft} {ctx : ℕ} (hrun : r₁.broadcast ctx = some r') (h : Piped l b r tr)
    (heq : r₁.pipe = r.pipe) (hmsgs : r₁.msgs = r.msgs) : Piped l b r' (tr ++ r.sentSince r') := by
  obtain ⟨r₂, hrun₂, -, hpiped⟩ := (h.congr heq).broadcast ctx
  rw [hrun] at hrun₂
  obtain rfl := Option.some.inj hrun₂
  rwa [Raft.sentSince, hmsgs] at hpiped

theorem tick (h : Piped l b r tr) (hrun : r.tick = some r') :
    Piped l b r' (tr ++ r.sentSince r') := by
  unfold Raft.tick at hrun
  rw [if_pos h.role] at hrun
  dsimp only at hrun
  split_ifs at hrun
  · exact broadcast_of hrun h rfl rfl
  · obtain rfl := Option.some.inj hrun
    exact h.quiet rfl rfl

theorem requestReadIndex (h : Piped l b r tr) {ctx : ℕ} {res : Except Error Unit}
    (hrun : r.requestReadIndex ctx = some (r', res)) : Piped l b r' (tr ++ r.sentSince r') := by
  unfold Raft.requestReadIndex at hrun
  rw [if_neg (not_not.mpr h.role)] at hrun
  dsimp only at hrun
  split_ifs at hrun
  · obtain ⟨rfl, -⟩ := Prod.mk.inj (Option.some.inj hrun)
    exact h.quiet rfl rfl
  · obtain ⟨r₁, h₁, hrun⟩ := Option.bind_eq_some_iff.mp hrun
    obtain ⟨rfl, -⟩ := Prod.mk.inj (Option.some.inj hrun)
    exact broadcast_of h₁ h rfl rfl

theorem createSnapshot (h : Piped l b r tr) {index : ℕ} {data : Bytes} {res : Except Error Unit}
    (hrun : r.createSnapshot index data = some (r', res)) :
    ∃ b', Piped l b' r' (tr ++ r.sentSince r') := by
  rcases h.spans.createSnapshot hrun with ⟨rfl, -⟩ | ⟨-, -, hle, heq⟩
  · exact ⟨b, h.quiet rfl rfl⟩
  · have hmsgs : r'.msgs = r.msgs := by rw [heq]
    refine ⟨index, ?_⟩
    rw [sentSince_of_eq hmsgs, List.append_nil, heq]
    exact { h with spans := ⟨rfl, hle, h.spans.indexed⟩ }

theorem proposeBatch (h : Piped l b r tr) {datas : List Bytes} {res : Except Error (List ℕ)}
    (hrun : r.proposeBatch datas = some (r', res)) :
    ∃ l', Piped l' b r' (tr ++ r.sentSince r') := by
  unfold Raft.proposeBatch at hrun
  obtain ⟨happ, hidx⟩ := h.spans.appendDatas datas
  rw [if_neg (not_not.mpr h.role)] at hrun
  simp only [happ, Option.bind_eq_bind, Option.bind_some] at hrun
  have hpos : ∀ e ∈ entriesFrom r.currentTerm l.length datas, 0 < e.term := fun e he => by
    rw [entriesFrom_term e he]
    exact h.term_pos
  have h₁ := h.grow hidx hpos
  obtain ⟨r₂, hrun₂, hrun⟩ := Option.bind_eq_some_iff.mp hrun
  have h₂ := broadcast_of hrun₂ h₁ rfl rfl
  refine ⟨l ++ entriesFrom r.currentTerm l.length datas, ?_⟩
  split_ifs at hrun
  · obtain ⟨r₃, hrun₃, hrun⟩ := Option.bind_eq_some_iff.mp hrun
    obtain ⟨rfl, -⟩ := Prod.mk.inj (Option.some.inj hrun)
    exact maybeAdvanceCommitIndex h₂ hrun₃
  · obtain ⟨rfl, -⟩ := Prod.mk.inj (Option.some.inj hrun)
    exact h₂

theorem becomeLeader (hs : Spans r l b) (hpos : ∀ e ∈ l, 0 < e.term) (hterm : 0 < r.currentTerm)
    (hrun : r.becomeLeader = some r') : Piped l b r' (r.sentSince r') := by
  simp only [Raft.becomeLeader, Raft.sendHeartbeats, hs.lastLogIndex, Option.bind_eq_bind,
    Option.bind_some] at hrun
  obtain ⟨r₁, hrun₁, hrun⟩ := Option.bind_eq_some_iff.mp hrun
  have h₀ : Piped l b (r.leading l.length) [] :=
    { role := rfl
      term_pos := hterm
      positive := hpos
      spans := hs.of_log_eq rfl
      bounds := fun p hp => by
        show 1 ≤ (if p ∈ r.peers then l.length + 1 else 0) ∧
          (if p ∈ r.peers then l.length + 1 else 0) ≤ _ ∧ 0 ≤ _
        rw [if_pos (show p ∈ r.peers from hp)]
        exact ⟨Nat.le_add_left 1 _, le_rfl, Nat.zero_le _⟩
      sent := fun m log hm => by simp at hm
      last := fun p _ m hm => by cases hm
      chained := fun before m log after heq => by simp at heq }
  have h₁ := broadcast_of hrun₁ h₀ rfl rfl
  rw [List.nil_append] at h₁
  split_ifs at hrun
  · obtain ⟨i, rfl, -⟩ := Raft.maybeAdvanceCommitIndex_eq hrun
    exact h₁.congr rfl
  · obtain rfl := Option.some.inj hrun
    exact h₁

/-- An answer to what the leader has sent, of its term or a lower one. -/
theorem handleAppendEntriesResponse {L : Leadership} (h : Piped l b L.node L.trace)
    (hterm : m.term ≤ L.node.currentTerm) (hans : L.Answers m)
    (hrun : L.node.handleAppendEntriesResponse m = some r') :
    Piped l b r' (L.trace ++ L.rejections (.step m) ++ L.node.sentSince r') := by
  obtain ⟨x, log, hx, hty, hto, hmatch⟩ := hans
  unfold Raft.handleAppendEntriesResponse at hrun
  rw [if_neg (not_lt.mpr hterm)] at hrun
  rw [Leadership.rejections]
  by_cases hlt : m.term < L.node.currentTerm
  · rw [if_pos (Or.inl hlt)] at hrun
    obtain rfl := Option.some.inj hrun
    rw [if_neg (fun hcond => hlt.ne hcond.1), List.append_nil]
    exact h.quiet rfl rfl
  rw [if_neg (not_or.mpr ⟨hlt, not_not.mpr h.role⟩)] at hrun
  have heq : m.term = L.node.currentTerm := le_antisymm hterm (not_lt.mp hlt)
  obtain ⟨hpipe, hmsgs⟩ :
      (if m.readContext ≠ 0 then L.node.ackReadIndex m.readContext m.fromId else L.node).pipe =
        L.node.pipe ∧
      (if m.readContext ≠ 0 then L.node.ackReadIndex m.readContext m.fromId else L.node).msgs =
        L.node.msgs := by
    split_ifs
    · rw [L.node.ackReadIndex_eq]
      exact ⟨rfl, rfl⟩
    · exact ⟨rfl, rfl⟩
  dsimp only at hrun
  generalize (if m.readContext ≠ 0 then L.node.ackReadIndex m.readContext m.fromId else L.node) =
    r₁ at hrun hpipe hmsgs
  have h₁ : Piped l b r₁ L.trace := h.congr hpipe
  by_cases hs : m.success = true
  · rw [if_neg (fun hcond => by rw [hs] at hcond; exact absurd hcond.2 nofun), List.append_nil]
    rw [if_pos hs] at hrun
    obtain ⟨i, hr', -⟩ := Raft.maybeAdvanceCommitIndex_eq hrun
    have hmsgs' : r'.msgs = L.node.msgs := by rw [hr']; exact hmsgs
    rw [sentSince_of_eq hmsgs', List.append_nil]
    refine h₁.acknowledged hx hty ?_
    rw [hr', hto, ← hmatch hs]
    rfl
  · rw [Bool.not_eq_true] at hs
    rw [if_pos ⟨heq, hs⟩]
    rw [if_neg (by rw [hs]; decide)] at hrun
    have hp : m.fromId ∈ r₁.peers := hto ▸ (h₁.sent x log hx hty).1
    have h₂ : Piped l b { r₁ with
        nextIndex :=
          if 1 < r₁.nextIndex m.fromId then
            Function.update r₁.nextIndex m.fromId (r₁.nextIndex m.fromId - 1)
          else r₁.nextIndex
        sentIndex :=
          Function.update r₁.sentIndex m.fromId 0 } (L.trace ++ [.rejected m.fromId]) := by
      refine h₁.rejected rfl (fun q hq => ?_) (fun q hq => Function.update_of_ne hq _ _) fun hp =>
        ?_
      · split_ifs
        · exact Function.update_of_ne hq _ _
        · rfl
      · obtain ⟨hpos, hnle, -⟩ := h₁.bounds _ hp
        dsimp only
        rw [Function.update_self]
        split_ifs
        · rw [Function.update_self]
          omega
        · exact ⟨hpos, hnle, Nat.zero_le _⟩
    obtain ⟨r₃, y, hrun₃, hmsgs₃, hlog₃, -, h₃⟩ := h₂.sendAppendEntries hp 0
    rw [hrun] at hrun₃
    obtain rfl := Option.some.inj hrun₃
    have hsent : L.node.sentSince r' = [.sent y r₁.log] := by
      rw [Raft.sentSince, hmsgs₃, hmsgs, List.drop_left, hlog₃]
      rfl
    rw [hsent]
    exact h₃

/-- **Every call of a leader keeps its bookkeeping.** -/
theorem call {L : Leadership} {op : Op} (h : Piped l b L.node L.trace)
    (hallows : L.Allows (.call op)) (hrun : op.run L.node = some r') :
    ∃ l' b', Piped l' b' r' (L.trace ++ L.rejections op ++ L.node.sentSince r') := by
  have hother : L.trace = L.trace ++ [] := (List.append_nil _).symm
  cases op with
  | tick => exact ⟨l, b, hother ▸ h.tick hrun⟩
  | step m =>
    obtain ⟨hty, hto, hterm, hans⟩ := hallows
    have hrun' : L.node.handleAppendEntriesResponse m = some r' := by
      simpa [Op.run, Raft.step, hto, hty] using hrun
    exact ⟨l, b, h.handleAppendEntriesResponse hterm hans hrun'⟩
  | propose datas =>
    obtain ⟨⟨r₁, res⟩, hrun', rfl⟩ := Option.map_eq_some_iff.mp hrun
    obtain ⟨l', h'⟩ := h.proposeBatch hrun'
    exact ⟨l', b, hother ▸ h'⟩
  | readIndex ctx =>
    obtain ⟨⟨r₁, res⟩, hrun', rfl⟩ := Option.map_eq_some_iff.mp hrun
    exact ⟨l, b, hother ▸ h.requestReadIndex hrun'⟩
  | createSnapshot index data =>
    obtain ⟨⟨r₁, res⟩, hrun', rfl⟩ := Option.map_eq_some_iff.mp hrun
    obtain ⟨b', h'⟩ := h.createSnapshot hrun'
    exact ⟨l, b', hother ▸ h'⟩

/-- A leadership keeps its bookkeeping. -/
theorem of_runs {L₀ L : Leadership} {as : List LeaderAction} (hs : Spans r l b)
    (hpos : ∀ e ∈ l, 0 < e.term) (hterm : 0 < r.currentTerm) (hstart : Leadership.start r = some L₀)
    (hallows : Along Leadership.step Leadership.Allows L₀ as)
    (hrun : exec Leadership.step L₀ as = some L) : ∃ l' b', Piped l' b' L.node L.trace := by
  refine exec_induct (I := fun L : Leadership => ∃ l' b', Piped l' b' L.node L.trace) ?_ ?_
    hallows hrun
  · rintro L a L' ⟨l', b', h⟩ ha hstep
    cases a with
    | call op =>
      obtain ⟨r', hcall, hstep⟩ := Option.bind_eq_some_iff.mp hstep
      obtain rfl := Option.some.inj hstep
      exact h.call ha hcall
    | advance =>
      obtain ⟨r', hcall, hstep⟩ := Option.bind_eq_some_iff.mp hstep
      obtain rfl := Option.some.inj hstep
      obtain ⟨last, -, hcall⟩ := Option.bind_eq_some_iff.mp hcall
      obtain rfl := Option.some.inj hcall
      exact ⟨l', b', h.congr rfl⟩
  · obtain ⟨r', hlead, hstart⟩ := Option.bind_eq_some_iff.mp hstart
    obtain rfl := Option.some.inj hstart
    exact ⟨l, b, becomeLeader hs hpos hterm hlead⟩

end Piped

/-! ## The follower -/

/-- The message is answered with success. -/
def Raft.Accepts (r : Raft) (m : Message) (r' : Raft) : Prop :=
  r.handleAppendEntries m = some r' ∧ ∃ x, r'.msgs = r.msgs ++ [x] ∧ x.success = true

/-- The entries of the message do not start at or below the boundary of the log, or there are none,
or the boundary is at index one and the first of them stands for it. -/
def Raft.StartsWithin (r : Raft) (m : Message) : Prop :=
  ∃ s, r.log.head? = some s ∧ (s.index ≤ m.prevLogIndex ∨ m.entries = [] ∨
    s.index = 1 ∧ m.entries.head?.map LogEntry.term = some s.term)

/-- A message of a lower term is turned down. -/
theorem Raft.Accepts.term_le (h : r.Accepts m r') : r.currentTerm ≤ m.term := by
  obtain ⟨hrun, x, hmsgs, hsuccess⟩ := h
  by_contra hlt
  rw [Raft.handleAppendEntries, if_pos (not_le.mp hlt)] at hrun
  obtain rfl := Option.some.inj hrun
  obtain rfl := List.head_eq_of_cons_eq (List.append_cancel_left hmsgs)
  cases hsuccess

theorem Spans.numbered (h : Spans r l b) : Numbered b r.log := by
  rw [h.log_eq]
  refine ⟨List.cons_ne_nil _ _, fun i hi => ?_⟩
  cases i with
  | zero => rfl
  | succ i =>
    have hdrop := h.indexed.drop b
    have hi' : i < (l.drop b).length := Nat.lt_of_succ_lt_succ hi
    rw [show (window l b)[i + 1] = (l.drop b)[i] from rfl, hdrop i hi']
    omega

namespace Fits

theorem indexedFrom (h : Fits l m) (hidx : Indexed l) : IndexedFrom m.prevLogIndex m.entries := by
  have hdrop := hidx.drop m.prevLogIndex
  rw [Nat.zero_add] at hdrop
  rw [h.entries]
  exact hdrop.of_isPrefix (List.take_prefix _ _)

theorem getElem? (h : Fits l m) {i : ℕ} (hi : i < m.entries.length) :
    m.entries[i]?.map LogEntry.term = some (termAt LogEntry.term l (m.prevLogIndex + i + 1)) := by
  have hle := h.le
  rw [h.entries, List.getElem?_take_of_lt hi, List.getElem?_drop,
    List.getElem?_eq_getElem (by omega), Option.map_some,
      termAt_eq_getElem LogEntry.term (by omega)]

/-- A message that starts at index zero starts at index one without its first entry. -/
theorem tail (h : Fits l m) (hprev : m.prevLogIndex = 0) {e : LogEntry} {es : List LogEntry}
    (hes : m.entries = e :: es) : Fits l
    { m with prevLogIndex := 1, prevLogTerm := e.term, entries := es } := by
  have hle := h.le
  rw [hes, hprev, List.length_cons] at hle
  have hl := h.entries
  rw [hes, hprev, List.drop_zero, List.length_cons] at hl
  refine ⟨by show 1 + es.length ≤ _; omega, ?_, ?_⟩
  · have hfirst := h.getElem? (i := 0) (by rw [hes]; simp)
    rw [hes, hprev] at hfirst
    exact Option.some.inj hfirst
  · show es = (l.drop 1).take es.length
    cases l with
    | nil => simp at hl
    | cons a l =>
      rw [List.take_succ_cons] at hl
      exact List.tail_eq_of_cons_eq hl

/-- Entries have terms above zero, so only index zero has term zero. -/
theorem prev_eq_zero (h : Fits l m) (hpos : ∀ e ∈ l, 0 < e.term) (hterm : m.prevLogTerm = 0) :
    m.prevLogIndex = 0 := by
  have hle := h.le
  by_contra hne
  obtain ⟨i, hi⟩ := Nat.exists_eq_succ_of_ne_zero hne
  rw [h.prevTerm, hi, Nat.succ_eq_add_one, termAt_eq_getElem LogEntry.term (by omega)] at hterm
  exact absurd hterm (hpos _ (List.getElem_mem _)).ne'

end Fits

namespace Numbered

variable {f f₁ f₂ : Raft}

/-- A message that starts within the log is accepted if the log has its term there. -/
theorem accepts (h : Numbered b f.log) (hb : b ≤ m.prevLogIndex) (hterm : f.currentTerm ≤ m.term)
    (hes : IndexedFrom m.prevLogIndex m.entries)
    (hprev : f.log[m.prevLogIndex - b]?.map LogEntry.term = some m.prevLogTerm) :
    ∃ f₁, f.Accepts m f₁ := by
  obtain ⟨f₁, x, hrun, hmsgs, -, hcases⟩ :=
    h.handleAppendEntries (k := m.prevLogIndex - b) hterm (by omega) hes
  rw [if_pos hprev] at hcases
  exact ⟨f₁, hrun, x, hmsgs, hcases.1⟩

/-- After a message that starts within the log, the log has the leader's term at its end. -/
theorem accepted (h : Numbered b f.log) (hb : b ≤ m.prevLogIndex) (hfits : Fits l m)
    (hidx : Indexed l) (hacc : f.Accepts m f₁) : Numbered b f₁.log ∧ f₁.currentTerm = m.term ∧
      f₁.log[m.prevLogIndex + m.entries.length - b]?.map LogEntry.term =
        some (Consensus.termAt LogEntry.term l (m.prevLogIndex + m.entries.length)) := by
  have hes := hfits.indexedFrom hidx
  have hterm : f.currentTerm ≤ m.term := hacc.term_le
  obtain ⟨hrun, x, hmsgs, hsuccess⟩ := hacc
  obtain ⟨k, hk⟩ := Nat.exists_eq_add_of_le hb
  obtain ⟨f', y, hrun', hmsgs', hterm', hcases⟩ := h.handleAppendEntries hterm hk hes
  rw [hrun] at hrun'
  obtain rfl := Option.some.inj hrun'
  obtain rfl : x = y := by simpa [hmsgs] using hmsgs'
  split_ifs at hcases with hmatch
  · rw [hk] at hes
    have hlt : k < f.log.length := by
      obtain ⟨e, he, -⟩ := Option.map_eq_some_iff.mp hmatch
      exact (List.getElem?_eq_some_iff.mp he).1
    refine ⟨hcases.2 ▸ h.overwrite hlt hes, hterm', ?_⟩
    rw [show m.prevLogIndex + m.entries.length - b = k + m.entries.length by omega]
    cases hlen : m.entries.length with
    | zero =>
      rw [hcases.2, List.eq_nil_of_length_eq_zero hlen, overwrite_nil, List.take_append_drop,
        Nat.add_zero, Nat.add_zero, hmatch, hfits.prevTerm]
    | succ n =>
      have hn : n < m.entries.length := by omega
      obtain ⟨z, hz, -, hzterm, -⟩ := (h.merges hlt hes).covered n _ (List.getElem?_eq_getElem hn)
      have hterm_n := hfits.getElem? hn
      rw [List.getElem?_eq_getElem hn, Option.map_some, ← hzterm] at hterm_n
      rw [hcases.2, show k + (n + 1) = k + 1 + n by omega, hz, Option.map_some, hterm_n]
      rfl
  · rw [hcases.1] at hsuccess
    cases hsuccess

end Numbered

namespace Spans

variable {f f₁ : Raft}

/-- What is before the boundary has term zero for the follower. -/
theorem prevTerm_eq_zero (h : Spans f l b) (hlt : m.prevLogIndex < b) (hacc : f.Accepts m f₁) :
    m.prevLogTerm = 0 := by
  have hterm := hacc.term_le
  obtain ⟨hrun, x, hmsgs, hsuccess⟩ := hacc
  have h₁ : Spans { f.becomeFollower m.term with leaderID := m.fromId } l b :=
    (h.becomeFollower m.term).of_log_eq rfl
  rw [Raft.handleAppendEntries, if_neg (not_lt.mpr hterm)] at hrun
  simp only [h₁.lastLogIndex, h₁.termAt_of_lt (Or.inl hlt), Option.bind_eq_bind, Option.bind_some,
    pure] at hrun
  by_contra hne
  rw [if_pos (Or.inr (Ne.symm hne))] at hrun
  obtain rfl := Option.some.inj hrun
  have hmsgs₁ : (f.becomeFollower m.term).msgs = f.msgs := by
    rw [Raft.becomeFollower_eq hterm]
    rfl
  have hx := List.append_cancel_left ((congrArg (· ++ [_]) hmsgs₁).symm.trans hmsgs)
  obtain rfl := List.head_eq_of_cons_eq hx
  cases hsuccess

/-- Without entries, and from index zero on, a message is accepted, and the log stays. -/
theorem accepts_nil (h : Spans f l b) (hterm : f.currentTerm ≤ m.term) (hprev : m.prevLogIndex = 0)
    (hprevTerm : m.prevLogTerm = 0) (hes : m.entries = []) :
    ∃ f₁, f.Accepts m f₁ ∧ f₁.log = f.log ∧ f₁.currentTerm = m.term := by
  have h₁ : Spans { f.becomeFollower m.term with leaderID := m.fromId } l b :=
    (h.becomeFollower m.term).of_log_eq rfl
  have ht : ({ f.becomeFollower m.term with leaderID := m.fromId } : Raft).termAt 0 = some 0 := by
    rcases Nat.eq_zero_or_pos b with rfl | hb
    · exact h₁.termAt_of_le le_rfl (Nat.zero_le _)
    · exact h₁.termAt_of_lt (Or.inl hb)
  have hzero : ¬(l.length < 0 ∨ (0 : ℕ) ≠ 0) := by simp
  obtain ⟨hmsgs, hlog⟩ : (f.becomeFollower m.term).msgs = f.msgs ∧
      (f.becomeFollower m.term).log = f.log := by
    rw [Raft.becomeFollower_eq hterm]
    exact ⟨rfl, rfl⟩
  simp only [Raft.Accepts, Raft.handleAppendEntries, if_neg (not_lt.mpr hterm), h₁.lastLogIndex,
    hprev, hprevTerm, ht, Option.bind_eq_bind, Option.bind_some, if_neg hzero, hes,
      Raft.mergeEntries, pure]
  exact ⟨_, ⟨rfl, _, congrArg (· ++ [_]) hmsgs, rfl⟩, hlog, Raft.becomeFollower_term hterm⟩

/-- Entries from index one on, at a node whose boundary is above zero. -/
theorem handleAppendEntries_below (h : Spans f l b) (hb : 0 < b) (hterm : f.currentTerm ≤ m.term)
    (hprev : m.prevLogIndex = 0) (hprevTerm : m.prevLogTerm = 0) {e : LogEntry} {es : List LogEntry}
    (hes : m.entries = e :: es) (he : 0 < e.term) : f.handleAppendEntries m =
      if b = 1 ∧ Consensus.termAt LogEntry.term l 1 = e.term then
        f.handleAppendEntries { m with prevLogIndex := 1, prevLogTerm := e.term, entries := es }
      else none := by
  have h₁ : Spans { f.becomeFollower m.term with leaderID := m.fromId } l b :=
    (h.becomeFollower m.term).of_log_eq rfl
  have hle := h.le
  have hzero : ¬(l.length < 0 ∨ (0 : ℕ) ≠ 0) := by simp
  have hone : ¬(l.length < 1 ∨ e.term ≠ e.term) := by
    rintro (hlt | hne)
    · omega
    · exact hne rfl
  simp only [Raft.handleAppendEntries, if_neg (not_lt.mpr hterm), h₁.lastLogIndex, hprev, hprevTerm,
    h₁.termAt_of_lt (Or.inl hb), Option.bind_eq_bind, Option.bind_some, if_neg hzero, hes,
      Nat.zero_add,
    h₁.mergeEntries_below hb he]
  split_ifs with hcond
  · have ht := h₁.termAt_of_le (i := 1) hcond.1.le (by omega)
    rw [hcond.2] at ht
    simp only [ht, Option.bind_some, if_neg hone, List.length_cons, Nat.add_comm 1]
  · rfl

end Spans

section Next

variable {m' : Message} {f f₁ f₂ : Raft} {L : List LogEntry}

theorem Fits.term_pos {e : LogEntry} {es : List LogEntry} (h : Fits L m)
    (hpos : ∀ e ∈ L, 0 < e.term) (hes : m.entries = e :: es) : 0 < e.term := by
  have hmem : e ∈ (L.drop m.prevLogIndex).take m.entries.length := by
    rw [← h.entries, hes]
    exact List.mem_cons_self
  exact hpos e (List.mem_of_mem_drop (List.mem_of_mem_take hmem))

/-- A message that goes on from one that started within the log is accepted. -/
theorem Numbered.accepts_next (h : Numbered b f.log) (hb : b ≤ m.prevLogIndex) (hidx : Indexed L)
    (hfits : Fits L m) (hfits' : Fits L m')
    (hnext : m'.prevLogIndex = m.prevLogIndex + m.entries.length) (hterm : m'.term = m.term)
    (hacc : f.Accepts m f₁) (hlog : f₂.log = f₁.log) (hterm₂ : f₂.currentTerm = f₁.currentTerm) :
    (∃ f₃, f₂.Accepts m' f₃) ∧ f₂.StartsWithin m' := by
  obtain ⟨hnum, hterm₁, hend⟩ := h.accepted hb hfits hidx hacc
  have hnum₂ : Numbered b f₂.log := hlog ▸ hnum
  have hb' : b ≤ m'.prevLogIndex := by omega
  constructor
  · refine hnum₂.accepts hb' (by rw [hterm₂, hterm₁, hterm]) (hfits'.indexedFrom hidx) ?_
    rw [hlog, hfits'.prevTerm, hnext, hend]
  · obtain ⟨s, hs, hindex⟩ := Option.map_eq_some_iff.mp hnum₂.firstIndex
    exact ⟨s, hs, Or.inl (hindex ▸ hb')⟩

/-- Entries from index one on, at a node whose boundary is above zero, are accepted exactly if they
start within the log. -/
theorem Spans.accepts_below_iff (hs : Spans f l b) (hb : 0 < b) (hidx : Indexed L)
    (hpos : ∀ e ∈ L, 0 < e.term) (hfits : Fits L m) (hterm : f.currentTerm ≤ m.term)
    (hprev : m.prevLogIndex = 0) : (∃ f₁, f.Accepts m f₁) ↔ f.StartsWithin m := by
  have hprevTerm : m.prevLogTerm = 0 := by rw [hfits.prevTerm, hprev, termAt_zero]
  cases hes : m.entries with
  | nil =>
    obtain ⟨f₁, hacc, -⟩ := hs.accepts_nil hterm hprev hprevTerm hes
    exact iff_of_true ⟨f₁, hacc⟩ ⟨_, hs.head?, Or.inr (Or.inl hes)⟩
  | cons e es =>
    have he := hfits.term_pos hpos hes
    have hbelow := hs.handleAppendEntries_below hb hterm hprev hprevTerm hes he
    constructor
    · rintro ⟨f₁, hrun, -⟩
      rw [hbelow] at hrun
      split_ifs at hrun with hcond
      obtain ⟨rfl, ht⟩ := hcond
      refine ⟨_, hs.head?, Or.inr (Or.inr ⟨rfl, ?_⟩)⟩
      rw [hes, List.head?_cons, Option.map_some, ← ht]
      rfl
    · rintro ⟨s, hhead, hcases⟩
      rw [hs.head?] at hhead
      obtain rfl := Option.some.inj hhead
      rcases hcases with hle | hnil | ⟨hone, hhead⟩
      · have : b ≤ 0 := hprev ▸ hle
        omega
      · rw [hes] at hnil
        cases hnil
      · obtain rfl : b = 1 := hone
        rw [hes, List.head?_cons, Option.map_some] at hhead
        have ht : Consensus.termAt LogEntry.term l 1 = e.term := (Option.some.inj hhead).symm
        rw [if_pos ⟨rfl, ht⟩] at hbelow
        have hindex := (hfits.tail hprev hes).indexedFrom hidx
        have hboundary : f.log[1 - 1]?.map LogEntry.term = some e.term := by
          rw [hs.log_eq, ← ht]
          rfl
        obtain ⟨f₁, hrun, hanswer⟩ := Numbered.accepts
          (m := { m with prevLogIndex := 1, prevLogTerm := e.term, entries := es }) hs.numbered
            le_rfl hterm hindex
          hboundary
        exact ⟨f₁, hbelow.trans hrun, hanswer⟩

/-- **A follower that has accepted a message accepts the one that goes on from it** exactly if its
entries start within the log. -/
theorem Spans.accepts_next_iff (hs : Spans f l b) (hidx : Indexed L) (hpos : ∀ e ∈ L, 0 < e.term)
    (hfits : Fits L m) (hfits' : Fits L m')
    (hnext : m'.prevLogIndex = m.prevLogIndex + m.entries.length) (hterm : m'.term = m.term)
    (hacc : f.Accepts m f₁) (hlog : f₂.log = f₁.log) (hterm₂ : f₂.currentTerm = f₁.currentTerm) :
    (∃ f₃, f₂.Accepts m' f₃) ↔ f₂.StartsWithin m' := by
  by_cases hb : b ≤ m.prevLogIndex
  · obtain ⟨haccepts, hstarts⟩ :=
      hs.numbered.accepts_next hb hidx hfits hfits' hnext hterm hacc hlog hterm₂
    exact iff_of_true haccepts hstarts
  -- a message from below the boundary is accepted only from index zero on
  have hprevTerm := hs.prevTerm_eq_zero (not_le.mp hb) hacc
  have hprev := hfits.prev_eq_zero hpos hprevTerm
  have hb₀ : 0 < b := by omega
  cases hes : m.entries with
  | nil =>
    obtain ⟨f', hacc', hlog', hterm'⟩ := hs.accepts_nil hacc.term_le hprev hprevTerm hes
    obtain rfl : f' = f₁ := Option.some.inj (hacc'.1.symm.trans hacc.1)
    have hs₂ : Spans f₂ l b := hs.of_log_eq (hlog.trans hlog')
    refine hs₂.accepts_below_iff hb₀ hidx hpos hfits' (by rw [hterm₂, hterm', hterm]) ?_
    rw [hnext, hprev, hes, List.length_nil]
  | cons e es =>
    have he := hfits.term_pos hpos hes
    have hrun := hacc.1
    rw [hs.handleAppendEntries_below hb₀ hacc.term_le hprev hprevTerm hes he] at hrun
    split_ifs at hrun with hcond
    obtain ⟨rfl, ht⟩ := hcond
    have hnext' : m'.prevLogIndex = 1 + es.length := by
      rw [hnext, hprev, hes, List.length_cons]
      omega
    obtain ⟨haccepts, hstarts⟩ :=
      hs.numbered.accepts_next le_rfl hidx (hfits.tail hprev hes) hfits' hnext' hterm ⟨hrun, hacc.2⟩
        hlog hterm₂
    exact iff_of_true haccepts hstarts

end Next

/-- **Pipelined replication sends every entry once, without gaps.** In every leadership, of two
`AppendEntries` to a peer with no rejection from it and nothing to it in between, the second starts
where the first ended and is the leader's log after that. A follower that has accepted the first,
and whose log and term are as they were then, accepts the second exactly if its entries start within
the log. -/
theorem pipelined_replication {L₀ L : Leadership} {as : List LeaderAction} (hs : Spans r l b)
    (hpos : ∀ e ∈ l, 0 < e.term) (hterm : 0 < r.currentTerm) (hstart : Leadership.start r = some L₀)
    (hallows : Along Leadership.step Leadership.Allows L₀ as)
    (hrun : exec Leadership.step L₀ as = some L) {before between after : List LeaderEvent}
    {m m' : Message} {log log' : List LogEntry} (htrace : L.trace =
    before ++ .sent m log :: between ++ .sent m' log' :: after) (hty : m.type = .appendEntries)
    (hty' : m'.type = .appendEntries) (hto : m.toId = p) (hto' : m'.toId = p)
    (hbetween : ∀ e ∈ between, ¬e.Concerns p) :
    m'.prevLogIndex = m.prevLogIndex + m.entries.length ∧ Completes log' m' ∧ ∀ (f f₁ f₂ : Raft) lf
      bf, Spans f lf bf → f.Accepts m f₁ → f₂.log = f₁.log → f₂.currentTerm = f₁.currentTerm →
    ((∃ f₃, f₂.Accepts m' f₃) ↔ f₂.StartsWithin m') := by
  obtain ⟨l', b', h⟩ := Piped.of_runs hs hpos hterm hstart hallows hrun
  obtain ⟨hcompletes, hchain⟩ := h.chained _ m' log' after htrace hty'
  have hlast : lastAppend p (before ++ .sent m log :: between) = some m :=
    lastAppend_between hty hto hbetween
  have hnext := hchain m (hto' ▸ hlast)
  refine ⟨hnext, hcompletes, fun f f₁ f₂ lf bf hf hacc hlog hterm₂ => ?_⟩
  have hm : LeaderEvent.sent m log ∈ L.trace := by rw [htrace]; simp
  have hm' : LeaderEvent.sent m' log' ∈ L.trace := by rw [htrace]; simp
  obtain ⟨-, hmterm, hfits⟩ := h.sent m log hm hty
  obtain ⟨-, hmterm', hfits'⟩ := h.sent m' log' hm' hty'
  exact hf.accepts_next_iff h.spans.indexed h.positive hfits hfits' hnext
    (hmterm'.trans hmterm.symm) hacc hlog hterm₂

/-- Node one of three becomes leader in term one, and proposes before it hears of anyone: its first
message to node two has no entries, its second the first entry. -/
def firstEntry : List LeaderAction := [.call (.propose [[7]])]

/-- The first two messages of node one to node two. -/
def firstMessages : Message × Message :=
  ({ type := .appendEntries, fromId := 1, toId := 2, term := 1 },
    { type := .appendEntries, fromId := 1, toId := 2, term := 1, entries := [⟨1, 1, [7]⟩] })

/-- The leadership of node one, with its first two messages to node two. -/
theorem firstEntry_trace : ∃ c₀ L₀ L log log' between after,
    Cluster.Runs .three ((electBy 1 2 0 1 0 0 0).take 5) c₀ ∧ Spans (c₀.nodes 1).r [] 0 ∧
    0 < (c₀.nodes 1).r.currentTerm ∧ Leadership.start (c₀.nodes 1).r = some L₀ ∧
    exec Leadership.step L₀ firstEntry = some L ∧
    L.trace = [] ++ .sent firstMessages.1 log :: between ++ .sent firstMessages.2 log' :: after ∧
    ∀ e ∈ between, ¬e.Concerns 2 := by
  have hrun :
    ((exec (Cluster.step .three) (Cluster.init .three) ((electBy 1 2 0 1 0 0 0).take 5)).bind
      fun c₀ =>
      (Leadership.start (c₀.nodes 1).r).bind fun L₀ =>
        (exec Leadership.step L₀ firstEntry).map fun L =>
        decide ((c₀.nodes 1).r.log = window [] 0 ∧ 0 < (c₀.nodes 1).r.currentTerm ∧
          L.trace = [] ++ .sent firstMessages.1 L₀.node.log ::
            [.sent { firstMessages.1 with toId := 3 } L₀.node.log] ++ .sent firstMessages.2
              L.node.log :: [.sent { firstMessages.2 with toId := 3 } L.node.log])) =
      some true := by
    decide +kernel
  obtain ⟨c₀, h, hrun⟩ := Option.bind_eq_some_iff.mp hrun
  obtain ⟨L₀, hstart, hrun⟩ := Option.bind_eq_some_iff.mp hrun
  obtain ⟨L, hL, hrun⟩ := Option.map_eq_some_iff.mp hrun
  obtain ⟨hlog, hterm, htrace⟩ := of_decide_eq_true hrun
  refine ⟨c₀, L₀, L, _, _, _, _, h, ⟨hlog, le_rfl, nofun⟩, hterm, hstart, hL, htrace, ?_⟩
  intro e he
  obtain rfl := List.mem_singleton.mp he
  exact (by decide : (3 : ℕ) ≠ 2)

theorem firstEntry_allowed (L₀ : Leadership) :
    Along Leadership.step Leadership.Allows L₀ firstEntry :=
  ⟨trivial, by split <;> trivial⟩

/-- Node two, which has just elected node one, accepts the first and then the second. -/
theorem pipelined_replication_three : ∃ c₀ c L₀ L log log' between after f₁ f₃,
    Cluster.Runs .three ((electBy 1 2 0 1 0 0 0).take 5) c₀ ∧
    Leadership.start (c₀.nodes 1).r = some L₀ ∧ exec Leadership.step L₀ firstEntry = some L ∧
    L.trace = [] ++ .sent firstMessages.1 log :: between ++ .sent firstMessages.2 log' :: after ∧
    Completes log' firstMessages.2 ∧ Cluster.Runs .three (electBy 1 2 0 1 0 0 0) c ∧
    (c.nodes 2).r.Accepts firstMessages.1 f₁ ∧ f₁.Accepts firstMessages.2 f₃ := by
  obtain ⟨c₀, L₀, L, log, log', between, after, hc₀, hs, hterm, hstart, hrun, htrace, hbetween⟩ :=
    firstEntry_trace
  obtain ⟨-, hcompletes, hnext⟩ :=
    pipelined_replication hs nofun hterm hstart (firstEntry_allowed L₀) hrun htrace rfl rfl rfl
      rfl hbetween
  have hfollower :
    ((exec (Cluster.step .three) (Cluster.init .three) (electBy 1 2 0 1 0 0 0)).bind fun c =>
      ((c.nodes 2).r.handleAppendEntries firstMessages.1).bind fun f₁ =>
        f₁.msgs.getLast?.map fun x =>
        decide ((c.nodes 2).r.log = window [] 0 ∧ f₁.msgs = (c.nodes 2).r.msgs ++ [x] ∧
          x.success = true ∧ f₁.log.head?.map LogEntry.index = some 0)) = some true := by
    decide +kernel
  obtain ⟨c, hc, hfollower⟩ := Option.bind_eq_some_iff.mp hfollower
  obtain ⟨f₁, hf₁, hfollower⟩ := Option.bind_eq_some_iff.mp hfollower
  obtain ⟨x, -, hfollower⟩ := Option.map_eq_some_iff.mp hfollower
  obtain ⟨hlog, hmsgs, hsuccess, hhead⟩ := of_decide_eq_true hfollower
  obtain ⟨sentinel, hhead, hindex⟩ := Option.map_eq_some_iff.mp hhead
  have hacc : (c.nodes 2).r.Accepts firstMessages.1 f₁ := ⟨hf₁, x, hmsgs, hsuccess⟩
  obtain ⟨f₃, hf₃⟩ := (hnext (c.nodes 2).r f₁ f₁ [] 0 ⟨hlog, le_rfl, nofun⟩ hacc rfl rfl).mpr
    ⟨sentinel, hhead, Or.inl hindex.le⟩
  exact ⟨c₀, c, L₀, L, log, log', between, after, f₁, f₃, hc₀, hstart, hrun, htrace, hcompletes, hc,
    hacc, hf₃⟩

/-- Node two gets the first messages of node one late: first the one with entry two, which it turns
down, then both entries, which it acknowledges. It learns that they are committed and compacts them
away. -/
def lateMessages : List Action :=
  electBy 1 2 0 1 0 0 0 ++
  [.run 1 (.propose [[7]]) none, .run 1 (.propose [[8]]) none,
    .run 2
                    (.step
                      { type := .appendEntries, fromId := 1, toId := 2, term := 1,
                        prevLogIndex := 1, prevLogTerm := 1, entries := [⟨1, 2, [8]⟩] }) none,
    .run 1 (.step { type := .appendEntriesResponse, fromId := 2, toId := 1, term := 1 }) none,
    .run 2 (.step { type := .appendEntries, fromId := 1, toId := 2, term := 1,
                    entries := [⟨1, 1, [7]⟩, ⟨1, 2, [8]⟩] }) none,
    .run 1
                    (.step
                      { type := .appendEntriesResponse, fromId := 2, toId := 1, term := 1,
                        success := true, matchIndex := 2 }) none,
    .run 1 .tick none,
    .run 2
                    (.step
                      { type := .appendEntries, fromId := 1, toId := 2, term := 1,
                        prevLogIndex := 2, prevLogTerm := 1, leaderCommit := 2 }) none,
    .run 2 (.createSnapshot 2 [9]) none]

/-- **The first two messages at a node that has compacted.** Node two accepts the first, and the
second makes it slice its log at a negative position. -/
theorem pipelined_below_boundary : ∃ c₀ c L₀ L log log' between after f₁,
    Cluster.Runs .three ((electBy 1 2 0 1 0 0 0).take 5) c₀ ∧
    Leadership.start (c₀.nodes 1).r = some L₀ ∧ exec Leadership.step L₀ firstEntry = some L ∧
    Along Leadership.step Leadership.Allows L₀ firstEntry ∧
    L.trace = [] ++ .sent firstMessages.1 log :: between ++ .sent firstMessages.2 log' :: after ∧
    (∀ e ∈ between, ¬e.Concerns 2) ∧ Cluster.Runs .three lateMessages c ∧ firstMessages.1 ∈ c.net ∧
    firstMessages.2 ∈ c.net ∧ (c.nodes 2).r.Accepts firstMessages.1 f₁ ∧
      f₁.handleAppendEntries firstMessages.2 = none := by
  obtain ⟨c₀, L₀, L, log, log', between, after, hc₀, -, -, hstart, hrun, htrace, hbetween⟩ :=
    firstEntry_trace
  have hfollower : ((exec (Cluster.step .three) (Cluster.init .three) lateMessages).bind fun c =>
      ((c.nodes 2).r.handleAppendEntries firstMessages.1).bind fun f₁ =>
        f₁.msgs.getLast?.map fun x =>
        decide (firstMessages.1 ∈ c.net ∧ firstMessages.2 ∈ c.net ∧
          f₁.msgs = (c.nodes 2).r.msgs ++ [x] ∧ x.success = true ∧
            (f₁.handleAppendEntries firstMessages.2).isNone)) = some true := by
    decide +kernel
  obtain ⟨c, hc, hfollower⟩ := Option.bind_eq_some_iff.mp hfollower
  obtain ⟨f₁, hf₁, hfollower⟩ := Option.bind_eq_some_iff.mp hfollower
  obtain ⟨x, -, hfollower⟩ := Option.map_eq_some_iff.mp hfollower
  obtain ⟨hnet, hnet', hmsgs, hsuccess, hnone⟩ := of_decide_eq_true hfollower
  exact ⟨c₀, c, L₀, L, log, log', between, after, f₁, hc₀, hstart, hrun, firstEntry_allowed L₀,
    htrace, hbetween, hc, hnet, hnet', ⟨hf₁, x, hmsgs, hsuccess⟩,
      Option.isNone_iff_eq_none.mp hnone⟩

end KvStore
