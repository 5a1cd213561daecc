import KvStore.Raft.Outcome

/-!
# Roles, terms and reads

What a call does to a node's role, its term and its outstanding reads, whatever its log is.

* `Turn op r r'` lists the outcomes. A node becomes leader only as a candidate of the term it is
  already in, unless it is alone; a read is only answered by `RequestReadIndex` or by an
  acknowledgement of the node's own term.
  A message with a read context is a request that `RequestReadIndex` sends, or the answer to one.
* `Op.run_turn`: every call has one of them.
-/

namespace KvStore

variable {r r' : Raft} {m : Message}

/-! ## The outcomes of a call -/

/-- Everything sent since `r` was sent for no read. -/
def Unrelated (r r' : Raft) : Prop := ∀ m ∈ r'.msgs, m ∈ r.msgs ∨ m.readContext = 0

/-- The reads are left alone, and nothing is sent for one. -/
structure Silent (r r' : Raft) : Prop where
  pendingReads : r'.pendingReads = r.pendingReads
  readStates : r'.readStates = r.readStates
  msgs : Unrelated r r'

/-- The answer of a node to the request `m`, as far as a read goes. -/
structure Echoes (r : Raft) (m x : Message) : Prop where
  type : x.type = .appendEntriesResponse
  context : x.readContext = m.readContext
  src : x.fromId = r.id
  dst : x.toId = m.fromId
  term : x.term = m.term

/-- What a call can do to the role, the term and the reads. -/
inductive Turn : Op → Raft → Raft → Prop
  | kept {op : Op} {r r' : Raft} (role : r'.role = r.role) (term : r'.currentTerm = r.currentTerm)
      (silent : Silent r r') : Turn op r r'
  | down {op : Op} {r r' : Raft} (role : r'.role ≠ .leader) (term : r.currentTerm ≤ r'.currentTerm)
      (silent : Silent r r') : Turn op r r'
  | elected {op : Op} {r r' : Raft} (role : r'.role = .leader)
      (race : r.peers = [] ∨ r.role = .candidate ∧ r'.currentTerm = r.currentTerm)
      (term : r.currentTerm ≤ r'.currentTerm) (pendingReads : r'.pendingReads = fun _ => none)
      (readStates : r'.readStates = r.readStates) (msgs : Unrelated r r') : Turn op r r'
  | echoed {m : Message} {r r' : Raft} (type : m.type = .appendEntries) (dst : m.toId = r.id)
      (le : r.currentTerm ≤ m.term) (term : r'.currentTerm = m.term) (role : r'.role = .follower)
      (pendingReads : r'.pendingReads = r.pendingReads) (readStates : r'.readStates = r.readStates)
      (msgs : ∀ x ∈ r'.msgs, x ∈ r.msgs ∨ Echoes r m x) : Turn (.step m) r r'
  | asked {ctx : ℕ} {r r' : Raft} (role : r.role = .leader) (role' : r'.role = .leader)
      (term : r'.currentTerm = r.currentTerm)
      (pendingReads :
        r'.pendingReads = Function.update r.pendingReads ctx (some ⟨r.commitIndex, {r.id}⟩))
      (readStates : r'.readStates = r.readStates)
      (msgs : ∀ x ∈ r'.msgs, x ∈ r.msgs ∨ r.Replicates ctx x) : Turn (.readIndex ctx) r r'
  | answered {ctx : ℕ} {r r' : Raft} (role : r.role = .leader) (alone : r.hasMajorityCount 1)
      (eq : r' = { r with
        readStates := r.readStates ++ [⟨r.commitIndex, ctx⟩]
        pendingReads := Function.update r.pendingReads ctx none }) : Turn (.readIndex ctx) r r'
  | acked {m : Message} {r r' : Raft} (type : m.type = .appendEntriesResponse)
      (context : m.readContext ≠ 0) (dst : m.toId = r.id) (term : m.term = r.currentTerm)
      (role : r.role = .leader) (role' : r'.role = .leader) (term' : r'.currentTerm = r.currentTerm)
      (silent : Silent (r.ackReadIndex m.readContext m.fromId) r') : Turn (.step m) r r'

theorem Unrelated.refl (r : Raft) : Unrelated r r := fun _ hm => Or.inl hm

theorem Unrelated.of_append (ms : List Message) (heq : r'.msgs = r.msgs ++ ms)
    (h : ∀ m ∈ ms, m.readContext = 0) : Unrelated r r' := by
  intro m hm
  rw [heq] at hm
  exact (List.mem_append.mp hm).imp_right (h m)

/-- An answer without a context. -/
theorem Unrelated.of_send (heq : r'.msgs = r.msgs ++ [m]) (h : m.readContext = 0) :
    Unrelated r r' :=
  .of_append [m] heq fun x hx => by rw [List.mem_singleton.mp hx]; exact h

/-- A round outside a read. -/
theorem Unrelated.of_round {r₀ : Raft} {P : Message → Prop} {ms : List Message}
    (h : ∀ m ∈ ms, r₀.Replicates 0 m ∧ P m) (heq : r'.msgs = r.msgs ++ ms) : Unrelated r r' :=
  .of_append ms heq fun x hx => (h x hx).1.2.2.elim And.right And.right

theorem Silent.refl (r : Raft) : Silent r r := ⟨rfl, rfl, Unrelated.refl r⟩

theorem Silent.createSnapshot {index : ℕ} {data : Bytes} {res : Except Error Unit}
    (h : r.createSnapshot index data = some (r', res)) :
    Silent r r' ∧ r'.role = r.role ∧ r'.currentTerm = r.currentTerm := by
  rcases Raft.createSnapshot_eq h with ⟨rfl, -⟩ | ⟨-, log, u, snap, rfl⟩
  · exact ⟨Silent.refl _, rfl, rfl⟩
  · exact ⟨⟨rfl, rfl, Unrelated.refl _⟩, rfl, rfl⟩

/-! ## Every call -/

namespace Turn

/-- A vote is answered in the node's term or in the request's. -/
theorem of_meets {op : Op} {r₁ : Raft} (h : r.Meets m r₁) (hrole : r'.role = r₁.role)
    (hterm : r'.currentTerm = r₁.currentTerm) (hs : Silent r₁ r') : Turn op r r' := by
  rcases h with rfl | ⟨hlt, rfl⟩
  · exact .kept hrole hterm hs
  · refine .down ?_ (hterm ▸ hlt.le) ⟨hs.pendingReads, hs.readStates, hs.msgs⟩
    rw [hrole]
    intro h
    cases h

/-- An answer of the leader's term may acknowledge a read. -/
theorem of_hears {r₁ : Raft} (hty : m.type = .appendEntriesResponse) (hto : m.toId = r.id)
    (hl : r.role = .leader) (hterm : m.term = r.currentTerm) (h : r.Hears m r₁)
    (hrole : r'.role = r₁.role) (hterm' : r'.currentTerm = r₁.currentTerm) (hs : Silent r₁ r') :
    Turn (.step m) r r' := by
  rcases h with ⟨-, rfl⟩ | ⟨hctx, rfl⟩
  · exact .kept hrole hterm' hs
  · rw [r.ackReadIndex_eq] at hrole hterm'
    exact .acked hty hctx hto hterm hl (hrole.trans hl) hterm' hs

/-- An `AppendEntries` of the node's term or a later one is answered with its context. -/
theorem of_send (hty : m.type = .appendEntries) (hto : m.toId = r.id) (hle : r.currentTerm ≤ m.term)
    {x : Message} (hterm : r'.currentTerm = m.term) (hrole : r'.role = .follower)
    (hreads : r'.pendingReads = r.pendingReads) (hstates : r'.readStates = r.readStates)
    (hmsgs : r'.msgs = r.msgs ++ [x]) (hx : Echoes r m x) : Turn (.step m) r r' := by
  refine .echoed hty hto hle hterm hrole hreads hstates fun y hy => ?_
  rw [hmsgs] at hy
  rcases List.mem_append.mp hy with hy | hy
  · exact Or.inl hy
  · rw [List.mem_singleton.mp hy]
    exact Or.inr hx

end Turn

/-- **Every call has one of the outcomes.** -/
theorem Op.run_turn {op : Op} (h : op.run r = some r') : Turn op r r' := by
  cases Op.run_outcome h with
  | idle => exact .kept rfl rfl (Silent.refl r)
  | waited | ticked | counted | tallied => exact .kept rfl rfl ⟨rfl, rfl, Unrelated.refl _⟩
  | beat _ round =>
    obtain ⟨ms, f, i, rfl, -, -, hms⟩ := round.eq
    exact .kept rfl rfl ⟨rfl, rfl, .of_round hms rfl⟩
  | polled _ _ asks =>
    obtain ⟨ms, rfl, hms⟩ := asks
    exact .down (fun h => by cases h) le_rfl
      ⟨rfl, rfl, .of_append ms rfl fun x hx => (hms x hx).2.2.2⟩
  | alone _ _ peers round =>
    obtain ⟨ms, f, i, rfl, -, -, hms⟩ := round.eq
    exact .elected rfl (Or.inl peers) (Nat.le_succ _) rfl rfl (.of_round hms rfl)
  | preVoted | rejected | declined => exact .kept rfl rfl ⟨rfl, rfl, .of_send rfl rfl⟩
  | campaigned _ _ _ _ _ asks =>
    obtain ⟨ms, rfl, hms⟩ := asks
    exact .down (fun h => by cases h) (Nat.le_succ _)
      ⟨rfl, rfl, .of_append ms rfl fun x hx => (hms x hx).2.2.2⟩
  | crowned _ _ _ _ _ peers round =>
    obtain ⟨ms, f, i, rfl, -, -, hms⟩ := round.eq
    exact .elected rfl (Or.inl peers) (Nat.le_succ _) rfl rfl (.of_round hms rfl)
  | refused _ _ hmeets | voted _ _ hmeets =>
    exact .of_meets hmeets rfl rfl ⟨rfl, rfl, .of_send rfl rfl⟩
  | elected _ _ _ role _ _ round =>
    obtain ⟨ms, f, i, rfl, -, -, hms⟩ := round.eq
    exact .elected rfl (Or.inr ⟨role, rfl⟩) le_rfl rfl rfl (.of_round hms rfl)
  | outrun _ _ lt => exact .down (fun h => by cases h) lt.le ⟨rfl, rfl, Unrelated.refl _⟩
  | mismatched type dst le =>
    exact .of_send type dst le rfl rfl rfl rfl rfl ⟨rfl, rfl, rfl, rfl, rfl⟩
  | merged type dst le _ _ _ run =>
    obtain ⟨log, u, rfl⟩ := Raft.mergeEntries_eq run
    exact .of_send type dst le rfl rfl rfl rfl rfl ⟨rfl, rfl, rfl, rfl, rfl⟩
  | acked type dst role term hears run =>
    obtain ⟨i, rfl, -⟩ := Raft.maybeAdvanceCommitIndex_eq run
    exact .of_hears type dst role term hears rfl rfl ⟨rfl, rfl, Unrelated.refl _⟩
  | nacked type dst role term hears run =>
    obtain ⟨x, f, rfl, hx, -⟩ := Raft.sendAppendEntries_eq run
    exact .of_hears type dst role term hears rfl rfl
      ⟨rfl, rfl, .of_send rfl (hx.2.2.elim And.right And.right)⟩
  | known _ _ le | installed _ _ le =>
    exact .down (fun h => by cases h) le ⟨rfl, rfl, .of_send rfl rfl⟩
  | received run =>
    obtain ⟨i, rfl, -⟩ := Raft.maybeAdvanceCommitIndex_eq run
    exact .kept rfl rfl ⟨rfl, rfl, Unrelated.refl _⟩
  | proposed _ append round =>
    obtain ⟨log, rfl⟩ := Raft.appendDatas_eq append
    obtain ⟨ms, f, i, rfl, -, -, hms⟩ := round.eq
    exact .kept rfl rfl ⟨rfl, rfl, .of_round hms rfl⟩
  | answered role alone => exact .answered role alone rfl
  | asked role round =>
    obtain ⟨ms, f, i, rfl, -, -, hms⟩ := round.eq
    exact .asked role role rfl rfl rfl fun x hx => (List.mem_append.mp hx).imp_right fun hx =>
      (hms x hx).1
  | compacted run =>
    obtain ⟨hs, hrole, hterm⟩ := Silent.createSnapshot run
    exact .kept hrole hterm hs

/-- A call that ends in a leader began in one of the same term, or in a candidate of it. -/
theorem Turn.of_leader {op : Op} (h : Turn op r r') (hl : r'.role = .leader) :
    r.peers = [] ∨ (r.role = .leader ∨ r.role = .candidate) ∧ r'.currentTerm = r.currentTerm := by
  cases h with
  | kept role term => exact Or.inr ⟨Or.inl (role.symm.trans hl), term⟩
  | down role => exact absurd hl role
  | elected _ race =>
    exact race.imp_right fun h => ⟨Or.inr h.1, h.2⟩
  | echoed _ _ _ _ role => rw [role] at hl; cases hl
  | asked role _ term => exact Or.inr ⟨Or.inl role, term⟩
  | answered role _ heq => exact Or.inr ⟨Or.inl role, by rw [heq]⟩
  | acked _ _ _ _ role _ term' => exact Or.inr ⟨Or.inl role, term'⟩

/-! ## Reads -/

theorem Raft.ackReadIndex_msgs (ctx p : ℕ) : (r.ackReadIndex ctx p).msgs = r.msgs := by
  rw [ackReadIndex_eq]

/-- An acknowledgement changes one outstanding read, or answers it. -/
theorem Raft.ackReadIndex_cases (r : Raft) (ctx p : ℕ) :
    (r.ackReadIndex ctx p = r) ∨ ∃ pr, r.pendingReads ctx = some pr ∧
      ((r.hasMajorityCount (insert p pr.acked).card = true ∧
          (r.ackReadIndex ctx p).readStates = r.readStates ++ [⟨pr.index, ctx⟩] ∧
          (r.ackReadIndex ctx p).pendingReads = Function.update r.pendingReads ctx none) ∨
        ((r.ackReadIndex ctx p).readStates = r.readStates ∧
          (r.ackReadIndex ctx p).pendingReads =
            Function.update r.pendingReads ctx (some { pr with acked := insert p pr.acked }))) := by
  unfold Raft.ackReadIndex
  cases hp : r.pendingReads ctx with
  | none => exact Or.inl rfl
  | some pr =>
    refine Or.inr ⟨pr, rfl, ?_⟩
    dsimp only
    split_ifs with hm
    · exact Or.inl ⟨hm, rfl, rfl⟩
    · exact Or.inr ⟨rfl, rfl⟩

namespace Turn

variable {op : Op}

/-- A message with a read context is a request of `RequestReadIndex`, or the answer to one. -/
theorem context (h : Turn op r r') (hempty : r.msgs = []) {x : Message} (hx : x ∈ r'.msgs)
    (h0 : x.readContext ≠ 0) :
    (op = .readIndex x.readContext ∧ r.role = .leader ∧ x.type = .appendEntries ∧ x.fromId = r.id ∧
      x.term = r.currentTerm) ∨
    ∃ m, op = .step m ∧ m.type = .appendEntries ∧ r.currentTerm ≤ m.term ∧ Echoes r m x := by
  have hno : x ∉ r.msgs := by simp [hempty]
  cases h with
  | kept _ _ silent => exact absurd ((silent.msgs x hx).resolve_left hno) h0
  | down _ _ silent => exact absurd ((silent.msgs x hx).resolve_left hno) h0
  | elected _ _ _ _ _ msgs => exact absurd ((msgs x hx).resolve_left hno) h0
  | echoed type _ le _ _ _ _ msgs =>
    exact Or.inr ⟨_, rfl, type, le, (msgs x hx).resolve_left hno⟩
  | asked role _ _ _ _ msgs =>
    obtain ⟨hsrc, hterm, ⟨hty, rfl⟩ | ⟨-, hz⟩⟩ := (msgs x hx).resolve_left hno
    · exact Or.inl ⟨rfl, role, hty, hsrc, hterm⟩
    · exact absurd hz h0
  | answered _ _ heq =>
    rw [heq] at hx
    exact absurd hx hno
  | acked _ _ _ _ _ _ _ silent =>
    have hmsgs := silent.msgs x hx
    rw [Raft.ackReadIndex_msgs] at hmsgs
    exact absurd (hmsgs.resolve_left hno) h0

/-- An outstanding read was there before, was asked for, or has one more acknowledgement. -/
theorem pending (h : Turn op r r') {ctx : ℕ} {pr' : PendingRead}
    (hpr : r'.pendingReads ctx = some pr') : r.pendingReads ctx = some pr' ∨
    (op = .readIndex ctx ∧ r.role = .leader ∧ pr' = ⟨r.commitIndex, {r.id}⟩) ∨
    ∃ m pr, op = .step m ∧ m.type = .appendEntriesResponse ∧ m.toId = r.id ∧ m.readContext = ctx ∧
      r.pendingReads ctx = some pr ∧ pr' = { pr with acked := insert m.fromId pr.acked } := by
  cases h with
  | kept _ _ silent => exact Or.inl (by rw [← silent.pendingReads]; exact hpr)
  | down _ _ silent => exact Or.inl (by rw [← silent.pendingReads]; exact hpr)
  | elected _ _ _ pendingReads => rw [pendingReads] at hpr; cases hpr
  | echoed _ _ _ _ _ pendingReads => exact Or.inl (by rw [← pendingReads]; exact hpr)
  | @asked ctx' _ _ role _ _ pendingReads =>
    rw [pendingReads] at hpr
    by_cases hc : ctx = ctx'
    · subst hc
      rw [Function.update_self] at hpr
      exact Or.inr (Or.inl ⟨rfl, role, (Option.some.inj hpr).symm⟩)
    · rw [Function.update_of_ne hc] at hpr
      exact Or.inl hpr
  | @answered ctx' _ _ _ _ heq =>
    rw [heq] at hpr
    by_cases hc : ctx = ctx'
    · subst hc
      simp only [Function.update_self] at hpr
      cases hpr
    · simp only [Function.update_of_ne hc] at hpr
      exact Or.inl hpr
  | @acked m _ _ type _ dst _ _ _ _ silent =>
    rw [silent.pendingReads] at hpr
    rcases r.ackReadIndex_cases m.readContext m.fromId with heq | ⟨pr, hold, ⟨-, -, heq⟩ | ⟨-, heq⟩⟩
    · rw [heq] at hpr
      exact Or.inl hpr
    · rw [heq] at hpr
      by_cases hc : ctx = m.readContext
      · rw [hc, Function.update_self] at hpr
        cases hpr
      · rw [Function.update_of_ne hc] at hpr
        exact Or.inl hpr
    · rw [heq] at hpr
      by_cases hc : ctx = m.readContext
      · rw [hc, Function.update_self] at hpr
        exact Or.inr
          (Or.inr ⟨m, pr, rfl, type, dst, hc.symm, hc ▸ hold, (Option.some.inj hpr).symm⟩)
      · rw [Function.update_of_ne hc] at hpr
        exact Or.inl hpr

/-- A read that is answered was asked for by a node that is alone, or has a majority of
acknowledgements. -/
theorem answers (h : Turn op r r') (hempty : r.readStates = []) {rs : ReadState}
    (hrs : rs ∈ r'.readStates) :
    (op = .readIndex rs.context ∧ r.role = .leader ∧ rs.index = r.commitIndex ∧
      r.hasMajorityCount 1 = true) ∨
    ∃ m pr, op = .step m ∧ m.type = .appendEntriesResponse ∧ m.toId = r.id ∧
      m.readContext = rs.context ∧ r.pendingReads rs.context = some pr ∧ rs.index = pr.index ∧
      r.hasMajorityCount (insert m.fromId pr.acked).card = true := by
  have hno : rs ∉ r.readStates := by simp [hempty]
  cases h with
  | kept _ _ silent => rw [silent.readStates] at hrs; exact absurd hrs hno
  | down _ _ silent => rw [silent.readStates] at hrs; exact absurd hrs hno
  | elected _ _ _ _ readStates => rw [readStates] at hrs; exact absurd hrs hno
  | echoed _ _ _ _ _ _ readStates => rw [readStates] at hrs; exact absurd hrs hno
  | asked _ _ _ _ readStates => rw [readStates] at hrs; exact absurd hrs hno
  | answered role alone heq =>
    rw [heq] at hrs
    rcases List.mem_append.mp hrs with hrs | hrs
    · exact absurd hrs hno
    · obtain rfl := List.mem_singleton.mp hrs
      exact Or.inl ⟨rfl, role, rfl, alone⟩
  | @acked m _ _ type _ dst _ _ _ _ silent =>
    rw [silent.readStates] at hrs
    rcases r.ackReadIndex_cases m.readContext m.fromId with
      heq | ⟨pr, hold, ⟨hmaj, heq, -⟩ | ⟨heq, -⟩⟩
    · rw [heq] at hrs
      exact absurd hrs hno
    · rw [heq] at hrs
      rcases List.mem_append.mp hrs with hrs | hrs
      · exact absurd hrs hno
      · obtain rfl := List.mem_singleton.mp hrs
        exact Or.inr ⟨m, pr, rfl, type, dst, rfl, hold, rfl, hmaj⟩
    · rw [heq] at hrs
      exact absurd hrs hno

end Turn

end KvStore
