import KvStore.Server.ReadRelease
import KvStore.Server.Replicas

/-!
# Linearizable reads

`LinearizableGet` asks its node for a read index, waits for the answer on a channel of its own and
then reads the engine. The event loop names the read by a context, which it counts up from one; a
process that is started again begins at one again, so that the network may still hold requests and
answers of other reads with the same context.

* `Servers.Contexts`: what keeps them apart. A leader has sent no request of its term with the next
  context, and every answer has a request.
* `Servers.Reading`: what a run knows of one read. Answers in its term come from nodes that had not
  gone past this term when the read was asked for, and only they are counted.
* `linearizable_get`: once the read is answered, the engine has the content of a committed log with
  every entry that was committed when the read was asked for, and so with every write that was
  acknowledged by then. As in `read_index_current` the leader that is asked has an entry of its own
  term at its commit index.

Contexts are natural numbers here; that they are counted modulo 2^64 is in `EventLoop.lean`.
-/

namespace KvStore

open Consensus Machine StorageEngine

/-! ## One context at one node -/

section Node

variable {op : Op} {r r' : Raft} {ctx t k : ℕ} {ok : ℕ → Prop}

/-- What a node has counted for the read `ctx` that was asked for in term `t` at index `k`: a leader
that still counts is in term `t`, and whoever it has counted is `ok`. -/
def Raft.Counts (r : Raft) (ctx t k : ℕ) (ok : ℕ → Prop) : Prop :=
  ∀ pr, r.pendingReads ctx = some pr →
    (r.role = .leader → r.currentTerm = t) ∧ pr.index = k ∧ ∀ q ∈ pr.acked, ok q

/-- What a call counts for the read, and what it answers. -/
theorem Turn.counts (h : Turn op r r') (hr : r.Counts ctx t k ok) (hempty : r.readStates = [])
    (hask : op = .readIndex ctx → r.role = .leader → r.currentTerm = t ∧
    r.commitIndex = k ∧ ok r.id) (hack : ∀ m, op = .step m → m.type = .appendEntriesResponse →
      m.toId = r.id → m.readContext = ctx → m.term = t → ok m.fromId) :
    r'.Counts ctx t k ok ∧ ∀ x ∈ r'.readStates, x.context = ctx →
      x.index = k ∧ ∃ Q : Finset ℕ, (∀ q ∈ Q, ok q) ∧ r.hasMajorityCount Q.card = true := by
  have hsilent : r'.readStates = r.readStates → ∀ x ∈ r'.readStates, x.context = ctx →
      x.index = k ∧ ∃ Q : Finset ℕ, (∀ q ∈ Q, ok q) ∧ r.hasMajorityCount Q.card = true := by
    intro heq x hx
    rw [heq, hempty] at hx
    cases hx
  cases h with
  | kept role term silent =>
    refine ⟨fun pr hpr => ?_, hsilent silent.readStates⟩
    rw [silent.pendingReads] at hpr
    rw [role, term]
    exact hr pr hpr
  | down role term silent =>
    refine ⟨fun pr hpr => ⟨fun hl => absurd hl role, ?_⟩, hsilent silent.readStates⟩
    rw [silent.pendingReads] at hpr
    exact (hr pr hpr).2
  | elected role race term pendingReads readStates msgs =>
    refine ⟨fun pr hpr => ?_, hsilent readStates⟩
    rw [pendingReads] at hpr
    cases hpr
  | echoed type dst le term role pendingReads readStates msgs =>
    refine ⟨fun pr hpr => ⟨fun hl => ?_, ?_⟩, hsilent readStates⟩
    · rw [role] at hl
      cases hl
    · rw [pendingReads] at hpr
      exact (hr pr hpr).2
  | @asked ctx' _ _ role role' term pendingReads readStates msgs =>
    refine ⟨fun pr hpr => ?_, hsilent readStates⟩
    rw [pendingReads] at hpr
    by_cases hc : ctx = ctx'
    · subst hc
      rw [Function.update_self] at hpr
      obtain rfl := Option.some.inj hpr
      obtain ⟨ht, hk, hid⟩ := hask rfl role
      refine ⟨fun _ => term.trans ht, hk, fun q hq => ?_⟩
      rw [Finset.mem_singleton.mp hq]
      exact hid
    · rw [Function.update_of_ne hc] at hpr
      obtain ⟨ht, hrest⟩ := hr pr hpr
      exact ⟨fun _ => term.trans (ht role), hrest⟩
  | @answered ctx' _ _ role alone heq =>
    subst heq
    refine ⟨fun pr hpr => ?_, fun x hx hxc => ?_⟩
    · by_cases hc : ctx = ctx'
      · subst hc
        simp only [Function.update_self] at hpr
        cases hpr
      · simp only [Function.update_of_ne hc] at hpr
        exact hr pr hpr
    · simp only [hempty, List.nil_append] at hx
      obtain rfl := List.mem_singleton.mp hx
      obtain ⟨-, hk, hid⟩ := hask (congrArg Op.readIndex hxc) role
      refine ⟨hk, {r.id}, fun q hq => ?_, alone⟩
      rw [Finset.mem_singleton.mp hq]
      exact hid
  | @acked m _ _ type context dst term role role' term' silent =>
    -- a leader that counts is in term `t`, and so is the answer
    have hmem : ∀ pr, r.pendingReads m.readContext = some pr → m.readContext = ctx →
        ∀ q ∈ insert m.fromId pr.acked, ok q := by
      intro pr hold hc q hq
      rw [hc] at hold
      obtain ⟨ht, -, hacked⟩ := hr pr hold
      rcases Finset.mem_insert.mp hq with rfl | hq
      · exact hack m rfl type dst hc (term.trans (ht role))
      · exact hacked q hq
    have hother : ∀ (o : Option PendingRead) pr, ctx ≠ m.readContext →
        Function.update r.pendingReads m.readContext o ctx = some pr →
        (r'.role = .leader → r'.currentTerm = t) ∧ pr.index = k ∧ ∀ q ∈ pr.acked, ok q := by
      intro o pr hc hpr
      rw [Function.update_of_ne hc] at hpr
      obtain ⟨ht, hrest⟩ := hr pr hpr
      exact ⟨fun _ => term'.trans (ht role), hrest⟩
    rcases r.ackReadIndex_cases m.readContext m.fromId with
      heq | ⟨pr₀, hold, ⟨hmaj, hrs, hps⟩ | ⟨hrs, hps⟩⟩
    · rw [heq] at silent
      refine ⟨fun pr hpr => ?_, hsilent silent.readStates⟩
      rw [silent.pendingReads] at hpr
      obtain ⟨ht, hrest⟩ := hr pr hpr
      exact ⟨fun _ => term'.trans (ht role), hrest⟩
    · refine ⟨fun pr hpr => ?_, fun x hx hxc => ?_⟩
      · rw [silent.pendingReads, hps] at hpr
        by_cases hc : ctx = m.readContext
        · rw [hc, Function.update_self] at hpr
          cases hpr
        · exact hother _ pr hc hpr
      · rw [silent.readStates, hrs, hempty, List.nil_append] at hx
        obtain rfl := List.mem_singleton.mp hx
        have hc : m.readContext = ctx := hxc
        exact ⟨(hr pr₀ (hc ▸ hold)).2.1, _, hmem pr₀ hold hc, hmaj⟩
    · refine ⟨fun pr hpr => ?_, hsilent (silent.readStates.trans hrs)⟩
      rw [silent.pendingReads, hps] at hpr
      by_cases hc : ctx = m.readContext
      · rw [hc, Function.update_self] at hpr
        obtain rfl := Option.some.inj hpr
        obtain ⟨ht, hk, -⟩ := hr pr₀ (hc ▸ hold)
        exact ⟨fun _ => term'.trans (ht role), hk, hmem pr₀ hold hc.symm⟩
      · exact hother _ pr hc hpr

/-- A leader led before the call, or was elected by it. -/
theorem Turn.led (h : Turn op r r') (hl : r'.role = .leader) :
    r'.currentTerm = r.currentTerm ∧ (r.role = .leader ∨ r.role = .candidate) ∨ r.peers = [] := by
  cases h with
  | kept role term silent => exact Or.inl ⟨term, Or.inl (role ▸ hl)⟩
  | down role term silent => exact absurd hl role
  | elected role race term pendingReads readStates msgs =>
    rcases race with hp | ⟨hc, ht⟩
    · exact Or.inr hp
    · exact Or.inl ⟨ht, Or.inr hc⟩
  | echoed type dst le term role pendingReads readStates msgs =>
    rw [role] at hl
    cases hl
  | asked role role' term pendingReads readStates msgs => exact Or.inl ⟨term, Or.inl role⟩
  | answered role alone heq =>
    subst heq
    exact Or.inl ⟨rfl, Or.inl role⟩
  | acked type context dst term role role' term' silent => exact Or.inl ⟨term', Or.inl role⟩

end Node

/-! ## The reads of a round -/

namespace Server

section Handle

variable {ε : Type} {s s₁ : Server ε} {ev : Event} {pumps : Bool}

/-- What a round up to `Persist` does with contexts: a new one for every read, which waits if the
node leads. -/
structure Asks (s : Server ε) (ev : Event) (pumps : Bool) (s₁ : Server ε) : Prop where
  le : s.nextReadCtx ≤ s₁.nextReadCtx
  next : ∀ ch, ev = .readIndex ch → s₁.nextReadCtx = s.nextReadCtx + 1
  pending : ∀ p ∈ s₁.pendingReadIndexes, p ∈ s.pendingReadIndexes ∨
    pumps = true ∧ p.1 = s.nextReadCtx ∧ ev = .readIndex p.2 ∧ s.node.r.role = .leader

theorem Asks.of_eq (hnext : s₁.nextReadCtx = s.nextReadCtx)
    (hpending : s₁.pendingReadIndexes ⊆ s.pendingReadIndexes) (hev : ∀ ch, ev ≠ .readIndex ch) :
    Asks s ev pumps s₁ where
  le := hnext.ge
  next := fun ch h => absurd h (hev ch)
  pending := fun _ hp => Or.inl (hpending hp)

theorem call_readIndex {ctx : ℕ} (h : s.call ev = .readIndex ctx) :
    ∃ ch, ev = .readIndex ch ∧ ctx = s.nextReadCtx := by
  cases ev with
  | readIndex ch => exact ⟨ch, rfl, (Op.readIndex.inj h).symm⟩
  | tick | recv m | propose req | batchTimer | closed | stop => cases h

theorem submitBatch_asks {reqs : List ProposeRequest} (h : s.submitBatch reqs = .ok (s₁, pumps)) :
    s₁.nextReadCtx = s.nextReadCtx ∧ s₁.pendingReadIndexes = s.pendingReadIndexes := by
  unfold submitBatch at h
  split_ifs at h
  · cases h
    exact ⟨rfl, rfl⟩
  rcases s.orPanic_cases (s.node.r.proposeBatch (reqs.map ProposeRequest.data)) with
    ⟨-, hp⟩ | ⟨⟨r, res⟩, -, hp⟩
  · rw [hp] at h
    cases h
  · rw [hp] at h
    cases res <;> cases h <;> exact ⟨rfl, rfl⟩

theorem handle_asks (h : s.handle ev = .ok (s₁, pumps)) : Asks s ev pumps s₁ := by
  cases ev with
  | tick =>
    unfold handle at h
    rcases s.orPanic_cases s.node.r.tick with ⟨-, hp⟩ | ⟨r, -, hp⟩ <;> rw [hp] at h <;> cases h
    exact .of_eq rfl (List.Subset.refl _) (fun _ h => by cases h)
  | recv m =>
    unfold handle at h
    dsimp only at h
    rcases s.orPanic_cases (s.node.r.step m) with ⟨-, hp⟩ | ⟨r, -, hp⟩ <;> rw [hp] at h <;> cases h
    exact .of_eq rfl (List.Subset.refl _) (fun _ h => by cases h)
  | propose req =>
    unfold handle at h
    dsimp only at h
    split_ifs at h
    · obtain ⟨hnext, hpending⟩ := submitBatch_asks h
      exact .of_eq hnext (by rw [hpending]; exact List.Subset.refl _) (fun _ h => by cases h)
    · cases h
      exact .of_eq rfl (List.Subset.refl _) (fun _ h => by cases h)
    · cases h
      exact .of_eq rfl (List.Subset.refl _) (fun _ h => by cases h)
  | readIndex ch =>
    unfold handle at h
    dsimp only at h
    rcases ({ s with nextReadCtx := s.nextReadCtx + 1 } : Server ε).orPanic_cases
      (s.node.r.requestReadIndex s.nextReadCtx) with ⟨-, hp⟩ | ⟨⟨r, res⟩, hrun, hp⟩
    · rw [hp] at h
      cases h
    rw [hp] at h
    cases res with
    | error e =>
      cases h
      exact ⟨Nat.le_succ _, fun _ _ => rfl, fun p hp => Or.inl hp⟩
    | ok u =>
      cases h
      have hlead : s.node.r.role = .leader := by
        by_contra hno
        rw [Raft.requestReadIndex, if_pos hno] at hrun
        cases hrun
      refine ⟨Nat.le_succ _, fun _ _ => rfl, fun p hp => ?_⟩
      rcases List.mem_cons.mp hp with rfl | hp
      · exact Or.inr ⟨rfl, rfl, rfl, hlead⟩
      · exact Or.inl hp
  | batchTimer =>
    obtain ⟨hnext, hpending⟩ := submitBatch_asks (show submitBatch _ _ = _ from h)
    exact .of_eq hnext (by rw [hpending]; exact List.Subset.refl _) (fun _ h => by cases h)
  | closed =>
    cases h
    exact .of_eq rfl (List.Subset.refl _) (fun _ h => by cases h)
  | stop =>
    cases h
    exact .of_eq rfl (List.nil_subset _) (fun _ h => by cases h)

end Handle

section Pump

variable {ε : Type} {s s₁ s' : Server ε} {nd : Node} {rd : Ready} {ev : Event}

/-- The loop that answers reads says to a channel the index of a read that waits under it. -/
theorem foldl_resolveRead_answers (rss : List ReadState) (s : Server ε) :
    (rss.foldl resolveRead s).nextReadCtx = s.nextReadCtx ∧
    (rss.foldl resolveRead s).node = s.node ∧
      (rss.foldl resolveRead s).pendingReadIndexes ⊆ s.pendingReadIndexes ∧
      ∀ p ∈ (rss.foldl resolveRead s).readResults, p ∈ s.readResults ∨
        ∃ x ∈ rss, p.2 = .ok x.index ∧ (x.context, p.1) ∈ s.pendingReadIndexes := by
  induction rss generalizing s with
  | nil => exact ⟨rfl, rfl, List.Subset.refl _, fun p hp => Or.inl hp⟩
  | cons x rss ih =>
    obtain ⟨hnext, hnode, hsub, hres⟩ := ih (s.resolveRead x)
    have hstep : (s.resolveRead x).nextReadCtx = s.nextReadCtx ∧ (s.resolveRead x).node = s.node ∧
        (s.resolveRead x).pendingReadIndexes ⊆ s.pendingReadIndexes ∧
        ∀ p ∈ (s.resolveRead x).readResults, p ∈ s.readResults ∨
          p.2 = .ok x.index ∧ (x.context, p.1) ∈ s.pendingReadIndexes := by
      unfold resolveRead
      split
      · exact ⟨rfl, rfl, List.Subset.refl _, fun p hp => Or.inl hp⟩
      · next ch hch =>
        refine ⟨rfl, rfl, List.filter_subset_self _, fun p hp => ?_⟩
        rcases List.mem_append.mp hp with hp | hp
        · exact Or.inl hp
        · obtain rfl := List.mem_singleton.mp hp
          obtain ⟨l₁, l₂, heq, -⟩ := List.lookup_eq_some_iff.mp hch
          exact Or.inr ⟨rfl, by rw [heq]; simp⟩
    obtain ⟨hnext', hnode', hsub', hres'⟩ := hstep
    refine ⟨hnext.trans hnext', hnode.trans hnode', List.Subset.trans hsub hsub', fun p hp => ?_⟩
    rcases hres p hp with hp | ⟨y, hy, hi, hch⟩
    · rcases hres' p hp with hp | ⟨hi, hch⟩
      · exact Or.inl hp
      · exact Or.inr ⟨x, List.mem_cons_self, hi, hch⟩
    · exact Or.inr ⟨y, List.mem_cons_of_mem _ hy, hi, hsub' hch⟩

variable [StorageEngine ε]

/-- What a server knows of reads, apart from its node. -/
def reads (s : Server ε) : ℕ × List (ℕ × ℕ) × List (ℕ × Except ServerError ℕ) :=
  (s.nextReadCtx, s.pendingReadIndexes, s.readResults)

theorem delivered_reads (s : Server ε) (nd : Node) (rd : Ready) :
    (s.delivered nd rd).reads = s.reads := by
  unfold delivered restore
  cases rd.snapshotToApply with
  | none => rfl
  | some snap =>
    dsimp only
    split <;> rfl

theorem applyCommitted_reads (h : s.applyCommitted = .ok s') : s'.reads = s.reads := by
  unfold applyCommitted at h
  split_ifs at h
  · cases h
    rfl
  · rcases s.orPanic_cases (s.node.r.entries s.lastApplied s.node.r.commitIndex) with
      ⟨-, hp⟩ | ⟨es, -, hp⟩ <;> rw [hp] at h <;> cases h
    obtain ⟨w, rs, heq⟩ := s.applyEntries_eq es
    rw [heq]
    rfl

/-- What a pump does with reads: contexts stay, and a channel is told the index of a read that the
node has answered. -/
structure Answers (s : Server ε) (nd : Node) (rd : Ready) (s' : Server ε) : Prop where
  next : s'.nextReadCtx = s.nextReadCtx
  pending : s'.pendingReadIndexes ⊆ s.pendingReadIndexes
  results : ∀ p ∈ s'.readResults, p ∈ s.readResults ∨
    ∃ x ∈ rd.readStates, p.2 = .ok x.index ∧ (x.context, p.1) ∈ s.pendingReadIndexes
  role : s'.node.r.role = nd.r.role
  term : s'.node.r.currentTerm = nd.r.currentTerm
  pendingReads : s'.node.r.pendingReads = nd.r.pendingReads

theorem pumped_answers (h : s.pumped nd rd = .ok s') : Answers s nd rd s' := by
  obtain ⟨s₁, s₂, happ, hsnap, rfl⟩ := pumped_ok h
  obtain ⟨hnext, hnode, hsub, hres⟩ := foldl_resolveRead_answers rd.readStates s₂
  have hnode₁ : s₁.node = nd := by
    rcases (s.delivered nd rd).applyCommitted_cases with
      hc | ⟨s₁', hc, hn, -⟩ <;> cases happ.symm.trans hc
    exact hn.trans (s.delivered_frame nd rd).1
  have hsame : s₂.reads = s.reads ∧ s₂.node.r.role = nd.r.role ∧
      s₂.node.r.currentTerm = nd.r.currentTerm ∧ s₂.node.r.pendingReads = nd.r.pendingReads := by
    have hreads : s₁.reads = s.reads := (applyCommitted_reads happ).trans (delivered_reads s nd rd)
    rw [← hnode₁]
    rcases maybeSnapshot_ok hsnap with ⟨-, rfl⟩ | ⟨data, r, err, -, hrun, rfl⟩
    · exact ⟨hreads, rfl, rfl, rfl⟩
    · obtain ⟨hsil, hrole, hterm⟩ := Silent.createSnapshot hrun
      exact ⟨hreads, hrole, hterm, hsil.pendingReads⟩
  obtain ⟨hreads, hrole, hterm, hpr⟩ := hsame
  obtain ⟨hnext₂, hreads⟩ := Prod.mk.inj hreads
  obtain ⟨hpending₂, hresults₂⟩ := Prod.mk.inj hreads
  rw [hpending₂, hresults₂] at hres
  rw [hpending₂] at hsub
  exact ⟨hnext.trans hnext₂, hsub, hres, by rw [hnode]; exact hrole, by rw [hnode]; exact hterm,
    by rw [hnode]; exact hpr⟩

theorem start_reads {opts : ServerOptions} {snap : Option Snapshot} {eng : ε}
    (h : Server.start opts nd snap eng = some s) : s.reads = (1, [], []) := by
  unfold Server.start at h
  dsimp only at h
  split at h
  · obtain rfl := Option.some.inj h
    rfl
  · split at h
    · cases h
    · obtain rfl := Option.some.inj h
      rfl

/-- The node of a round that survives, as far as reads go: its call decides. -/
theorem round_turn (hh : s.handle ev = .ok (s₁, true)) (hp : s₁.node.persist = some (nd, rd))
    (hs : s₁.pumped nd rd = .ok s') : Turn (s.call ev) s.node.r s₁.node.r ∧
      rd.readStates = s₁.node.r.readStates ∧ s'.node.r.role = s₁.node.r.role ∧
      s'.node.r.currentTerm = s₁.node.r.currentTerm ∧
        s'.node.r.pendingReads = s₁.node.r.pendingReads := by
  obtain ⟨hadv, -, hstates, -⟩ := Node.persist_cases hp
  have hans := pumped_answers hs
  obtain ⟨last, -, hadv⟩ := Option.bind_eq_some_iff.mp hadv
  have hnd := Option.some.inj hadv
  refine ⟨Op.run_turn (handle_call hh), hstates, ?_, ?_, ?_⟩
  · rw [hans.role, ← hnd]
  · rw [hans.term, ← hnd]
  · rw [hans.pendingReads, ← hnd]

end Pump

end Server

namespace Servers

variable {ε : Type} [StorageEngine ε] {mb : Members} {opts : ℕ → ServerOptions} {S S' T : Servers ε}
    {c : Cluster}
  {A : Abs} {a : ServersAction ε} {n p : ℕ} {m : Message}

/-! ## The messages of a step -/

/-- Server `p` makes its call in a round with the event `ev`, which takes it to `s`. -/
structure Calls (mb : Members) (S : Servers ε) (p : ℕ) (ev : Event) (s : Server ε) : Prop where
  mem : p ∈ mb.ids
  sees : S.Sees p ev
  handled : (S.servers p).handle ev = .ok (s, true)

theorem Dies.sends {e : Option Event} {storage : List Record} (hT : Dies S p e T storage)
    (hp : p ∈ mb.ids) (hS : Shows S c) (hm : m ∈ T.net) : m ∈ S.net ∨ ∃ ev s, Calls mb S p ev s ∧
      m ∈ s.node.r.msgs := by
  have hquiet : ∀ {s : Server ε}, s.sent = (S.servers p).sent → m ∈ S.net ++ s.sent →
      m ∈ S.net := by
    intro s hsent hm
    rw [hsent, hS.clean, List.append_nil] at hm
    exact hm
  cases hT with
  | between => exact Or.inl hm
  | cut ev s k hsees hh => exact Or.inl hm
  | handling ev s hsees hh =>
    cases Server.handled_of_eq hh with
    | panicked _ hnode hsent hresults => exact Or.inl (hquiet hsent hm)
  | persisting ev s hsees hh hpersist =>
    cases Server.handled_of_eq hh with
    | called op _ hrun hnew hmsg hstorage hsent hresults hpending hwaiters =>
      exact Or.inl (hquiet hsent hm)
  | pumping ev s nd rd s' hsees hh hpersist hs =>
    rcases s.pumped_cases nd rd with ⟨s₂, hs₂, -, hset⟩ | ⟨s₂, hs₂, -⟩ <;> cases hs.symm.trans hs₂
    refine (List.mem_append.mp hm).imp_right fun hm => ⟨ev, s, ⟨hp, hsees, hh⟩, ?_⟩
    rw [hS.sent_eq hh hset, (Node.persist_cases hpersist).2.1] at hm
    exact hm

/-- A round sends the messages of its call. -/
theorem Shows.sent_msgs (hS : Shows S c) {ev : Event} {s s' : Server ε} {nd : Node} {rd : Ready}
    (hh : (S.servers p).handle ev = .ok (s, true)) (hp : s.node.persist = some (nd, rd))
    (hs : s.pumped nd rd = .ok s') : s'.sent = s.node.r.msgs := by
  rcases s.pumped_cases nd rd with ⟨s₂, hs₂, -⟩ | ⟨s₂, hs₂, -, hset⟩ <;> cases hs.symm.trans hs₂
  rw [hS.sent_eq hh hset, (Node.persist_cases hp).2.1]

/-- A message that is new after a step was sent by the call of the server that made it. -/
theorem Stepped.sends (hstep : Stepped mb opts S a S') (hS : Shows S c) (hm : m ∈ S'.net) :
    m ∈ S.net ∨ ∃ ev s, Calls mb S a.node ev s ∧ m ∈ s.node.r.msgs := by
  cases hstep with
  | idle p ev s hsees hh =>
    cases Server.handled_of_eq hh with
    | idle _ hnode hsent hresults hpending hwaiters =>
      refine Or.inl ((List.mem_append.mp hm).resolve_right fun hm => ?_)
      rw [hsent, hS.clean] at hm
      cases hm
  | pumped p ev s nd rd s' hp hsees hh hpersist hs =>
    refine (List.mem_append.mp hm).imp_right fun hm => ⟨ev, s, ⟨hp, hsees, hh⟩, ?_⟩
    rw [hS.sent_msgs hh hpersist hs] at hm
    exact hm
  | died p e T S' storage hae hk hp hT hr =>
    obtain ⟨nd, snap, s, -, -, rfl⟩ := restart_start hr
    rw [hae.1]
    exact hT.sends hp hS hm

theorem Stepped.net_subset (hstep : Stepped mb opts S a S') : S.net ⊆ S'.net := by
  cases hstep with
  | idle p ev s hsees hh => exact List.subset_append_left _ _
  | pumped p ev s nd rd s' hp hsees hh hpersist hs => exact List.subset_append_left _ _
  | died p e T S' storage hae hk hp hT hr =>
    obtain ⟨nd, snap, s, -, -, rfl⟩ := restart_start hr
    cases hT with
    | between | cut => exact List.Subset.refl _
    | handling | persisting | pumping => exact List.subset_append_left _ _

namespace InStep

omit [StorageEngine ε] in
theorem msgs_eq (h : InStep mb S c A) (hn : n ∈ mb.ids) : (S.servers n).node.r.msgs = [] := by
  rw [← h.shows.nodes]
  exact (h.sim.node n hn).msgs_eq

omit [StorageEngine ε] in
theorem readStates_eq (h : InStep mb S c A) (hn : n ∈ mb.ids) :
    (S.servers n).node.r.readStates = [] := by
  rw [← h.shows.nodes]
  exact (h.sim.node n hn).reads_eq

omit [StorageEngine ε] in
theorem mirrors (h : InStep mb S c A) (hn : n ∈ mb.ids) :
    Mirrors mb A n (S.servers n).node.r.view := by
  rw [← h.shows.nodes]
  exact (h.sim.node n hn).live.mirrors

omit [StorageEngine ε] in
theorem msgOk (h : InStep mb S c A) (hm : m ∈ S.net) : MsgOk mb A m := by
  rw [← h.shows.net] at hm
  exact h.sim.net m hm

/-- A message with a context that a call sends: the request of a read with the next context, or the
answer to a request that has arrived. -/
inductive Bears (S : Servers ε) (p : ℕ) (ev : Event) (m : Message) : Prop
  | request (type : m.type = .appendEntries) (src : m.fromId = p)
      (context : m.readContext = (S.servers p).nextReadCtx) (ch : ℕ) (event : ev = .readIndex ch)
  | answer (q : Message) (mem : q ∈ S.net) (qtype : q.type = .appendEntries)
      (le : (S.servers p).node.r.currentTerm ≤ q.term) (type : m.type = .appendEntriesResponse)
      (context : m.readContext = q.readContext) (src : m.fromId = p) (dst : m.toId = q.fromId)
      (term : m.term = q.term)

omit [StorageEngine ε] in
theorem bears (h : InStep mb S c A) {ev : Event} {s : Server ε} (hc : Calls mb S p ev s)
    (hm : m ∈ s.node.r.msgs) (h0 : m.readContext ≠ 0) : Bears S p ev m := by
  have hid : (S.servers p).node.r.id = p := (h.mirrors hc.mem).id_eq
  have hturn := Op.run_turn (Server.handle_call hc.handled)
  rcases hturn.context (h.msgs_eq hc.mem) hm h0 with
    ⟨hop, -, hty, hsrc, -⟩ | ⟨q, hop, hqty, hle, hecho⟩
  · obtain ⟨ch, hev, hctx⟩ := Server.call_readIndex hop
    exact .request hty (hsrc.trans hid) hctx ch hev
  · obtain rfl := Server.call_step hop
    exact .answer q hc.sees.2 hqty hle hecho.type hecho.context (hecho.src.trans hid) hecho.dst
      hecho.term

end InStep

/-! ## Contexts -/

/-- What keeps the reads of a server apart: every answer has a request, a leader has sent none of
its term with a context still to come, and it has counted for none either. -/
structure Contexts (mb : Members) (S : Servers ε) : Prop where
  echo : ∀ m ∈ S.net, m.type = .appendEntriesResponse → m.readContext ≠ 0 → ∃ q ∈ S.net,
    q.type = .appendEntries ∧ q.fromId = m.toId ∧ q.term = m.term ∧ q.readContext = m.readContext
  used : ∀ n ∈ mb.ids, (S.servers n).node.r.role = .leader → (mb.config n).peers ≠ [] → ∀ m ∈ S.net,
    m.type = .appendEntries → m.fromId = n → m.term = (S.servers n).node.r.currentTerm →
      m.readContext ≠ 0 → m.readContext < (S.servers n).nextReadCtx
  pending : ∀ n ∈ mb.ids, ∀ ctx pr, (S.servers n).node.r.pendingReads ctx = some pr →
    ctx < (S.servers n).nextReadCtx
  pos : ∀ n, 0 < (S.servers n).nextReadCtx

omit [StorageEngine ε] in
theorem contexts_init (mb : Members) (opts : ℕ → ServerOptions) (eng : ε) :
    Contexts mb (Servers.init mb opts eng) where
  echo := fun m hm => absurd hm List.not_mem_nil
  used := fun n _ hl => by cases hl
  pending := fun n _ ctx pr hpr => by cases hpr
  pos := fun _ => Nat.one_pos

namespace Contexts

theorem echo_step (h : Contexts mb S) (hI : InStep mb S c A) (hstep : Stepped mb opts S a S')
    (hm : m ∈ S'.net) (hty : m.type = .appendEntriesResponse) (h0 : m.readContext ≠ 0) :
    ∃ q ∈ S'.net,
      q.type = .appendEntries ∧ q.fromId = m.toId ∧ q.term = m.term ∧
        q.readContext = m.readContext := by
  rcases hstep.sends hI.shows hm with hm | ⟨ev, s, hc, hm⟩
  · obtain ⟨q, hq, hrest⟩ := h.echo m hm hty h0
    exact ⟨q, hstep.net_subset hq, hrest⟩
  · cases hI.bears hc hm h0 with
    | request type => cases type.symm.trans hty
    | answer q mem qtype le type context src dst term =>
      exact ⟨q, hstep.net_subset mem, qtype, dst.symm, term.symm, context.symm⟩

theorem used_step (h : Contexts mb S) (hI : InStep mb S c A) (hstep : Stepped mb opts S a S')
    (hn : n ∈ mb.ids) (hl : (S'.servers n).node.r.role = .leader)
    (hpeers : (mb.config n).peers ≠ []) (hm : m ∈ S'.net) (hty : m.type = .appendEntries)
    (hsrc : m.fromId = n) (hterm : m.term = (S'.servers n).node.r.currentTerm)
    (h0 : m.readContext ≠ 0) : m.readContext < (S'.servers n).nextReadCtx := by
  -- a message that another server sends is not from server `n`
  have hother : n ≠ a.node → m ∈ S.net := fun hne => by
    rcases hstep.sends hI.shows hm with hm | ⟨ev, s, hc, hm⟩
    · exact hm
    · cases hI.bears hc hm h0 with
      | request type src => exact absurd (hsrc.symm.trans src) hne
      | answer q mem qtype le type => cases type.symm.trans hty
  cases hstep with
  | idle p ev s hsees hh =>
    cases Server.handled_of_eq hh with
    | idle _ hnode hsent hresults hpending hwaiters =>
      by_cases hnp : n = p
      · subst hnp
        simp only [absorb, Function.update_self] at hl hterm ⊢
        rw [hnode] at hl hterm
        have hold : m ∈ S.net := (List.mem_append.mp hm).resolve_right fun hm => by
          rw [hsent, hI.shows.clean] at hm
          cases hm
        exact (h.used n hn hl hpeers m hold hty hsrc hterm h0).trans_le (Server.handle_asks hh).le
      · simp only [absorb, Function.update_of_ne hnp] at hl hterm ⊢
        exact h.used n hn hl hpeers m (hother hnp) hty hsrc hterm h0
  | pumped p ev s nd rd s' hp hsees hh hpersist hs =>
    by_cases hnp : n = p
    swap
    · simp only [absorb, Function.update_of_ne hnp] at hl hterm ⊢
      exact h.used n hn hl hpeers m (hother hnp) hty hsrc hterm h0
    subst hnp
    simp only [absorb, Function.update_self] at hl hterm ⊢
    obtain ⟨hturn, -, hrole, hterm', -⟩ := Server.round_turn hh hpersist hs
    rw [(Server.pumped_answers hs).next]
    rw [hrole] at hl
    rw [hterm'] at hterm
    have hasks := Server.handle_asks hh
    rcases List.mem_append.mp hm with hm | hm
    · have hpeers' : (S.servers n).node.r.peers = (mb.config n).peers := (hI.mirrors hn).peers_eq
      rcases hturn.led hl with ⟨hsame, hled | hcand⟩ | halone
      · rw [hsame] at hterm
        exact (h.used n hn hled hpeers m hm hty hsrc hterm h0).trans_le hasks.le
      · -- a candidate has not led its term yet
        obtain ⟨-, -, hno, -⟩ := (hI.mirrors hn).candidate hcand
        obtain ⟨hlead, -⟩ := (hI.msgOk hm).append hty
        rw [hterm, hsame, hsrc] at hlead
        exact absurd hlead hno
      · exact absurd (hpeers'.symm.trans halone) hpeers
    · rw [hI.shows.sent_msgs hh hpersist hs] at hm
      cases hI.bears ⟨hp, hsees, hh⟩ hm h0 with
      | request type src context ch event =>
        rw [context, hasks.next ch event]
        exact Nat.lt_succ_self _
      | answer q mem qtype le type => cases type.symm.trans hty
  | died p e T S' storage hae hk hp hT hr =>
    obtain ⟨nd, snap, s, hopen, hstart, rfl⟩ := restart_start hr
    by_cases hnp : n = p
    · subst hnp
      simp only [Function.update_self] at hl
      rw [(Server.start_cases hstart).1, (openNode_fresh hopen).1] at hl
      cases hl
    · simp only [Function.update_of_ne hnp, hT.servers_of_ne hnp] at hl hterm ⊢
      exact h.used n hn hl hpeers m (hother (by rw [hae.1]; exact hnp)) hty hsrc hterm h0

theorem pending_step (h : Contexts mb S) (hstep : Stepped mb opts S a S')
    (hn : n ∈ mb.ids) {ctx : ℕ} {pr : PendingRead}
    (hpr : (S'.servers n).node.r.pendingReads ctx = some pr) :
    ctx < (S'.servers n).nextReadCtx := by
  have hchange := hstep.change n
  generalize S'.servers n = s at hchange hpr ⊢
  cases hchange with
  | same => exact h.pending n hn ctx pr hpr
  | idle ev recovered s haeq hh =>
    cases Server.handled_of_eq hh with
    | idle _ hnode hsent hresults hpending hwaiters =>
      dsimp only at hpr ⊢
      rw [hnode] at hpr
      exact (h.pending n hn ctx pr hpr).trans_le (Server.handle_asks hh).le
  | pumped ev recovered s nd rd s' haeq hsees hh hp hs =>
    obtain ⟨hturn, -, -, -, hreads⟩ := Server.round_turn hh hp hs
    have hasks := Server.handle_asks hh
    dsimp only at hpr ⊢
    rw [hreads] at hpr
    rw [(Server.pumped_answers hs).next]
    rcases hturn.pending hpr with hold | ⟨hop, -, -⟩ | ⟨-, pr₀, -, -, -, -, hold, -⟩
    · exact (h.pending n hn ctx pr hold).trans_le hasks.le
    · obtain ⟨ch, hev, rfl⟩ := Server.call_readIndex hop
      rw [hasks.next ch hev]
      exact Nat.lt_succ_self _
    · exact (h.pending n hn ctx pr₀ hold).trans_le hasks.le
  | started storage nd snap s hk hopen hstart =>
    rw [(Server.start_cases hstart).1, (openNode_fresh hopen).2.1] at hpr
    cases hpr

theorem pos_step (h : Contexts mb S) (hstep : Stepped mb opts S a S') (n : ℕ) :
    0 < (S'.servers n).nextReadCtx := by
  have hchange := hstep.change n
  generalize S'.servers n = s at hchange ⊢
  cases hchange with
  | same => exact h.pos n
  | idle ev recovered s haeq hh => exact (h.pos n).trans_le (Server.handle_asks hh).le
  | pumped ev recovered s nd rd s' haeq hsees hh hp hs =>
    exact (h.pos n).trans_le
      ((Server.handle_asks hh).le.trans_eq (Server.pumped_answers hs).next.symm)
  | started storage nd snap s hk hopen hstart =>
    rw [(Prod.mk.inj (Server.start_reads hstart)).1]
    exact Nat.one_pos

/-- **A step keeps contexts apart.** -/
theorem step (h : Contexts mb S) (hI : InStep mb S c A) (hstep : Stepped mb opts S a S') :
    Contexts mb S' where
  echo := fun _ hm hty h0 => h.echo_step hI hstep hm hty h0
  used :=
    fun _ hn hl hpeers _ hm hty hsrc hterm h0 =>
      h.used_step hI hstep hn hl hpeers hm hty hsrc hterm h0
  pending := fun _ hn _ _ hpr => h.pending_step hstep hn hpr
  pos := h.pos_step hstep

omit [StorageEngine ε] in
/-- A leader has no answer yet to the read it is asked for next. -/
theorem no_answer (h : Contexts mb S) (hI : InStep mb S c A) (hn : n ∈ mb.ids)
    (hl : (S.servers n).node.r.role = .leader) (hm : m ∈ S.net)
    (hty : m.type = .appendEntriesResponse) (hdst : m.toId = n)
    (hterm : m.term = (S.servers n).node.r.currentTerm) (h0 : m.readContext ≠ 0) :
    m.readContext < (S.servers n).nextReadCtx := by
  have hok := hI.msgOk hm
  have hpeers : (mb.config n).peers ≠ [] := by
    have hlive := (hI.sim.node n hn).live
    have heq : (c.nodes n).r.peers = (mb.config n).peers := hlive.mirrors.peers_eq
    rw [← heq]
    exact List.ne_nil_of_mem
      (hlive.mem_peers.mpr ⟨fun heq => hok.ne (heq.trans hdst.symm), hok.src⟩)
  obtain ⟨q, hq, hqty, hqsrc, hqterm, hqctx⟩ := h.echo m hm hty h0
  rw [← hqctx] at h0 ⊢
  exact h.used n hn hl hpeers q hq hqty (hqsrc.trans hdst) (hqterm.trans hterm) h0

end Contexts

/-! ## One read -/

/-- What the servers hold of the read of server `n` with channel `ch` and context `ctx`, which it
was asked for in term `t` at index `k`, and was then a leader if `lead`: answers in this term come
from servers that are `ok`, and only they have been counted. -/
structure Reading (mb : Members) (n ch ctx t k : ℕ) (ok : ℕ → Prop) (lead : Prop) (S : Servers ε) :
    Prop where
  reply : ∀ m ∈ S.net, m.type = .appendEntriesResponse → m.toId = n → m.readContext = ctx →
    m.term = t → ok m.fromId
  channel : ∀ p ∈ (S.servers n).pendingReadIndexes, p.2 = ch →
    p.1 = ctx ∧ lead ∧ ctx < (S.servers n).nextReadCtx ∧ (S.servers n).node.r.Counts ctx t k ok
  answered : ∀ i, (ch, .ok i) ∈ (S.servers n).readResults →
    lead ∧ i = k ∧ ∃ Q, Majority mb.set Q ∧ ∀ q ∈ Q, ok q

namespace Reading

variable {ch ctx t k : ℕ} {ok : ℕ → Prop} {lead : Prop}

/-- A server that answers is still in the term of the read, or below it. -/
theorem reply_step (h : Reading mb n ch ctx t k ok lead S) (hI : InStep mb S c A) (hctx : ctx ≠ 0)
    (hok : ∀ q ∈ mb.ids, (S.servers q).node.r.currentTerm ≤ t → ok q)
    (hstep : Stepped mb opts S a S') (hm : m ∈ S'.net) (hty : m.type = .appendEntriesResponse)
    (hdst : m.toId = n) (hc : m.readContext = ctx) (hterm : m.term = t) : ok m.fromId := by
  rcases hstep.sends hI.shows hm with hm | ⟨ev, s, hcalls, hm⟩
  · exact h.reply m hm hty hdst hc hterm
  · cases hI.bears hcalls hm (hc ▸ hctx) with
    | request type => cases type.symm.trans hty
    | answer q mem qtype le type context src dst term =>
      rw [src]
      exact hok _ hcalls.mem (le.trans (term.symm.trans hterm).le)

/-- What the call that asks for the read finds. -/
abbrev Begins (S : Servers ε) (n ctx t k : ℕ) (lead : Prop) : Prop :=
  (S.servers n).nextReadCtx = ctx ∧ (S.servers n).node.r.pendingReads ctx = none ∧
    ((S.servers n).node.r.role = .leader →
      lead ∧ (S.servers n).node.r.currentTerm = t ∧ (S.servers n).node.r.commitIndex = k)

omit [StorageEngine ε] in
/-- The read once a round has made its call: a channel that waits did so before, or is the one of
the call. -/
theorem called (h : Reading mb n ch ctx t k ok lead S) (hI : InStep mb S c A)
    (hids : ∀ q, ok q → q ∈ mb.ids) (hok : ∀ q ∈ mb.ids, (S.servers q).node.r.currentTerm ≤ t →
    ok q) {ev : Event} {s : Server ε} (hc : Calls mb S n ev s)
    (hcall : ev = .readIndex ch → Begins S n ctx t k lead) {x : ℕ}
    (hx : (x, ch) ∈ s.pendingReadIndexes) :
    (x = ctx ∧ lead ∧ ctx < s.nextReadCtx ∧ s.node.r.Counts ctx t k ok) ∧
      ∀ rs ∈ s.node.r.readStates, rs.context = ctx → rs.index = k ∧ ∃ Q, Majority mb.set Q ∧
        ∀ q ∈ Q, ok q := by
  have hid : (S.servers n).node.r.id = n := (hI.mirrors hc.mem).id_eq
  have hpeers : (S.servers n).node.r.peers = (mb.config n).peers := (hI.mirrors hc.mem).peers_eq
  have hasks := Server.handle_asks hc.handled
  obtain ⟨hctx, hlead, hlt, hcounts, hask⟩ : x = ctx ∧ lead ∧ ctx < s.nextReadCtx ∧
      (S.servers n).node.r.Counts ctx t k ok ∧ ((S.servers n).call ev = .readIndex ctx →
        (S.servers n).node.r.currentTerm = t ∧ (S.servers n).node.r.commitIndex = k) := by
    rcases hasks.pending _ hx with hold | ⟨-, hnext, hev, hl⟩
    · obtain ⟨hctx, hlead, hlt, hcounts⟩ := h.channel _ hold rfl
      refine ⟨hctx, hlead, hlt.trans_le hasks.le, hcounts, fun hop => ?_⟩
      obtain ⟨-, -, hnext⟩ := Server.call_readIndex hop
      omega
    · obtain ⟨hctx, hnone, hleads⟩ := hcall hev
      obtain ⟨hlead, ht, hk⟩ := hleads hl
      refine ⟨hnext.trans hctx, hlead, ?_, fun pr hpr => ?_, fun _ => ⟨ht, hk⟩⟩
      · rw [hasks.next ch hev, hctx]
        exact Nat.lt_succ_self _
      · rw [hnone] at hpr
        cases hpr
  obtain ⟨hcounts', hanswers⟩ :=
    (Op.run_turn (Server.handle_call hc.handled)).counts hcounts (hI.readStates_eq hc.mem)
      (fun hop _ => by
      obtain ⟨ht, hk⟩ := hask hop
      exact ⟨ht, hk, by rw [hid]; exact hok n hc.mem ht.le⟩)
    (fun m hop hty hdst hmctx hterm => by
      obtain rfl := Server.call_step hop
      exact h.reply m hc.sees.2 hty (hdst.trans hid) hmctx hterm)
  refine ⟨⟨hctx, hlead, hlt, hcounts'⟩, fun rs hrs hrctx => ?_⟩
  obtain ⟨hidx, Q, hQ, hcard⟩ := hanswers rs hrs hrctx
  refine ⟨hidx, Q, mb.majority_of_card hc.mem (fun q hq => hids q (hQ q hq)) ?_, hQ⟩
  rw [← hpeers]
  exact of_decide_eq_true hcard

/-- **A step keeps what is known of the read.** -/
theorem step (h : Reading mb n ch ctx t k ok lead S) (hI : InStep mb S c A) (hn : n ∈ mb.ids)
    (hctx : ctx ≠ 0) (hids : ∀ q, ok q → q ∈ mb.ids)
    (hok : ∀ q ∈ mb.ids, (S.servers q).node.r.currentTerm ≤ t → ok q)
    (hcall : a.node = n → a.event = some (.readIndex ch) → Begins S n ctx t k lead)
    (hstep : Stepped mb opts S a S') : Reading mb n ch ctx t k ok lead S' := by
  have hserver : (∀ p ∈ (S'.servers n).pendingReadIndexes, p.2 = ch →
      p.1 = ctx ∧ lead ∧ ctx < (S'.servers n).nextReadCtx ∧
        (S'.servers n).node.r.Counts ctx t k ok) ∧
      ∀ i, (ch, .ok i) ∈ (S'.servers n).readResults → lead ∧ i = k ∧ ∃ Q, Majority mb.set Q ∧
        ∀ q ∈ Q, ok q := by
    have hchange := hstep.change n
    generalize S'.servers n = s at hchange ⊢
    cases hchange with
    | same => exact ⟨h.channel, h.answered⟩
    | idle ev recovered s haeq hh =>
      have hasks := Server.handle_asks hh
      cases Server.handled_of_eq hh with
      | idle _ hnode hsent hresults hpending hwaiters =>
        refine ⟨fun p hp hpch => ?_, fun i hi =>
          h.answered i ((Server.handle_leaves hh).1.reads ch i hi)⟩
        rcases hasks.pending p hp with hold | ⟨hno, -⟩
        · obtain ⟨hpctx, hlead, hlt, hcounts⟩ := h.channel p hold hpch
          exact ⟨hpctx, hlead, hlt.trans_le hasks.le, by rw [hnode]; exact hcounts⟩
        · cases hno
    | pumped ev recovered s nd rd s' haeq hsees hh hp hs =>
      obtain ⟨-, hstates, hrole, hterm, hreads⟩ := Server.round_turn hh hp hs
      have hans := Server.pumped_answers hs
      have hcalled := fun x => h.called hI hids hok ⟨hn, hsees, hh⟩
        (fun hev => hcall (by rw [haeq]; rfl) (by rw [haeq, hev]; rfl)) (x := x)
      constructor
      · intro p hx hpch
        obtain ⟨hxctx, hlead, hlt, hcounts⟩ := (hcalled p.1 (hpch ▸ hans.pending hx)).1
        refine ⟨hxctx, hlead, hlt.trans_eq hans.next.symm, fun pr hpr => ?_⟩
        have hpr' : s'.node.r.pendingReads ctx = some pr := hpr
        rw [hreads] at hpr'
        show (s'.node.r.role = .leader → s'.node.r.currentTerm = t) ∧ _
        rw [hrole, hterm]
        exact hcounts pr hpr'
      · intro i hi
        rcases hans.results _ hi with hold | ⟨x, hx, hidx, hch⟩
        · exact h.answered i ((Server.handle_leaves hh).1.reads ch i hold)
        · obtain ⟨⟨hxctx, hlead, -⟩, hanswers⟩ := hcalled x.context hch
          rw [hstates] at hx
          obtain ⟨hk, hQ⟩ := hanswers x hx hxctx
          exact ⟨hlead, (Except.ok.inj hidx).trans hk, hQ⟩
    | started storage nd snap s hk hopen hstart =>
      obtain ⟨-, hrest⟩ := Prod.mk.inj (Server.start_reads hstart)
      obtain ⟨hpending, hresults⟩ := Prod.mk.inj hrest
      refine ⟨fun p hp => ?_, fun i hi => ?_⟩
      · rw [hpending] at hp
        cases hp
      · rw [hresults] at hi
        cases hi
  exact ⟨fun m hm hty hdst hc hterm => h.reply_step hI hctx hok hstep hm hty hdst hc hterm,
    hserver.1, hserver.2⟩

omit [StorageEngine ε] in
theorem init (mb : Members) (opts : ℕ → ServerOptions) (eng : ε) (n ch ctx t k : ℕ) (ok : ℕ → Prop)
    (lead : Prop) : Reading mb n ch ctx t k ok lead (Servers.init mb opts eng) where
  reply := fun _ hm => absurd hm List.not_mem_nil
  channel := fun _ hp => absurd hp List.not_mem_nil
  answered := fun _ hi => absurd hi List.not_mem_nil

end Reading

end Servers

/-! ## Linearizable reads -/

section Main

variable {ε : Type} [StorageEngine ε] {mb : Members} {opts : ℕ → ServerOptions} {T : ℕ → ℕ}
    {eng recovered : ε}
  {S₀ S₁ S₂ : Servers ε} {as₀ as₁ : List (ServersAction ε)} {n ch i : ℕ} {cut : Option ℕ}

/-- A channel that has not been used is not waited on, and nothing has been said on it. -/
theorem Servers.Runs.unasked (h : Servers.Runs mb opts eng as₀ S₀) (hn : n ∈ mb.ids)
    (hP : Along (Servers.step mb opts) Servers.Orderly (Servers.init mb opts eng) as₀)
    (hnew : ∀ a ∈ as₀, a.event ≠ some (.readIndex ch)) :
    (∃ c A, Servers.InStep mb S₀ c A) ∧ S₀.Contexts mb ∧ (S₀.servers n).ReadsApplied ∧
      S₀.Reading mb n ch 1 0 0 (· ∈ mb.ids) False := by
  refine exec_induct (I := fun S => (∃ c A, Servers.InStep mb S c A) ∧ S.Contexts mb ∧
    (S.servers n).ReadsApplied ∧ S.Reading mb n ch 1 0 0 (· ∈ mb.ids) False) ?_
      ⟨⟨_, _, Servers.inStep_init mb opts eng⟩, Servers.contexts_init mb opts eng,
        ⟨(fun _ _ hpr => by cases hpr), fun _ _ hi => absurd hi List.not_mem_nil⟩, .init ..⟩
    (along_and hP (along_of_forall hnew _)) h
  rintro S a S' ⟨⟨c, A, hI⟩, hctx, happ, hread⟩ ⟨ha, hna⟩ hstep
  have hstepped := Servers.step_cases hstep
  obtain ⟨c', A', hI', -⟩ := hI.step ha.1 ha.2 hstepped
  exact ⟨⟨c', A', hI'⟩, hctx.step hI hstepped, hI.step_reads hn ha happ hstepped,
    hread.step hI hn Nat.one_ne_zero (fun _ hq => hq) (fun _ hq _ => hq)
      (fun _ hev => absurd hev hna) hstepped⟩

/-- **One read over a whole run.** Its answer is the commit index at which the leader was asked, and
a majority had not gone past the leader's term then. -/
theorem Servers.Runs.read (h₀ : Servers.Runs mb opts eng as₀ S₀)
    (hcall : S₀.step mb opts (.round n (.readIndex ch) cut recovered) = some S₁)
    (h₂ : exec (Servers.step mb opts) S₁ as₁ = some S₂) (hn : n ∈ mb.ids)
    (hP : Along (Servers.step mb opts) Servers.Orderly (Servers.init mb opts eng)
      (as₀ ++ .round n (.readIndex ch) cut recovered :: as₁))
    (hnew : ∀ a ∈ as₀ ++ as₁, a.event ≠ some (.readIndex ch))
    (hi : (ch, .ok i) ∈ (S₂.servers n).readResults) : (S₀.servers n).node.r.role = .leader ∧
      i = (S₀.servers n).node.r.commitIndex ∧ i ≤ (S₂.servers n).lastApplied ∧
        ∃ Q, Majority mb.set Q ∧ ∀ q ∈ Q,
    (S₀.servers q).node.r.currentTerm ≤ (S₀.servers n).node.r.currentTerm := by
  obtain ⟨hP₀, hP₁⟩ := (along_append h₀).mp hP
  obtain ⟨ha, hP₂⟩ := along_cons.mp hP₁
  obtain ⟨⟨c₀, A₀, hI₀⟩, hctx₀, happ₀, hun⟩ :=
    h₀.unasked hn hP₀ fun a ha => hnew a (List.mem_append_left _ ha)
  let ok : ℕ → Prop := fun q => q ∈ mb.ids ∧ ((S₀.servers n).node.r.role = .leader →
    (S₀.servers q).node.r.currentTerm ≤ (S₀.servers n).node.r.currentTerm)
  have hne : (S₀.servers n).nextReadCtx ≠ 0 := (hctx₀.pos n).ne'
  have hids : ∀ q, ok q → q ∈ mb.ids := fun q hq => hq.1
  have hread₀ : S₀.Reading mb n ch (S₀.servers n).nextReadCtx (S₀.servers n).node.r.currentTerm
      (S₀.servers n).node.r.commitIndex ok ((S₀.servers n).node.r.role = .leader) := by
    refine ⟨fun m hm hty hdst hc hterm => ⟨(hI₀.msgOk hm).src, fun hl => ?_⟩,
      fun p hp hpch => (hun.channel p hp hpch).2.1.elim, fun i hi => (hun.answered i hi).1.elim⟩
    exact absurd (hctx₀.no_answer hI₀ hn hl hm hty hdst hterm (hc ▸ hne)) (hc ▸ lt_irrefl _)
  -- the call begins the read
  have hstepped := Servers.step_cases hcall
  obtain ⟨c₁, A₁, hI₁, hg₁⟩ := hI₀.step ha.1 ha.2 hstepped
  have hread₁ :=
    hread₀.step hI₀ hn hne hids (fun q hq hle => ⟨hq, fun _ => hle⟩) (fun _ _ => ⟨rfl, by
    by_contra hsome
    obtain ⟨pr, hpr⟩ := Option.ne_none_iff_exists'.mp hsome
    exact lt_irrefl _ (hctx₀.pending n hn _ pr hpr), fun hl => ⟨hl, rfl, rfl⟩⟩) hstepped
  -- and the rest of the run keeps what it began with
  suffices hall : (∃ c A, Servers.InStep mb S₂ c A ∧ Grows LogEntry.term A₀ A) ∧
      (S₂.servers n).ReadsApplied ∧ S₂.Reading mb n ch (S₀.servers n).nextReadCtx
        (S₀.servers n).node.r.currentTerm (S₀.servers n).node.r.commitIndex ok
          ((S₀.servers n).node.r.role = .leader) by
    obtain ⟨-, happ, hread⟩ := hall
    obtain ⟨hl, hidx, Q, hQ, hok⟩ := hread.answered i hi
    exact ⟨hl, hidx, happ.answered ch i hi, Q, hQ, fun q hq => (hok q hq).2 hl⟩
  refine exec_induct (I := fun S => (∃ c A, Servers.InStep mb S c A ∧ Grows LogEntry.term A₀ A) ∧
    (S.servers n).ReadsApplied ∧ S.Reading mb n ch _ _ _ ok _) ?_
    ⟨⟨c₁, A₁, hI₁, hg₁⟩, hI₀.step_reads hn ha happ₀ hstepped, hread₁⟩
    (along_and (hP₂ S₁ hcall) (along_of_forall (fun a ha => hnew a (List.mem_append_right _ ha)) _))
      h₂
  rintro S a S' ⟨⟨c, A, hI, hg⟩, happ, hread⟩ ⟨ha, hna⟩ hstep
  have hstepped := Servers.step_cases hstep
  obtain ⟨c', A', hI', hg'⟩ := hI.step ha.1 ha.2 hstepped
  refine ⟨⟨c', A', hI', hg.trans hg'⟩, hI.step_reads hn ha happ hstepped,
    hread.step hI hn hne hids (fun q hq hle => ⟨hq, fun _ => ?_⟩)
      (fun _ hev => absurd hev hna) hstepped⟩
  have hterm := hI₀.sim.term_le hI.sim hg hq
  rw [hI₀.shows.nodes, hI.shows.nodes] at hterm
  exact hterm.trans hle

variable [LawfulEngine ε] [LawfulSnapshot ε]

/-- **`LinearizableGet` is linearizable.** Server `n` is asked for a read in the state `S₀`, its
node leads with an entry of its own term at its commit index if it leads at all, and in the state
`S₂` the caller has its answer. Then the engine that the caller reads has the content of a committed
log; every entry that any node had committed in `S₀` is in this log, and so is what was acknowledged
to any caller in `S₀`. -/
theorem linearizable_get (heng : get eng = fun _ => none) (h₀ : Servers.Runs mb opts eng as₀ S₀)
    (hcall : S₀.step mb opts (.round n (.readIndex ch) cut recovered) = some S₁)
    (h₂ : exec (Servers.step mb opts) S₁ as₁ = some S₂) (hn : n ∈ mb.ids)
    (hP : Along (Servers.step mb opts) (Servers.Undisturbed opts T) (Servers.init mb opts eng)
      (as₀ ++ .round n (.readIndex ch) cut recovered :: as₁))
    (hnew : ∀ a ∈ as₀ ++ as₁, a.event ≠ some (.readIndex ch))
    (hready : (S₀.servers n).node.r.role = .leader →
      (S₀.servers n).node.r.termAt (S₀.servers n).node.r.commitIndex =
        some (S₀.servers n).node.r.currentTerm)
    (hi : (ch, .ok i) ∈ (S₂.servers n).readResults) (hT : T n ≤ (S₂.servers n).lastApplied) :
    ∃ H, S₂.CommittedUpTo (S₂.servers n).lastApplied H ∧
      get (S₂.servers n).eng = storeAt H H.length ∧ (∀ e ∈ S₀.committed, e ∈ H) ∧
      ∀ ch', (ch', .ok ()) ∈ S₀.results → ∃ e e', (ch', e) ∈ S₀.given ∧ e' ∈ H ∧
        e'.index = e.index ∧ e'.data = e.data := by
  have hrun : Servers.Runs mb opts eng (as₀ ++ .round n (.readIndex ch) cut recovered :: as₁) S₂ :=
    exec_append.mpr ⟨S₀, h₀, exec_cons.mpr ⟨S₁, hcall, h₂⟩⟩
  obtain ⟨hl, hidx, happ, Q, hQ, hle⟩ :=
    h₀.read hcall h₂ hn (along_of_imp (fun _ _ hu => hu.1.1) hP) hnew hi
  obtain ⟨⟨c₀, A₀, hI₀, hF₀⟩, -⟩ := h₀.holds heng ((along_append h₀).mp hP).1
  obtain ⟨-, hholds⟩ := hrun.holds heng hP
  obtain ⟨H, hH, hget⟩ := (hholds n hn).content hT
  have hsub : S₀.committed ⊆ S₂.committed :=
    Servers.exec_committed_subset (exec_cons.mpr ⟨S₁, hcall, h₂⟩)
  have hmem : ∀ e ∈ S₀.committed, e ∈ H := by
    intro e he
    obtain ⟨K, hK, heK⟩ := hF₀.committed e he
    obtain ⟨t, hbacked⟩ := hK
    -- nobody had committed more than the leader
    have hlen : K.length ≤ (S₀.servers n).node.r.commitIndex := by
      have hnode : ∀ q, c₀.nodes q = (S₀.servers q).node := hI₀.shows.nodes
      have hbound :=
        hI₀.sim.backed_le_of_ready hn (by rw [hnode]; exact hl) (by rw [hnode]; exact hready hl) hQ
          (fun q hq => by rw [hnode, hnode]; exact hle q hq) hbacked
      rwa [hnode] at hbound
    have hindex := (hI₀.sim.good.indexed_decided ⟨t, hbacked⟩).index_le heK
    exact (hH.mem e).mpr ⟨hsub he, by omega⟩
  refine ⟨H, hH, hget, hmem, fun ch' hok => ?_⟩
  obtain ⟨e, e', hgiven, hcom, -, hindex, hdata⟩ := h₀.told.2.results ch' hok
  exact ⟨e, e', hgiven, hmem e' hcom, hindex, hdata⟩

end Main

/-- Node two acknowledges the read of node one. -/
def ackRead : List (ServersAction FlakyStore) :=
  [roundOf 2 (.recv { type := .appendEntries, fromId := 1, toId := 2, term := 1, prevLogIndex := 1,
                      prevLogTerm := 1, leaderCommit := 1, readContext := 1 }),
    roundOf 1
                       (.recv
                         { type := .appendEntriesResponse, fromId := 2, toId := 1, term := 1,
                           success := true, matchIndex := 1, readContext := 1 })]

/-- Node one reads the `Put` that it has acknowledged. -/
theorem linearizable_get_put : ∃ S₀ S₁ S₂ : Servers FlakyStore,
    Servers.Runs .three (fun _ => {}) {} (electServer 1 2 0 1 ++ commitPut) S₀ ∧
    S₀.step .three (fun _ => {}) (roundOf 1 (.readIndex 7)) = some S₁ ∧
    exec (Servers.step .three fun _ => {}) S₁ ackRead = some S₂ ∧ (1, .ok ()) ∈ S₀.results ∧
    (7, .ok 1) ∈ (S₂.servers 1).readResults ∧
    ∃ H, get (S₂.servers 1).eng = storeAt H H.length ∧
      ∃ e e', (1, e) ∈ S₀.given ∧ e' ∈ H ∧ e'.index = e.index ∧ e'.data = e.data := by
  have hrun : ((exec (Servers.step .three fun _ => {}) (Servers.init .three (fun _ => {}) {})
      (electServer 1 2 0 1 ++ commitPut)).bind fun S₀ =>
        (S₀.step .three (fun _ => {}) (roundOf 1 (.readIndex 7))).bind fun S₁ =>
          (exec (Servers.step .three fun _ => {}) S₁ ackRead).map fun S₂ =>
            decide ((1, .ok ()) ∈ S₀.results ∧ (7, .ok 1) ∈ (S₂.servers 1).readResults ∧
              (S₀.servers 1).node.r.termAt (S₀.servers 1).node.r.commitIndex =
                some (S₀.servers 1).node.r.currentTerm)) = some true := by
    decide +kernel
  have hworks : Along (Servers.step .three fun _ => {}) (fun S a => Servers.Orderly S a ∧ a.Works S)
      (Servers.init .three (fun _ => {}) ({} : FlakyStore))
      (electServer 1 2 0 1 ++ commitPut ++ roundOf 1 (.readIndex 7) :: ackRead) := by
    decide +kernel
  obtain ⟨S₀, h₀, hrun⟩ := Option.bind_eq_some_iff.mp hrun
  obtain ⟨S₁, h₁, hrun⟩ := Option.bind_eq_some_iff.mp hrun
  obtain ⟨S₂, h₂, hrun⟩ := Option.map_eq_some_iff.mp hrun
  obtain ⟨hok, hi, hready⟩ := of_decide_eq_true hrun
  obtain ⟨H, -, hget, -, hacked⟩ := linearizable_get (T := fun _ => 0) rfl h₀ h₁ h₂ (by decide)
    (undisturbed_of_empty hworks (by decide)) (by decide) (fun _ => hready) hi (Nat.zero_le _)
  exact ⟨S₀, S₁, S₂, h₀, h₁, h₂, hok, hi, H, hget, hacked 1 hok⟩

end KvStore
