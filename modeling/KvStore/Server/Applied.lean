import KvStore.Server.Pump

/-!
# What a server has applied

One process of a server, from an empty engine on, as its engine sees it: before every `pump` the
node may have moved on in any way that follows the committed log `H`, and the engine's calls may
fail.

* `storeAt H i`: the content after the first `i` committed entries.
* `Follows H nd`: the node's log has the entries of `H` up to its commit index, and a snapshot it
  hands to its server holds the content at the snapshot's index.
* `Serves H P s`: `s` is reached by pumps whose servers met `P` before the pump.
* `Server.Sound`: the calls a pump will make. The engine accepts the batch, and the entries to apply
  start right after the last applied one.

`applied_content` says that the pumps that are all sound leave the engine with the content at
`lastApplied`. The two failures `Sound` excludes break this (`applied_diverges`): a batch that fails
is never tried again, and a snapshot that is not restored leaves a gap that `Entries` skips.
-/

namespace KvStore

open StorageEngine

/-! ## The committed log -/

/-- The content after the well-formed commands of the first `i` entries. -/
def storeAt (H : List LogEntry) (i : ℕ) : Content := applyOps (fun _ => none) (opsOf (H.take i))

theorem applyOps_append (c : Content) (ops ops' : List BatchOp) :
    applyOps c (ops ++ ops') = applyOps (applyOps c ops) ops' := List.foldl_append

/-- What the entries of a prefix make of a content, from an index of the prefix on. -/
theorem applyOps_take_length {H p : List LogEntry} (hp : p <+: H) {i : ℕ} (hi : i ≤ p.length)
    (c : Content) : applyOps c (opsOf (H.take p.length)) =
      applyOps (applyOps c (opsOf (H.take i))) (opsOf (p.drop i)) := by
  rw [← List.prefix_iff_eq_take.mp hp, Consensus.take_eq_of_isPrefix hp hi, ← applyOps_append,
    ← opsOf_append, List.take_append_drop]

/-- What a server relies on in its node. -/
structure Follows (H : List LogEntry) (nd : Node) : Prop where
  log : ∃ l b, Spans nd.r l b ∧ l.take nd.r.commitIndex <+: H
  snapshot : ∀ snap, nd.r.pendingSnapshotToApply = some snap →
    ∃ kvs, decodeSnapshotEntries snap.data = some kvs ∧
      contentOf kvs = storeAt H snap.lastIncludedIndex

/-! ## One process of a server -/

namespace Server

variable {ε : Type} [StorageEngine ε]

/-- The entries the node would give `applyCommitted` start right after the last applied one. -/
def Gapless (s : Server ε) : Prop :=
  ∀ first, s.node.r.firstIndex = some first → first ≤ s.lastApplied ∨ s.node.r.commitIndex ≤ first

/-- The engine accepts the batch that `applyCommitted` would give it. -/
def Accepts (s : Server ε) : Prop :=
  ∀ es, s.node.r.entries s.lastApplied s.node.r.commitIndex = some es → opsOf es ≠ [] →
    (applyBatch s.eng (opsOf es)).2 = none

/-- `pump` will apply entries without a gap to an engine that accepts them. -/
def Sound (s : Server ε) : Prop :=
  ∀ nd rd, s.node.persist = some (nd, rd) → (s.delivered nd rd).Gapless ∧
    (s.delivered nd rd).Accepts

end Server

/-- The states of a server in one process: it starts with an empty engine, the event loop changes
neither the engine nor `lastApplied` between pumps, and `P` holds of every server that pumps. -/
inductive Serves {ε : Type} [StorageEngine ε] (H : List LogEntry) (P : Server ε → Prop) :
    Server ε → Prop
  | start {s : Server ε} (empty : get s.eng = fun _ => none) (applied : s.lastApplied = 0) :
      Serves H P s
  | loop {s s' : Server ε} (before : Serves H P s) (eng : s'.eng = s.eng)
      (applied : s'.lastApplied = s.lastApplied) : Serves H P s'
  | pump {s s' : Server ε} (before : Serves H P s) (follows : Follows H s.node) (meets : P s)
      (returns : s.pump = .ok s') : Serves H P s'

section Rounds

variable {ε : Type} {s s₁ s' : Server ε} {ev : Event} {pumps : Bool}

variable [StorageEngine ε] {H : List LogEntry} {P : Server ε → Prop}

/-- A round of the event loop, if the node it pumps follows the committed log. -/
theorem Serves.round (h : Serves H P s) (hr : s.round ev = .ok s')
    (hpump : ∀ s₁, s.handle ev = .ok (s₁, true) → Follows H s₁.node ∧ P s₁) : Serves H P s' := by
  unfold Server.round at hr
  cases hh : s.handle ev with
  | error s₁ =>
    rw [hh] at hr
    cases hr
  | ok p =>
    obtain ⟨s₁, pumps⟩ := p
    obtain ⟨hleaves, -⟩ := Server.handle_leaves hh
    rw [hh] at hr
    cases pumps with
    | false =>
      cases hr
      exact h.loop hleaves.eng hleaves.applied
    | true =>
      obtain ⟨hf, hP⟩ := hpump s₁ hh
      exact (h.loop hleaves.eng hleaves.applied).pump hf hP hr

end Rounds

/-! ## The content of the engine -/

namespace Server

variable {ε : Type} [StorageEngine ε] {s s' : Server ε} {H : List LogEntry}

/-- The engine has the content of the committed log at `lastApplied`. -/
def Current (H : List LogEntry) (s : Server ε) : Prop := get s.eng = storeAt H s.lastApplied

theorem Current.of_eq (h : s.Current H) (heng : s'.eng = s.eng)
    (happ : s'.lastApplied = s.lastApplied) : s'.Current H := by
  unfold Current
  rw [heng, happ]
  exact h

/-- The engine has what the entries up to `lastApplied` make of the content `c`. From an empty store
on, this is `Current`. -/
def Replays (H : List LogEntry) (c : Content) (s : Server ε) : Prop :=
  get s.eng = applyOps c (opsOf (H.take s.lastApplied))

variable [LawfulEngine ε] {c : Content}

/-- Applying what follows `lastApplied` in a prefix `p` of the committed log. -/
theorem Replays.applyEntries (h : s.Replays H c) {p : List LogEntry} (hp : p <+: H)
    (hidx : Indexed p) (hacc : opsOf (p.drop s.lastApplied) ≠ [] →
      (applyBatch s.eng (opsOf (p.drop s.lastApplied))).2 = none) :
    (s.applyEntries (p.drop s.lastApplied)).Replays H c := by
  rcases Nat.lt_or_ge p.length s.lastApplied with hgt | hle
  · rw [List.drop_eq_nil_of_le hgt.le, Server.applyEntries, if_pos rfl]
    exact h
  obtain ⟨w, rs, heq⟩ := s.applyEntries_eq (p.drop s.lastApplied)
  unfold Replays
  rw [heq, getLast_index_drop hidx hle, applyOps_take_length hp hle, ← h]
  dsimp only
  by_cases hops : opsOf (p.drop s.lastApplied) = []
  · rw [if_pos hops, hops]
    rfl
  · rw [if_neg hops]
    exact LawfulEngine.apply_ok _ _ (hacc hops)

theorem Replays.applyCommitted (h : s.Replays H c) {l : List LogEntry} {b : ℕ}
    (hs : Spans s.node.r l b) (hp : l.take s.node.r.commitIndex <+: H) (hgap : s.Gapless)
    (hacc : s.Accepts) (hrun : s.applyCommitted = .ok s') : s'.Replays H c := by
  unfold Server.applyCommitted at hrun
  split_ifs at hrun
  · cases hrun
    exact h
  have hes := hs.entries s.lastApplied s.node.r.commitIndex
  rw [hes] at hrun
  cases hrun
  rcases hgap b hs.firstIndex with hb | hb
  · rw [max_eq_left hb] at hes ⊢
    exact h.applyEntries hp (hs.indexed.of_isPrefix (List.take_prefix _ _)) (hacc _ hes)
  · -- nothing that is committed is left in the window
    rw [List.drop_eq_nil_of_le (by rw [List.length_take]; omega)]
    exact h

theorem Current.delivered (h : s.Current H) {nd : Node} {rd : Ready}
    (hsnap : ∀ snap, rd.snapshotToApply = some snap → ∃ kvs,
      decodeSnapshotEntries snap.data = some kvs ∧
        contentOf kvs = storeAt H snap.lastIncludedIndex) :
    (s.delivered nd rd).Current H := by
  unfold Server.delivered
  dsimp only
  split
  · exact h
  · next snap hrd =>
    unfold Server.restore
    dsimp only
    split
    · next eng e hres =>
      have := LawfulEngine.restore_err s.eng snap.data (by rw [hres]; exact Option.some_ne_none e)
      rw [hres] at this
      exact this.trans h
    · next eng hres =>
      obtain ⟨kvs, hkvs, hget⟩ := LawfulEngine.restore_ok s.eng snap.data (by rw [hres])
      obtain ⟨kvs', hkvs', hcont⟩ := hsnap snap hrd
      rw [hres] at hget
      cases hkvs.symm.trans hkvs'
      exact hget.trans hcont

/-- A sound pump keeps the engine current. -/
theorem Current.pump (h : s.Current H) (hf : Follows H s.node) (hsound : s.Sound)
    (hrun : s.pump = .ok s') : s'.Current H := by
  cases hp : s.node.persist with
  | none =>
    rw [pump_eq_error hp] at hrun
    cases hrun
  | some q =>
    obtain ⟨nd, rd⟩ := q
    obtain ⟨hadv, -, -, hsnap⟩ := Node.persist_cases hp
    obtain ⟨hlog, hcommit, -⟩ := Raft.advance_keeps hadv
    obtain ⟨hgap, hacc⟩ := hsound nd rd hp
    obtain ⟨l, b, hs, hpre⟩ := hf.log
    have hcur : (s.delivered nd rd).Replays H fun _ => none :=
      h.delivered fun snap hrd => hf.snapshot snap (by rw [← hsnap, hrd])
    have hnode := (s.delivered_frame nd rd).1
    have hs' : Spans (s.delivered nd rd).node.r l b := by
      rw [hnode]
      exact ⟨hlog.trans hs.log_eq, hs.le, hs.indexed⟩
    rw [pump_eq hp] at hrun
    obtain ⟨s₂, s₃, happ, hms, rfl⟩ := pumped_ok hrun
    have hcur₂ : s₂.Current H :=
      hcur.applyCommitted hs' (by rw [hnode, hcommit]; exact hpre) hgap hacc happ
    have hcur₃ : s₃.Current H := by
      rcases maybeSnapshot_ok hms with ⟨-, rfl⟩ | ⟨data, r, err, -, -, rfl⟩
      · exact hcur₂
      · exact hcur₂.of_eq rfl rfl
    obtain ⟨ps, rs, heq, -⟩ := foldl_resolveRead_eq rd.readStates s₃
    rw [heq]
    exact hcur₃.of_eq rfl rfl

end Server

section

variable {ε : Type} [StorageEngine ε] [LawfulEngine ε] {H : List LogEntry} {s : Server ε}

/-- **The applied state is the committed prefix**, as long as every pump is sound: the engine holds
what the well-formed commands of the entries up to `lastApplied` make of an empty store. -/
theorem applied_content (h : Serves H Server.Sound s) (key : Bytes) :
    get s.eng key = storeAt H s.lastApplied key := by
  suffices hcur : s.Current H from congrFun hcur key
  induction h with
  | start empty applied =>
    unfold Server.Current
    rw [empty, applied]
    rfl
  | loop _ eng applied ih => exact ih.of_eq eng applied
  | pump _ follows meets returns ih => exact ih.pump follows meets returns

end

/-! ## Engines that fail -/

/-- The entry of term one that puts a value. -/
def putAt (index : ℕ) (key value : UInt8) : LogEntry :=
  ⟨1, index, encodeCommand ⟨cmdPut, [key], [value]⟩⟩

/-- Node three of three, on an empty store with the given failures to come. -/
def nodeThree (fails : List Bool) : Server FlakyStore :=
  { node := (Cluster.init .three).nodes 3, eng := ⟨[], fails⟩ }

/-- The leader of term one sends entries, all of them committed. -/
def commitMsg (prev : ℕ) (prevTerm : ℕ) (es : List LogEntry) : Message :=
  { type := .appendEntries, fromId := 1, toId := 3, term := 1, prevLogIndex := prev,
    prevLogTerm := prevTerm, entries := es, leaderCommit := prev + es.length }

/-- The leader of term one sends the snapshot of the first entry. -/
def snapshotMsg : Message :=
  { type := .installSnapshot, fromId := 1, toId := 3, term := 1,
    snapshot := ⟨1, 1, encodeSnapshotEntries [([7], [8])]⟩ }

/-- The server that pumps after a message, and what the pump leaves. -/
def Server.recvPump (s : Server FlakyStore) (m : Message) :
    Option (Server FlakyStore × Server FlakyStore) :=
  match s.handle (.recv m) with
  | .ok (s₁, true) => match s₁.pump with
    | .ok s' => some (s₁, s')
    | .error _ => none
  | _ => none

theorem Serves.recvPump {H : List LogEntry} {P : Server FlakyStore → Prop}
    {s s₁ s' : Server FlakyStore} {m : Message} (h : Serves H P s)
    (hr : s.recvPump m = some (s₁, s')) (hf : Follows H s₁.node) (hP : P s₁) : Serves H P s' := by
  unfold Server.recvPump at hr
  split at hr
  · next s₂ hh =>
    split at hr
    · next s₃ hp =>
      cases hr
      obtain ⟨hleaves, -⟩ := Server.handle_leaves hh
      exact (h.loop hleaves.eng hleaves.applied).pump hf hP hp
    · cases hr
  · cases hr

/-- What node three has after the leader's first entry. -/
theorem follows_first {nd : Node} (hlog : nd.r.log = window [putAt 1 7 8] 0)
    (hc : nd.r.commitIndex = 1) (hsnap : nd.r.pendingSnapshotToApply = none) (es : List LogEntry) :
    Follows (putAt 1 7 8 :: es) nd where
  log := ⟨[putAt 1 7 8], 0, ⟨hlog, by decide, by decide⟩, by rw [hc]; exact ⟨es, rfl⟩⟩
  snapshot := fun snap h => by rw [hsnap] at h; cases h

/-- A batch that the engine accepts is seen. -/
theorem applied_content_first : ∃ s : Server FlakyStore,
    Serves [putAt 1 7 8] Server.Sound s ∧ s.lastApplied = 1 ∧ get s.eng [7] = some [8] := by
  have hrun : (((nodeThree []).recvPump (commitMsg 0 0 [putAt 1 7 8])).map fun p =>
      decide (p.1.node.r.log = window [putAt 1 7 8] 0 ∧ p.1.node.r.commitIndex = 1 ∧
        p.1.node.r.pendingSnapshotToApply = none ∧ p.1.eng.fails = [] ∧
        p.2.lastApplied = 1)) = some true := by
    decide +kernel
  obtain ⟨⟨s₁, s'⟩, hr, hrun⟩ := Option.map_eq_some_iff.mp hrun
  obtain ⟨hlog, hc, hsnap, (hfails : s₁.eng.fails = []), happ'⟩ := of_decide_eq_true hrun
  have hf := follows_first hlog hc hsnap []
  have hsound : s₁.Sound := by
    intro nd rd hp
    obtain ⟨hadv, -, -, hrd⟩ := Node.persist_cases hp
    have hdel : s₁.delivered nd rd = { s₁ with node := nd, sent := s₁.sent ++ rd.messages } := by
      unfold Server.delivered
      rw [hrd, hsnap]
    rw [hdel]
    constructor
    · intro first hfirst
      left
      have : nd.r.firstIndex = some 0 := by
        rw [Raft.firstIndex, (Raft.advance_keeps hadv).1, hlog]
        rfl
      cases this.symm.trans hfirst
      exact Nat.zero_le _
    · intro es _ _
      show (applyBatch s₁.eng (opsOf es)).2 = none
      have hok : s₁.eng.fails.headD false = false := by rw [hfails]; rfl
      simp only [applyBatch, hok, Bool.false_eq_true, if_false]
  have hserves : Serves [putAt 1 7 8] Server.Sound s' :=
    (Serves.start rfl rfl).recvPump hr hf hsound
  refine ⟨s', hserves, happ', ?_⟩
  rw [applied_content hserves, happ']
  decide +kernel

/-- **A failed call is not made good.** On the left the engine refuses the batch with the first
entry: `lastApplied` moves on and the entry is not in the store. On the right it refuses to restore
a snapshot of the first entry: the next entry is applied without it. -/
theorem applied_diverges :
    (∃ s : Server FlakyStore, Serves [putAt 1 7 8] (fun _ => True) s ∧ s.lastApplied = 1 ∧
      get s.eng [7] = none ∧ storeAt [putAt 1 7 8] 1 [7] = some [8]) ∧
    ∃ s : Server FlakyStore, Serves [putAt 1 7 8, putAt 2 9 9] (fun _ => True) s ∧
      s.lastApplied = 2 ∧ get s.eng [7] = none ∧
        storeAt [putAt 1 7 8, putAt 2 9 9] 2 [7] = some [8] := by
  constructor
  · have hrun : (((nodeThree [true]).recvPump (commitMsg 0 0 [putAt 1 7 8])).map fun p =>
        decide (p.1.node.r.log = window [putAt 1 7 8] 0 ∧ p.1.node.r.commitIndex = 1 ∧
          p.1.node.r.pendingSnapshotToApply = none ∧ p.2.lastApplied = 1 ∧
          get p.2.eng [7] = none)) = some true := by
      decide +kernel
    obtain ⟨⟨s₁, s'⟩, hr, hrun⟩ := Option.map_eq_some_iff.mp hrun
    obtain ⟨hlog, hc, hsnap, happ, hget⟩ := of_decide_eq_true hrun
    have hserves := (Serves.start (H := [putAt 1 7 8]) (P := fun _ => True) rfl rfl).recvPump hr
      (follows_first hlog hc hsnap []) trivial
    exact ⟨s', hserves, happ, hget, by decide +kernel⟩
  · have hrun : (((nodeThree [true]).recvPump snapshotMsg).bind fun p =>
        (p.2.recvPump (commitMsg 1 1 [putAt 2 9 9])).map fun q =>
          decide (p.1.node.r.log = window [putAt 1 7 8] 1 ∧
            p.1.node.r.pendingSnapshotToApply = some ⟨1, 1, encodeSnapshotEntries [([7], [8])]⟩ ∧
            q.1.node.r.log = window [putAt 1 7 8, putAt 2 9 9] 1 ∧
            q.1.node.r.pendingSnapshotToApply = none ∧ q.2.lastApplied = 2 ∧
            get q.2.eng [7] = none)) = some true := by
      decide +kernel
    obtain ⟨⟨s₁, s₂⟩, hr, hrun⟩ := Option.bind_eq_some_iff.mp hrun
    obtain ⟨⟨s₃, s₄⟩, hr', hrun⟩ := Option.map_eq_some_iff.mp hrun
    obtain ⟨hlog, hsnap, hlog', hsnap', happ, hget⟩ := of_decide_eq_true hrun
    have hf : Follows [putAt 1 7 8, putAt 2 9 9] s₁.node :=
      { log := ⟨[putAt 1 7 8], 1, ⟨hlog, by decide, by decide⟩,
          (List.take_prefix _ _).trans ⟨[putAt 2 9 9], rfl⟩⟩
        snapshot := fun snap h => by
          cases hsnap.symm.trans h
          refine ⟨[([7], [8])], by decide +kernel, ?_⟩
          exact FlakyStore.contentOf_foldl_put (opsOf [putAt 1 7 8]) [] }
    have hf' : Follows [putAt 1 7 8, putAt 2 9 9] s₃.node :=
      { log := ⟨[putAt 1 7 8, putAt 2 9 9], 1, ⟨hlog', by decide, by decide⟩, List.take_prefix _ _⟩
        snapshot := fun snap h => by cases hsnap'.symm.trans h }
    have hserves := ((Serves.start (H := [putAt 1 7 8, putAt 2 9 9]) (P := fun _ => True)
      rfl rfl).recvPump hr hf trivial).recvPump hr' hf' trivial
    exact ⟨s₄, hserves, happ, hget, by decide +kernel⟩

end KvStore
