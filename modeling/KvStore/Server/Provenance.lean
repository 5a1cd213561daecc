import KvStore.Raft.Emits
import KvStore.Server.Level

/-!
# Where snapshots come from

A snapshot is made by `maybeSnapshot` and nowhere else. Everything that happens to it afterwards
moves it around: `Persist` stores it, a leader sends it, a follower installs it, a restart reads it
back.

* `Server.takes`: the arguments of the `CreateSnapshot` that a round calls, if it calls it.
* `Servers.Carries`: the snapshot is somewhere in the system, with a node, in a storage or in a
  message.
* `Servers.InStep.carries_step`: what is carried after a step was carried before, or the step has
  made it.
-/

namespace KvStore

open Machine StorageEngine

/-! ## The stored snapshot -/

namespace Node

variable {nd nd' : Node} {rd : Ready} {sv : Save}

/-- The stored snapshot after a save, whole or cut short, is the one before, or the node's own if it
has one. -/
theorem save_snap (hrd : nd.r.ready = some rd) (h : nd.save rd = some sv) (k : ℕ) :
    (replayAll (sv.cut nd.storage k)).snap = (replayAll nd.storage).snap ∨
      (replayAll (sv.cut nd.storage k)).snap = nd.r.snapshot ∧
        nd.r.snapshot.lastIncludedIndex ≠ 0 := by
  unfold Node.save at h
  cases hsnap : rd.snapshot with
  | some snap =>
    simp only [hsnap, Option.bind_eq_bind, Option.bind_eq_some_iff, pure] at h
    obtain ⟨last, -, surviving, -, h⟩ := h
    obtain rfl := Option.some.inj h
    obtain ⟨-, -, -, hown⟩ := Raft.ready_outbox hrd
    rw [hsnap] at hown
    split_ifs at hown with hlt
    obtain rfl := Option.some.inj hown
    rw [Save.cut]
    split_ifs
    · exact Or.inl rfl
    · rw [replayAll, saveSnapshot, List.foldl_cons, List.foldl_cons, foldl_replay_logEntry]
      exact Or.inr ⟨rfl, Nat.ne_zero_of_lt hlt⟩
  | none =>
    simp only [hsnap] at h
    obtain rfl := Option.some.inj h
    left
    rw [Save.cut, replayAll_append]
    refine foldl_replay_snap (fun rec hrec snap heq => ?_) _
    subst heq
    rcases List.mem_append.mp (List.mem_of_mem_take hrec) with hrec | hrec
    · cases hhs : rd.hardState with
      | none => simp [hhs] at hrec
      | some hs => simp [hhs, saveHardState] at hrec
    · unfold saveEntries at hrec
      split_ifs at hrec
      · cases hrec
      · simp at hrec

theorem persistCut_snap {k : ℕ} {d : List Record} (h : nd.persistCut k = some d) :
    (replayAll d).snap = (replayAll nd.storage).snap ∨
      (replayAll d).snap = nd.r.snapshot ∧ nd.r.snapshot.lastIncludedIndex ≠ 0 := by
  simp only [Node.persistCut, Option.bind_eq_bind, Option.bind_eq_some_iff, pure] at h
  obtain ⟨rd, hrd, sv, hsv, h⟩ := h
  obtain rfl := Option.some.inj h
  exact save_snap hrd hsv k

theorem persist_snap (h : nd.persist = some (nd', rd)) :
    (replayAll nd'.storage).snap = (replayAll nd.storage).snap ∨
      (replayAll nd'.storage).snap = nd.r.snapshot ∧ nd.r.snapshot.lastIncludedIndex ≠ 0 := by
  simp only [Node.persist, Option.bind_eq_bind, Option.bind_eq_some_iff, pure] at h
  obtain ⟨rd, hrd, sv, hsv, r, -, h⟩ := h
  obtain ⟨rfl, -⟩ := Prod.mk.inj (Option.some.inj h)
  -- a save that completes is one that is cut short after its last write
  have hcut : ∃ k, sv.run nd.storage = sv.cut nd.storage k := by
    cases sv with
    | append records => exact ⟨records.length, by rw [Save.run, Save.cut, List.take_length]⟩
    | replace records => exact ⟨1, rfl⟩
  obtain ⟨k, hk⟩ := hcut
  show (replayAll (sv.run nd.storage)).snap = _ ∨ (replayAll (sv.run nd.storage)).snap = _ ∧ _
  rw [hk]
  exact save_snap hrd hsv k

end Node

/-! ## The snapshot that a round takes -/

namespace Server

variable {ε : Type} [StorageEngine ε] {s s₁ s' : Server ε} {ev : Event} {nd : Node} {rd : Ready}

/-- The server in a round, once `Persist` has returned and a snapshot has been restored, if it gets
there. -/
def delivers (s : Server ε) (ev : Event) : Option (Server ε) :=
  match s.handle ev with
  | .ok (s, true) => s.node.persist.map fun p => s.delivered p.1 p.2
  | _ => none

/-- The arguments of the `CreateSnapshot` that a round calls, if it calls it. -/
def takes (s : Server ε) (ev : Event) : Option (ℕ × Bytes) :=
  (s.delivers ev).bind fun s =>
    match s.applyCommitted with
    | .ok s => s.snapshotCall
    | .error _ => none

theorem delivers_eq (hh : s.handle ev = .ok (s₁, true)) (hp : s₁.node.persist = some (nd, rd)) :
    s.delivers ev = some (s₁.delivered nd rd) := by
  rw [delivers, hh]
  simp only [hp, Option.map_some]

theorem takes_eq {s₂ : Server ε} (hh : s.handle ev = .ok (s₁, true))
    (hp : s₁.node.persist = some (nd, rd)) (happ : (s₁.delivered nd rd).applyCommitted = .ok s₂) :
    s.takes ev = s₂.snapshotCall := by
  rw [takes, delivers_eq hh hp, Option.bind_some, happ]

/-- A round that takes a snapshot pumps. -/
theorem takes_some {p : ℕ × Bytes} (h : s.takes ev = some p) :
    ∃ s₁ nd rd s₂, s.handle ev = .ok (s₁, true) ∧ s₁.node.persist = some (nd, rd) ∧
      (s₁.delivered nd rd).applyCommitted = .ok s₂ ∧ s₂.snapshotCall = some p := by
  obtain ⟨d, hd, h⟩ := Option.bind_eq_some_iff.mp h
  unfold delivers at hd
  split at hd
  · next s₁ hh =>
    obtain ⟨⟨nd, rd⟩, hp, rfl⟩ := Option.map_eq_some_iff.mp hd
    dsimp only at h
    split at h
    · next s₂ happ => exact ⟨s₁, nd, rd, s₂, hh, hp, happ, h⟩
    · cases h
  · cases hd

/-- The snapshot and the storage that a pump leaves. -/
theorem pumped_snapshot (hh : s.handle ev = .ok (s₁, true)) (hp : s₁.node.persist = some (nd, rd))
    (hs : s₁.pumped nd rd = .ok s') : s'.node.storage = nd.storage ∧
      (s'.node.r.snapshot = nd.r.snapshot ∨
        s.takes ev = some (s'.node.r.snapshot.lastIncludedIndex, s'.node.r.snapshot.data)) := by
  obtain ⟨s₂, s₃, happ, hsnap, rfl⟩ := pumped_ok hs
  obtain ⟨ps, rs, heq, -⟩ := foldl_resolveRead_eq rd.readStates s₃
  rw [heq]
  have hnode : s₂.node = nd := by
    rcases (s₁.delivered nd rd).applyCommitted_cases with herr | ⟨s, hok, hnode, -⟩
    · rw [happ] at herr
      cases herr
    · cases happ.symm.trans hok
      exact hnode.trans (s₁.delivered_frame nd rd).1
  rcases maybeSnapshot_ok hsnap with ⟨-, rfl⟩ | ⟨data, r, err, hcall, hrun, rfl⟩
  · exact ⟨by rw [hnode], Or.inl (by rw [hnode])⟩
  refine ⟨by rw [hnode], ?_⟩
  cases err with
  | error e =>
    left
    rcases Raft.createSnapshot_eq hrun with ⟨rfl, -⟩ | ⟨hok, -⟩
    · rw [hnode]
    · cases hok
  | ok u =>
    right
    obtain ⟨-, -, hindex, hdata, -⟩ := Raft.createSnapshot_ok hrun
    rw [takes_eq hh hp happ, hcall]
    dsimp only
    rw [hindex, hdata]

end Server

/-! ## What is carried -/

/-- The snapshot is somewhere in the system: with a node, in a storage or in a message. -/
inductive Servers.Carries {ε : Type} (mb : Members) (S : Servers ε) (snap : Snapshot) : Prop
  | node (n : ℕ) (hn : n ∈ mb.ids) (h : (S.servers n).node.r.snapshot = snap)
  | stored (n : ℕ) (hn : n ∈ mb.ids) (h : (replayAll (S.servers n).node.storage).snap = snap)
  | message (m : Message) (hm : m ∈ S.net) (hty : m.type = .installSnapshot) (h : m.snapshot = snap)

namespace Servers.InStep

variable {ε : Type} {mb : Members} {opts : ℕ → ServerOptions} {S S' T : Servers ε} {c : Cluster}
    {A : Abs} {n : ℕ}
  {ev : Event} {s s' : Server ε} {nd : Node} {rd : Ready} {snap : Snapshot}

/-- The node of a round has kept its snapshot or taken over one from a message. -/
theorem carries_handled (hn : n ∈ mb.ids) (hsees : S.Sees n ev)
    (hh : (S.servers n).handle ev = .ok (s, true)) : S.Carries mb s.node.r.snapshot := by
  have hover := Op.run_handover (Server.handle_call hh)
  generalize hop : (S.servers n).call ev = op at hover
  cases hover with
  | kept handed => exact .node n hn (congrArg Prod.fst handed).symm
  | compacted => exact absurd hop (Server.call_ne_createSnapshot _ _ _ _)
  | @installed m _ _ installs handed =>
    obtain rfl := Server.call_step hop
    exact .message m hsees.2 installs.1 (congrArg Prod.fst handed).symm

/-- What `Persist` leaves in memory and on disk. -/
theorem carries_persisted (hn : n ∈ mb.ids) (hsees : S.Sees n ev)
    (hh : (S.servers n).handle ev = .ok (s, true)) (hp : s.node.persist = some (nd, rd)) :
    S.Carries mb nd.r.snapshot ∧ S.Carries mb (replayAll nd.storage).snap := by
  have hs := carries_handled hn hsees hh
  obtain ⟨-, -, hsnap, -, -⟩ := Raft.advance_keeps (Node.persist_cases hp).1
  refine ⟨hsnap ▸ hs, ?_⟩
  rcases Node.persist_snap hp with heq | ⟨heq, -⟩
  · rw [heq, (Server.handle_leaves hh).1.storage]
    exact .stored n hn rfl
  · rw [heq]
    exact hs

/-- The snapshots that a round sends. -/
theorem carries_sent (h : InStep mb S c A) (hn : n ∈ mb.ids)
    (hh : (S.servers n).handle ev = .ok (s, true)) (hp : s.node.persist = some (nd, rd))
    {m : Message} (hm : m ∈ rd.messages) (hty : m.type = .installSnapshot) :
    S.Carries mb m.snapshot := by
  have hempty : (S.servers n).node.r.msgs = [] := by
    rw [← h.shows.nodes]
    exact (h.sim.node n hn).msgs_eq
  rw [(Node.persist_cases hp).2.1] at hm
  rcases Op.run_ships (Server.handle_call hh) m hm hty with hold | hown
  · rw [hempty] at hold
    cases hold
  · exact .node n hn hown.symm

variable [StorageEngine ε]

/-- What the death of a process leaves on disk: the snapshot that was stored, or one that is
carried. -/
theorem stored_died (hn : n ∈ mb.ids) {e : Option Event} {storage : List Record}
    (hT : Dies S n e T storage) : (replayAll storage).snap =
    (replayAll (S.servers n).node.storage).snap ∨
      S.Carries mb (replayAll storage).snap ∧ (replayAll storage).snap.lastIncludedIndex ≠ 0 := by
  cases hT with
  | between => exact Or.inl rfl
  | handling ev s hsees hh =>
    cases Server.handled_of_eq hh with
    | panicked _ hnode hsent hresults => exact Or.inl (by rw [hnode])
  | persisting ev s hsees hh hp => exact Or.inl (by rw [(Server.handle_leaves hh).1.storage])
  | cut ev s k hsees hh =>
    have hstorage := (Server.handle_leaves hh).1.storage
    cases hcut : s.node.persistCut k with
    | none => exact Or.inl (by rw [Option.getD_none, hstorage])
    | some d =>
      rw [Option.getD_some]
      rcases Node.persistCut_snap hcut with heq | ⟨heq, hpos⟩
      · exact Or.inl (by rw [heq, hstorage])
      · rw [heq]
        exact Or.inr ⟨carries_handled hn hsees hh, hpos⟩
  | pumping ev s nd rd s' hsees hh hp hs =>
    rcases s.pumped_cases nd rd with ⟨s₂, hs₂, hnode, -⟩ | ⟨s₂, hs₂, -⟩
    · cases hs.symm.trans hs₂
      rw [hnode]
      rcases Node.persist_snap hp with heq | ⟨heq, hpos⟩
      · exact Or.inl (by rw [heq, (Server.handle_leaves hh).1.storage])
      · rw [heq]
        exact Or.inr ⟨carries_handled hn hsees hh, hpos⟩
    · cases hs.symm.trans hs₂

theorem carries_died (hn : n ∈ mb.ids) {e : Option Event} {storage : List Record}
    (hT : Dies S n e T storage) : S.Carries mb (replayAll storage).snap := by
  rcases stored_died hn hT with heq | ⟨hcarries, -⟩
  · exact .stored n hn heq.symm
  · exact hcarries

/-- The snapshots on the network when a process has died. -/
theorem carries_net (h : InStep mb S c A) (hn : n ∈ mb.ids) {e : Option Event}
    {storage : List Record} (hT : Dies S n e T storage) {m : Message} (hm : m ∈ T.net)
    (hty : m.type = .installSnapshot) : S.Carries mb m.snapshot := by
  have hquiet : ∀ {s : Server ε}, s.sent = (S.servers n).sent → m ∈ S.net ++ s.sent →
      S.Carries mb m.snapshot := fun {s} hsent hm => by
    rw [hsent, h.shows.clean, List.append_nil] at hm
    exact .message m hm hty rfl
  cases hT with
  | between => exact .message m hm hty rfl
  | cut ev s k hsees hh => exact .message m hm hty rfl
  | handling ev s hsees hh =>
    cases Server.handled_of_eq hh with
    | panicked _ hnode hsent hresults => exact hquiet hsent hm
  | persisting ev s hsees hh hp =>
    cases Server.handled_of_eq hh with
    | called op _ hrun hnew hmsg hstorage hsent hresults hpending hwaiters => exact hquiet hsent hm
  | pumping ev s nd rd s' hsees hh hp hs =>
    rcases s.pumped_cases nd rd with ⟨s₂, hs₂, -, hset⟩ | ⟨s₂, hs₂, -⟩
    · cases hs.symm.trans hs₂
      rcases List.mem_append.mp hm with hm | hm
      · exact .message m hm hty rfl
      · rw [h.shows.sent_eq hh hset] at hm
        exact h.carries_sent hn hh hp hm hty
    · cases hs.symm.trans hs₂

/-- **Where a snapshot comes from**: what is carried after a step was carried before it, or the step
is a round that has taken it and survives. -/
theorem carries_step (h : InStep mb S c A) {a : ServersAction ε} (hstep : Stepped mb opts S a S')
    (hsnap : S'.Carries mb snap) (hpos : snap.lastIncludedIndex ≠ 0) :
    S.Carries mb snap ∨ ∃ n ev recovered, a = .round n ev none recovered ∧ ¬S.Kills n a ∧
      (S.servers n).takes ev = some (snap.lastIncludedIndex, snap.data) := by
  cases hstep with
  | idle n ev s hsees hh =>
    cases Server.handled_of_eq hh with
    | idle _ hnode hsent hresults hpending hwaiters =>
      have hnodes : ∀ m, (((S.note n ev).absorb n s).servers m).node = (S.servers m).node := by
        intro m
        by_cases hm : m = n
        · simp only [absorb, hm, Function.update_self, hnode]
        · simp only [absorb, Function.update_of_ne hm]
          rfl
      left
      cases hsnap with
      | node m hm heq => exact .node m hm (by rw [← hnodes m, heq])
      | stored m hm heq => exact .stored m hm (by rw [← hnodes m, heq])
      | message x hx hty heq =>
        have hnet : ((S.note n ev).absorb n s).net = S.net := by
          show S.net ++ s.sent = S.net
          rw [hsent, h.shows.clean, List.append_nil]
        exact .message x (hnet ▸ hx) hty heq
  | pumped n ev s nd rd s' hn hsees hh hp hs =>
    obtain ⟨hstorage, hnode⟩ := Server.pumped_snapshot hh hp hs
    obtain ⟨hmem, hdisk⟩ := carries_persisted hn hsees hh hp
    cases hsnap with
    | node m hm heq =>
      by_cases hmn : m = n
      · simp only [absorb, hmn, Function.update_self] at heq
        rw [heq] at hnode
        rcases hnode with hnode | htakes
        · exact Or.inl (hnode ▸ hmem)
        · refine Or.inr ⟨n, ev, _, rfl, ?_, htakes⟩
          rintro ⟨-, hcut | ⟨s₂, hs₂⟩⟩
          · exact hcut rfl
          · cases hs₂.symm.trans ((Server.round_eq hh).trans ((Server.pump_eq hp).trans hs))
      · simp only [absorb, Function.update_of_ne hmn] at heq
        exact Or.inl (.node m hm heq)
    | stored m hm heq =>
      left
      by_cases hmn : m = n
      · simp only [absorb, hmn, Function.update_self, hstorage] at heq
        exact heq ▸ hdisk
      · simp only [absorb, Function.update_of_ne hmn] at heq
        exact .stored m hm heq
    | message x hx hty heq =>
      left
      rcases List.mem_append.mp hx with hx | hx
      · exact .message x hx hty heq
      · rcases s.pumped_cases nd rd with ⟨s₂, hs₂, -⟩ | ⟨s₂, hs₂, -, hset⟩
        · cases hs.symm.trans hs₂
        · cases hs.symm.trans hs₂
          rw [h.shows.sent_eq hh hset] at hx
          exact heq ▸ h.carries_sent hn hh hp hx hty
  | died n e T S' storage ha hk hn hT hr =>
    left
    have hdisk := carries_died hn hT
    obtain ⟨nd, out, s, hopen, hstart, rfl⟩ := restart_start hr
    obtain ⟨hst, -, -, hlevel⟩ := openNode_level hopen
    have hnode := (Server.start_cases hstart).1
    cases hsnap with
    | node m hm heq =>
      by_cases hmn : m = n
      · simp only [hmn, Function.update_self, hnode] at heq
        rcases hlevel with ⟨-, hzero, -⟩ | ⟨-, hstored, -⟩
        · rw [← heq, hzero] at hpos
          exact absurd rfl hpos
        · rw [← heq, hstored]
          exact hdisk
      · simp only [Function.update_of_ne hmn, hT.servers_of_ne hmn] at heq
        exact .node m hm heq
    | stored m hm heq =>
      by_cases hmn : m = n
      · simp only [hmn, Function.update_self, hnode, hst] at heq
        exact heq ▸ hdisk
      · simp only [Function.update_of_ne hmn, hT.servers_of_ne hmn] at heq
        exact .stored m hm heq
    | message x hx hty heq => exact heq ▸ h.carries_net hn hT hx hty

end Servers.InStep

end KvStore
