import KvStore.Layered.Overlay
import KvStore.Server.Applied

/-!
# Re-applying the log after a restart

After a restart the engine has what it had applied before the crash, while `lastApplied` starts
again: at the index of the stored snapshot, which then replaces the content of the engine, or at
zero with the content as it is. The entries from there on are applied as the commit index is found
again, in whatever steps.

* `layerOf ops`: the keys that operations write, as a layer. What was there before matters only at
  other keys (`applyOps_congr`), so that making operations again, from the first one on, repairs
  what is ahead of them (`applyOps_absorb`).
* `Server.reapply`: `applyCommitted` with the node as it is then.
* `reapply_converges`: the content is that of the committed log once all of it has been applied.
-/

namespace KvStore

open Layered Machine StorageEngine

/-! ## What operations overwrite -/

/-- The key that an operation writes, and what it leaves there. -/
def BatchOp.layer (op : BatchOp) : Layer Bytes (Option Bytes) := fun key =>
  if key = op.key then some (if op.deleted then none else some op.value) else none

/-- The keys that the operations write, and what they leave there: the last one is on top. -/
def layerOf (ops : List BatchOp) : Layer Bytes (Option Bytes) :=
  stack (ops.reverse.map BatchOp.layer)

theorem applyOps_apply (c : Content) (ops : List BatchOp) (key : Bytes) :
    applyOps c ops key = (layerOf ops key).getD (c key) := by
  induction ops using List.reverseRecOn with
  | nil => rfl
  | append_singleton ops op ih =>
    have htop : layerOf (ops ++ [op]) = atop op.layer (layerOf ops) := by
      rw [layerOf, List.reverse_append, List.reverse_singleton, List.singleton_append,
        List.map_cons, stack_cons, layerOf]
    have hlast : applyOps c (ops ++ [op]) key = op.apply (applyOps c ops) key := by
      rw [applyOps_append]
      rfl
    rw [hlast, htop, BatchOp.apply, atop, BatchOp.layer]
    by_cases hkey : key = op.key
    · rw [if_pos hkey, hkey, Function.update_self, Option.some_or, Option.getD_some]
    · rw [if_neg hkey, Function.update_of_ne hkey, Option.none_or, ih]

/-- What was there before matters only at the keys that are not written. -/
theorem applyOps_congr {c c' : Content} {ops : List BatchOp}
    (h : ∀ key, layerOf ops key = none → c key = c' key) : applyOps c ops = applyOps c' ops := by
  funext key
  rw [applyOps_apply, applyOps_apply]
  cases hkey : layerOf ops key with
  | none => exact h key hkey
  | some v => rfl

/-- More operations write more keys. -/
theorem layerOf_covers {ops ops' : List BatchOp} (h : ops <+: ops') :
    Covers (layerOf ops') (layerOf ops) :=
  covers_stack_of_suffix ((List.reverse_suffix.mpr h).map _)

/-- **Making operations again, from the first one on, leaves what making them once does.** -/
theorem applyOps_absorb {ops ops' : List BatchOp} (h : ops <+: ops') (c : Content) :
    applyOps (applyOps c ops) ops' = applyOps c ops' := by
  refine applyOps_congr fun key hkey => ?_
  have hnone : layerOf ops key = none := by
    by_contra hne
    exact layerOf_covers h key hne hkey
  rw [applyOps_apply, hnone, Option.getD_none]

theorem layerOf_append (ops ops' : List BatchOp) :
    layerOf (ops ++ ops') = atop (layerOf ops') (layerOf ops) := by
  rw [layerOf, List.reverse_append, List.map_append, stack_append]
  rfl

/-- The entries write what each of them writes. -/
theorem layerOf_covers_of_mem {H : List LogEntry} {e : LogEntry} (he : e ∈ H) :
    Covers (layerOf (opsOf H)) (layerOf (opsOf [e])) := by
  obtain ⟨l, l', rfl⟩ := List.append_of_mem he
  rw [show l ++ e :: l' = l ++ ([e] ++ l') from rfl, opsOf_append, opsOf_append, layerOf_append,
    layerOf_append]
  intro key hkey
  exact covers_atop_left _ _ key (Covers.atop_right (fun _ hk => hk) _ key hkey)

theorem opsOf_take_isPrefix (H : List LogEntry) {n m : ℕ} (h : n ≤ m) :
    opsOf (H.take n) <+: opsOf (H.take m) :=
  (List.take_prefix_take_left h).filterMap _

/-! ## Applying again -/

section

variable {ε : Type} [StorageEngine ε] {s s' : Server ε} {H : List LogEntry} {c : Content}
    {nd : Node}

/-- `applyCommitted`, when the node is at `nd`. -/
def Server.reapply (s : Server ε) (nd : Node) : Option (Server ε) :=
  ({ s with node := nd } : Server ε).applyCommitted.toOption

/-- The node has found entries of `H` to be committed, it has all of them that are still to be
applied, and the engine accepts the batch they are. -/
structure Rediscovers (H : List LogEntry) (s : Server ε) (nd : Node) : Prop where
  log : ∃ l b, Spans nd.r l b ∧ b ≤ s.lastApplied ∧ nd.r.commitIndex ≤ l.length ∧
    l.take nd.r.commitIndex <+: H
  accepts : ({ s with node := nd } : Server ε).Accepts

theorem Rediscovers.commit_le (h : Rediscovers H s nd) : nd.r.commitIndex ≤ H.length := by
  obtain ⟨l, b, -, -, hlen, hpre⟩ := h.log
  have := hpre.length_le
  rwa [List.length_take_of_le hlen] at this

variable [LawfulEngine ε]

/-- One `applyCommitted`. -/
theorem Server.Replays.reapply (h : s.Replays H c) (hnd : Rediscovers H s nd) :
    ∃ s', s.reapply nd = some s' ∧ s'.Replays H c ∧
      s'.lastApplied = max s.lastApplied nd.r.commitIndex := by
  obtain ⟨l, b, hs, hb, hlen, hpre⟩ := hnd.log
  have hrun := Server.applyCommitted_ok (s := { s with node := nd }) hs hb
  refine ⟨_, by rw [Server.reapply, hrun]; rfl, ?_, ?_⟩
  · refine Server.Replays.applyCommitted (s := { s with node := nd }) h hs hpre
      (fun first hfirst => ?_) hnd.accepts hrun
    cases hs.firstIndex.symm.trans hfirst
    exact Or.inl hb
  · have hidx : Indexed (l.take nd.r.commitIndex) := hs.indexed.of_isPrefix (List.take_prefix _ _)
    have happ := Server.applyEntries_lastApplied { s with node := nd } hidx
    rw [List.length_take_of_le hlen] at happ
    exact happ

/-- As many as there are. -/
theorem Server.Replays.exec_reapply {nds : List Node} (h : s.Replays H c)
    (hle : s.lastApplied ≤ H.length) (hnds : Along Server.reapply (Rediscovers H) s nds) :
    ∃ s', exec Server.reapply s nds = some s' ∧ s'.Replays H c ∧ s'.lastApplied ≤ H.length ∧
      s.lastApplied ≤ s'.lastApplied ∧ ∀ nd ∈ nds, nd.r.commitIndex ≤ s'.lastApplied := by
  induction nds generalizing s with
  | nil => exact ⟨s, rfl, h, hle, le_rfl, by simp⟩
  | cons nd nds ih =>
    obtain ⟨hnd, hrest⟩ := along_cons.mp hnds
    obtain ⟨s₁, hs₁, h₁, happ₁⟩ := h.reapply hnd
    have hle₁ : s₁.lastApplied ≤ H.length := happ₁ ▸ max_le hle hnd.commit_le
    obtain ⟨s', hs', h', hle', hge, hall⟩ := ih h₁ hle₁ (hrest s₁ hs₁)
    rw [happ₁] at hge
    refine ⟨s', exec_cons.mpr ⟨s₁, hs₁, hs'⟩, h', hle', (le_max_left _ _).trans hge, fun nd' hnd' =>
      ?_⟩
    rcases List.mem_cons.mp hnd' with rfl | hnd'
    · exact (le_max_right _ _).trans hge
    · exact hall nd' hnd'

/-- A process starts with a content that the first `m` entries turn into theirs, for every `m` from
`n` on, if the engine has recovered the effect of the first `n`. -/
theorem Server.start_replays {opts : ServerOptions} {snap : Option Snapshot} {eng : ε} {n : ℕ}
    (hrec : get eng = storeAt H n)
    (hsnap : ∀ sn, snap = some sn → ∃ kvs, decodeSnapshotEntries sn.data = some kvs ∧
      contentOf kvs = storeAt H sn.lastIncludedIndex)
    (hstart : Server.start opts nd snap eng = some s) :
    ∃ c, s.Replays H c ∧ ∀ m, n ≤ m → applyOps c (opsOf (H.take m)) = storeAt H m := by
  obtain ⟨-, -, -, -, ⟨-, heng, happ⟩ | ⟨sn, hsome, hok, heng, happ⟩⟩ := Server.start_cases hstart
  · refine ⟨storeAt H n, ?_, fun m hm => applyOps_absorb (opsOf_take_isPrefix H hm) _⟩
    unfold Server.Replays
    rw [heng, happ, hrec]
    rfl
  · refine ⟨fun _ => none, ?_, fun m _ => rfl⟩
    obtain ⟨kvs, hkvs, hget⟩ := LawfulEngine.restore_ok eng sn.data hok
    obtain ⟨kvs', hkvs', hcont⟩ := hsnap sn hsome
    cases hkvs.symm.trans hkvs'
    unfold Server.Replays
    rw [heng, happ, hget, hcont]
    rfl

/-- **Re-applying the log after a restart converges.** The engine has recovered the effect of the
first `n` committed entries, and a snapshot is stored or not. Once the commit index has been found
again up to the end, in any steps, the content is what the committed entries make of an empty
store. -/
theorem reapply_converges {n : ℕ} {eng : ε} {opts : ServerOptions} {snap : Option Snapshot}
    {nds : List Node} (hn : n ≤ H.length) (hrec : get eng = storeAt H n)
    (hsnap : ∀ sn, snap = some sn → sn.lastIncludedIndex ≤ H.length ∧
      ∃ kvs, decodeSnapshotEntries sn.data = some kvs ∧
        contentOf kvs = storeAt H sn.lastIncludedIndex)
    (hstart : Server.start opts nd snap eng = some s)
    (hnds : Along Server.reapply (Rediscovers H) s nds)
    (hend : s.lastApplied = H.length ∨ ∃ nd ∈ nds, nd.r.commitIndex = H.length) :
    ∃ s', exec Server.reapply s nds = some s' ∧ s'.lastApplied = H.length ∧
      ∀ key, get s'.eng key = storeAt H H.length key := by
  have hle : s.lastApplied ≤ H.length := by
    obtain ⟨-, -, -, -, ⟨-, -, happ⟩ | ⟨sn, hsome, -, -, happ⟩⟩ := Server.start_cases hstart
    · omega
    · exact happ.trans_le (hsnap sn hsome).1
  obtain ⟨c, h, hc⟩ := Server.start_replays hrec (fun sn hsome => (hsnap sn hsome).2) hstart
  obtain ⟨s', hs', h', hle', hge, hall⟩ := h.exec_reapply hle hnds
  have happ : s'.lastApplied = H.length := by
    rcases hend with heq | ⟨nd, hnd, heq⟩
    · omega
    · have := hall nd hnd
      omega
  refine ⟨s', hs', happ, fun key => ?_⟩
  rw [h', happ, hc _ hn]

end

/-- A key is put, put again and deleted; the second entry is no command. -/
def putTwice : List LogEntry :=
  [putAt 1 7 8, ⟨1, 2, []⟩, putAt 3 7 9, ⟨1, 4, encodeCommand ⟨cmdDelete, [7], []⟩⟩]

/-- Node three of three with these entries, of which it knows that the first `commit` are
committed. -/
def knows (commit : ℕ) : Node :=
  let nd := (Cluster.init .three).nodes 3
  { nd with r := { nd.r with log := window putTwice 0, commitIndex := commit } }

/-- An engine that never fails accepts what the nodes find again. -/
theorem rediscovers_knows {s : Server FlakyStore} (hfails : s.eng.fails = []) {commit : ℕ}
    (hle : commit ≤ 4) : Rediscovers putTwice s (knows commit) where
  log := ⟨putTwice, 0, ⟨rfl, by decide, by decide⟩, Nat.zero_le _, hle, List.take_prefix _ _⟩
  accepts := fun es _ _ => by
    show (applyBatch s.eng (opsOf es)).2 = none
    have hok : s.eng.fails.headD false = false := by rw [hfails]; rfl
    simp only [applyBatch, hok, Bool.false_eq_true, if_false]

/-- The engine is ahead with three entries when the first of them is applied again. -/
theorem reapply_converges_behind : ∃ s s' : Server FlakyStore,
    Server.start {} (knows 0) none ⟨[([7], [9])], []⟩ = some s ∧ get s.eng [7] = some [9] ∧
    exec Server.reapply s [knows 1, knows 4] = some s' ∧ s'.lastApplied = 4 ∧
      get s'.eng [7] = none := by
  have hrun : (Server.start {} (knows 0) none (⟨[([7], [9])], []⟩ : FlakyStore)).bind (fun s =>
      (s.reapply (knows 1)).map fun s₁ => decide (s.eng.fails = [] ∧ s₁.eng.fails = [])) =
        some true := by
    decide +kernel
  obtain ⟨s, hstart, hrun⟩ := Option.bind_eq_some_iff.mp hrun
  obtain ⟨s₁, hs₁, hrun⟩ := Option.map_eq_some_iff.mp hrun
  obtain ⟨hfails, hfails₁⟩ := of_decide_eq_true hrun
  have hrec : get (⟨[([7], [9])], []⟩ : FlakyStore) = storeAt putTwice 3 :=
    FlakyStore.contentOf_foldl_put (opsOf (putTwice.take 3)) []
  have hnds : Along Server.reapply (Rediscovers putTwice) s [knows 1, knows 4] := by
    refine along_cons.mpr ⟨rediscovers_knows hfails (by decide), fun s' hs' => ?_⟩
    cases hs₁.symm.trans hs'
    exact along_cons.mpr ⟨rediscovers_knows hfails₁ (by decide), fun _ _ => trivial⟩
  obtain ⟨s', hs', happ, hget⟩ :=
    reapply_converges (H := putTwice) (n := 3) (by decide) hrec (by simp) hstart
    hnds (Or.inr ⟨knows 4, by simp, rfl⟩)
  refine ⟨s, s', hstart, ?_, hs', happ, ?_⟩
  · obtain ⟨-, -, -, -, ⟨-, heng, -⟩ | ⟨sn, hsn, -⟩⟩ := Server.start_cases hstart
    · rw [heng]
      rfl
    · cases hsn
  · rw [hget]
    decide +kernel

end KvStore
