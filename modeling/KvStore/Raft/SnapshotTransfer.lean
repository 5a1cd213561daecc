import KvStore.Raft.StateMachineSafety

/-!
# Snapshot transfer

`handleInstallSnapshot` replaces the whole log by the snapshot's boundary, whatever the log holds
after it. Over links that deliver in order and may lose messages:

* `install_discards_committed`: a leader that backs off by stale rejections sends a snapshot to a
  follower that has acknowledged much more, and the follower drops a committed entry.
* `snapshot_transfer_keeps`: as long as every snapshot that is processed meets `SafeInstall`, every
  committed index stays on the disks of a majority.

`SafeInstall r m` looks at the receiver before it processes the message: the snapshot is of an old
term, or not above the receiver's boundary, or not below its last index, or the receiver's entry at
the snapshot's index is of another term.
-/

namespace KvStore

open Consensus Machine

variable {mb : Members} {A A' : Abs} {n i : ℕ} {c c' : Cluster} {e e' : LogEntry} {f f' : Fifo}

/-! ## What a node has on disk -/

/-- What `OpenStorage` recovers has the entry `e` at index `i`, or starts at `i` or after it. -/
def Node.Stores (nd : Node) (i : ℕ) (e : LogEntry) : Prop :=
  (e ∈ (openStorage nd.storage).2.1.tail ∧ e.index = i) ∨
    ∃ b ∈ (openStorage nd.storage).2.1.head?, i ≤ b.index

instance (nd : Node) (i : ℕ) (e : LogEntry) : Decidable (nd.Stores i e) :=
  inferInstanceAs (Decidable (_ ∨ _))

/-- A majority has index `i` on disk. -/
def Cluster.MajorityStores (mb : Members) (c : Cluster) (i : ℕ) (e : LogEntry) : Prop :=
  ∃ Q, Majority mb.set Q ∧ ∀ q ∈ Q, (c.nodes q).Stores i e

theorem NodeOk.stores {S : Prop} {nd : Node} (h : NodeOk S mb A n nd)
    (hget : (A.log n)[i - 1]? = some e) (hpos : 0 < i) : nd.Stores i e := by
  unfold Node.Stores
  rw [h.holds.openStorage]
  obtain ⟨hlt, he⟩ := List.getElem?_eq_some_iff.mp hget
  rcases Nat.lt_or_ge nd.r.stableSnapshotIndex i with hb | hb
  · left
    refine ⟨?_, ?_⟩
    · show e ∈ (A.log n).drop nd.r.stableSnapshotIndex
      rw [List.mem_iff_getElem?]
      exact ⟨i - 1 - nd.r.stableSnapshotIndex, by
        rw [List.getElem?_drop, Nat.add_sub_cancel' (by omega)]
        exact hget⟩
    · rw [← he, h.live.spans.indexed _ hlt]
      omega
  · exact Or.inr ⟨_, rfl, hb⟩

theorem Sim.majority_stores (h : Sim True mb c A) {t : ℕ} {l : List LogEntry} (hb : Backed A t i l)
    (hget : l[i - 1]? = some e) (hpos : 0 < i) : c.MajorityStores mb i e := by
  obtain ⟨Q, hQ, hstores⟩ := hb.majority (h.good.safe trivial) (by omega)
  have hlen := hb.le_length
  refine ⟨Q, hQ, fun q hq => (h.node q (Members.mem_set.mp (hQ.1 hq))).stores ?_ hpos⟩
  have hlt : i - 1 < (l.take i).length := by
    rw [List.length_take]
    omega
  rw [← List.getElem?_take_of_lt (show i - 1 < i by omega), List.getElem?_eq_getElem hlt] at hget
  rw [← hget, (hstores q hq).getElem hlt, List.getElem?_eq_getElem]

/-! ## One snapshot -/

/-- What a log has depends on the log only. -/
theorem Raft.HasEntry.of_log_eq {r r' : Raft} (h : r.HasEntry i e) (hlog : r'.log = r.log) :
    r'.HasEntry i e := by
  unfold Raft.HasEntry Raft.entryAt Raft.logPos Raft.logAt Raft.firstIndex at h ⊢
  rw [hlog]
  exact h

theorem becomeFollower_log {r : Raft} (t : ℕ) : (r.becomeFollower t).log = r.log := by
  simp only [Raft.becomeFollower, Raft.resetElectionTimeout]
  split_ifs <;> rfl

/-- An `InstallSnapshot` that is not processed leaves the log alone. -/
theorem handleInstallSnapshot_log {r r' : Raft} {m : Message} {first : ℕ}
    (hfirst : r.firstIndex = some first)
    (hold : m.term < r.currentTerm ∨ m.snapshot.lastIncludedIndex ≤ first)
    (hrun : r.handleInstallSnapshot m = some r') : r'.log = r.log := by
  simp only [Raft.handleInstallSnapshot, hfirst, Option.bind_eq_bind, Option.bind_some, pure]
    at hrun
  by_cases h1 : m.term < r.currentTerm
  · rw [if_pos h1] at hrun
    obtain rfl := Option.some.inj hrun
    rfl
  · rw [if_neg h1, if_pos (hold.resolve_left h1)] at hrun
    obtain rfl := Option.some.inj hrun
    exact becomeFollower_log m.term

/-- **A safe snapshot discards nothing the leader has**: an entry above the snapshot that the
receiver shares with the leader of the message's term stays. -/
theorem Sim.install_keeps {S : Prop} (h : Sim S mb c A) (hn : n ∈ mb.ids) {m : Message}
    (hm : m ∈ c.net) (hty : m.type = .installSnapshot) (hsafe : SafeInstall (c.nodes n).r m)
    {r' : Raft} (hrun : (c.nodes n).r.step m = some r') {p j : ℕ} (hp : p ∈ mb.ids)
    (hlead : (c.nodes p).r.role = .leader) (hterm : (c.nodes p).r.currentTerm = m.term)
    (hj : m.snapshot.lastIncludedIndex < j) (hpe : (c.nodes p).r.HasEntry j e)
    (hne : (c.nodes n).r.HasEntry j e) : r'.HasEntry j e := by
  have hlive := (h.node n hn).live
  have hsp := hlive.spans
  unfold Raft.step at hrun
  split_ifs at hrun with hto
  · obtain rfl := Option.some.inj hrun
    exact hne
  simp only [hty] at hrun
  by_cases hold : m.term < (c.nodes n).r.currentTerm ∨
      m.snapshot.lastIncludedIndex ≤ (c.nodes n).r.snapshot.lastIncludedIndex
  · exact hne.of_log_eq (handleInstallSnapshot_log hsp.firstIndex hold hrun)
  exfalso
  obtain ⟨hjn, hjt, -⟩ := hsp.entryAt hne.1
  obtain ⟨hjp, hjt', -⟩ := (h.node p hp).live.spans.entryAt hpe.1
  rcases hsafe with hlt | hfirst | hlast | hconf
  · exact hold (Or.inl hlt)
  · rw [hsp.firstIndex] at hfirst
    exact hold (Or.inr (by simpa using hfirst))
  · rw [hsp.lastLogIndex] at hlast
    have hle : (A.log n).length ≤ m.snapshot.lastIncludedIndex := by simpa using hlast
    omega
  · -- the two logs agree at the snapshot's index, as they do at `j`
    have htake :=
      hlive.canon_log.take_eq (h.node p hp).live.canon_log hjn hjp (by rw [← hjt, ← hjt'])
    rw [not_or] at hold
    apply hconf
    rw [hsp.termAt_of_le (by omega) (by omega), ((h.net m hm).snap hty).2.2, ← hterm,
      (h.node p hp).live.hist_eq hlead, ← termAt_take LogEntry.term hj.le, htake,
      termAt_take LogEntry.term hj.le]

/-! ## Whole runs -/

/-- A step of the cluster with ordered links that processes no unsafe snapshot. -/
abbrev Fifo.SafeStep : Fifo → FifoAction → Prop := Fifo.Allows fun c a => a.Safe c

/-- Some state of the run satisfies `P`. -/
def Fifo.Seen (mb : Members) (as : List FifoAction) (P : Cluster → Prop) : Prop :=
  ∃ as₀ f, as₀ <+: as ∧ Fifo.Runs mb as₀ f ∧ P f.cluster

/-- A run that processes no unsafe snapshot, with all its states. -/
theorem Fifo.Runs.sim {as : List FifoAction} (h : Fifo.Runs mb as f)
    (hsafe : Along (Fifo.step mb) Fifo.SafeStep (Fifo.init mb) as) : ∃ A, Sim True mb f.cluster A ∧
      ∀ P, Fifo.Seen mb as P → ∃ c A₀, P c ∧ Sim True mb c A₀ ∧ Grows LogEntry.term A₀ A := by
  have hstep : ∀ f fa f' A, Sim True mb f.cluster A → Fifo.SafeStep f fa → f.step mb fa = some f' →
      ∃ A', Sim True mb f'.cluster A' ∧ Grows LogEntry.term A A' := by
    intro f fa f' A hA hs hstep
    refine hA.run ?_ (Fifo.step_cluster hstep)
    cases ha : f.inner fa with
    | none => trivial
    | some a => exact along_cons.mpr ⟨fun _ => hs a ha, fun _ _ => trivial⟩
  obtain ⟨A, hA, -, htrace⟩ := exec_simulates (S := fun f A => Sim True mb f.cluster A) hstep
    (sim_init True mb) hsafe h
  refine ⟨A, hA, fun P hseen => ?_⟩
  obtain ⟨as₀, f₀, has, h₀, hP⟩ := hseen
  obtain ⟨A₀, hA₀, hg⟩ := htrace as₀ f₀ has h₀
  exact ⟨f₀.cluster, A₀, hP, hA₀, hg⟩

/-- **Snapshot transfer keeps what is committed**, as long as no unsafe snapshot is processed: every
index that has been committed is on the disks of a majority, with the one entry that was ever
committed there, and a snapshot that meets the condition discards no entry above it that the
receiver shares with the leader. -/
theorem snapshot_transfer_keeps {as : List FifoAction} (h : Fifo.Runs mb as f)
    (hsafe : Along (Fifo.step mb) Fifo.SafeStep (Fifo.init mb) as) :
    (∀ i, 0 < i → Fifo.Seen mb as (fun c => ∃ n ∈ mb.ids, i ≤ (c.nodes n).r.commitIndex) →
      ∃ e, (∀ e', Fifo.Seen mb as (fun c => ∃ n ∈ mb.ids, c.Committed n i e') → e' = e) ∧
        f.cluster.MajorityStores mb i e) ∧
    (∀ n ∈ mb.ids, ∀ m ∈ f.cluster.net, m.type = .installSnapshot →
      SafeInstall (f.cluster.nodes n).r m → ∀ r', (f.cluster.nodes n).r.step m = some r' →
      ∀ p ∈ mb.ids, (f.cluster.nodes p).r.role = .leader →
      (f.cluster.nodes p).r.currentTerm = m.term → ∀ j e, m.snapshot.lastIncludedIndex < j →
        (f.cluster.nodes p).r.HasEntry j e → (f.cluster.nodes n).r.HasEntry j e →
          r'.HasEntry j e) := by
  obtain ⟨A, hA, htrace⟩ := h.sim hsafe
  refine ⟨fun i hpos hseen => ?_, ?_⟩
  · obtain ⟨c, A₀, ⟨n, hn, hi⟩, hA₀, hg⟩ := htrace _ hseen
    have hb := (hA₀.backed hn hi).grows hg
    have hlt : i - 1 < (A₀.log n).length := by have := hb.le_length; omega
    have hget := List.getElem?_eq_getElem hlt
    refine ⟨_, fun e' hseen' => ?_, hA.majority_stores hb hget hpos⟩
    -- whatever was committed at this index elsewhere is the same entry
    obtain ⟨c', A₁, ⟨n', hn', hc'⟩, hA₁, hg'⟩ := htrace _ hseen'
    obtain ⟨hb', hget', -⟩ := hA₁.committed hn' hc'
    have htake := hb.take_eq hA.good.wf (hA.good.safe trivial) (hb'.grows hg')
    have hi' : i - 1 < i := by omega
    rw [← List.getElem?_take_of_lt hi', htake, List.getElem?_take_of_lt hi', hget'] at hget
    exact Option.some.inj hget
  · intro n hn m hm hty hs r' hrun p hp hlead hterm j e hj hpe hne
    exact hA.install_keeps hn hm hty hs hrun hp hlead hterm hj hpe hne

/-- Node one commits an entry, compacts it away and sends node three its snapshot. -/
def installRun : List FifoAction :=
  Fifo.electOne ++
  [.deliver 1 2 none, .deliver 2 1 none, .act (.run 1 (.propose [[1]]) none), .deliver 1 2 none,
    .deliver 2 1 none, .act (.run 1 (.createSnapshot 1 [9]) none), .drop 1 3, .drop 1 3, .drop 1 3,
    .drop 1 3, .act (.run 1 .tick none), .deliver 1 3 none]

theorem snapshot_transfer_keeps_three : ∃ f, Fifo.Runs .three installRun f ∧
    (f.cluster.nodes 3).r.commitIndex = 1 ∧ ∃ e, f.cluster.MajorityStores .three 1 e := by
  have hrun : (exec (Fifo.step .three) (Fifo.init .three) installRun).map (fun f =>
      decide ((f.cluster.nodes 3).r.commitIndex = 1)) = some true := by
    decide +kernel
  have hsafe : Along (Fifo.step .three) Fifo.SafeStep (Fifo.init .three) installRun := by
    decide +kernel
  obtain ⟨f, h, hrun⟩ := Option.map_eq_some_iff.mp hrun
  have hc := of_decide_eq_true hrun
  obtain ⟨e, -, he⟩ := (snapshot_transfer_keeps h hsafe).1 1 (by decide)
    ⟨installRun, f, List.prefix_rfl, h, 3, by decide, hc.ge⟩
  exact ⟨f, h, hc, e, he⟩

/-! ## A snapshot that discards -/

/-- Node one commits two entries with node two and compacts the first away. The message with entry
three is lost, so node two turns down those with entries four and five; the first rejection makes
node one send entries two to five again, which node two takes in and acknowledges, and the second
one makes it send its snapshot. -/
def discardRun : List FifoAction :=
  Fifo.electOne ++
  [.deliver 1 2 none, .deliver 2 1 none, .act (.run 1 (.propose [[1]]) none),
    .act (.run 1 (.propose [[2]]) none), .deliver 1 2 none, .deliver 1 2 none, .deliver 2 1 none,
    .deliver 2 1 none, .act (.run 1 (.createSnapshot 1 [9]) none),
    .act (.run 1 (.propose [[3]]) none), .drop 1 2, .act (.run 1 (.propose [[4]]) none),
    .act (.run 1 (.propose [[5]]) none), .deliver 1 2 none, .deliver 1 2 none, .deliver 2 1 none,
    .deliver 2 1 none, .deliver 1 2 none]

/-- If two of three nodes do not have the entry, no majority has it. -/
theorem not_majorityStores_three (h2 : ¬(c.nodes 2).Stores i e) (h3 : ¬(c.nodes 3).Stores i e) :
    ¬c.MajorityStores .three i e := by
  rintro ⟨Q, ⟨hQ, hcard⟩, hstores⟩
  have hsub : Q ⊆ {1} := by
    intro q hq
    have hmem : q ∈ Members.three.ids := Members.mem_set.mp (hQ hq)
    have hq3 : q = 1 ∨ q = 2 ∨ q = 3 := by simpa [Members.three] using hmem
    rcases hq3 with rfl | rfl | rfl
    · exact Finset.mem_singleton_self 1
    · exact absurd (hstores 2 hq) h2
    · exact absurd (hstores 3 hq) h3
  have hle := Finset.card_le_card hsub
  rw [Finset.card_singleton] at hle
  have hthree : Members.three.set.card = 3 := by decide
  omega

/-- **A snapshot discards a committed entry.** Node two has the committed entry two, has
acknowledged it in the current term and shares it with the leader; the snapshot of index one it
processes next leaves it with neither the entry nor a boundary past it, and only the leader has
it. -/
theorem install_discards_committed : ∃ f f', Fifo.Runs .three discardRun f ∧
    f.step .three (.deliver 1 2 none) = some f' ∧
    f.cluster.Committed 1 2 ⟨1, 2, [2]⟩ ∧ (f.cluster.nodes 1).r.role = .leader ∧
    (f.cluster.nodes 2).r.HasEntry 2 ⟨1, 2, [2]⟩ ∧
    ({ type := .appendEntriesResponse, fromId := 2, toId := 1, term := 1, success := true,
       matchIndex := 5 } : Message) ∈ f.cluster.net ∧
    ¬(f'.cluster.nodes 2).r.HasEntry 2 ⟨1, 2, [2]⟩ ∧
    ¬f'.cluster.MajorityStores .three 2 ⟨1, 2, [2]⟩ := by
  have hrun : ((exec (Fifo.step .three) (Fifo.init .three) discardRun).bind fun f =>
      (f.step .three (.deliver 1 2 none)).map fun f' =>
        decide (f.cluster.Committed 1 2 ⟨1, 2, [2]⟩ ∧ (f.cluster.nodes 1).r.role = .leader ∧
          (f.cluster.nodes 2).r.HasEntry 2 ⟨1, 2, [2]⟩ ∧
          ({ type := .appendEntriesResponse, fromId := 2, toId := 1, term := 1, success := true,
             matchIndex := 5 } : Message) ∈ f.cluster.net ∧
          ¬(f'.cluster.nodes 2).r.HasEntry 2 ⟨1, 2, [2]⟩ ∧
          ¬(f'.cluster.nodes 2).Stores 2 ⟨1, 2, [2]⟩ ∧
          ¬(f'.cluster.nodes 3).Stores 2 ⟨1, 2, [2]⟩)) = some true := by
    decide +kernel
  obtain ⟨f, h, hrun⟩ := Option.bind_eq_some_iff.mp hrun
  obtain ⟨f', hstep, hrun⟩ := Option.map_eq_some_iff.mp hrun
  obtain ⟨hc, hl, he, hm, hlost, h2, h3⟩ := of_decide_eq_true hrun
  exact ⟨f, f', h, hstep, hc, hl, he, hm, hlost, not_majorityStores_three h2 h3⟩

end KvStore
