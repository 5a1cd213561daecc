import KvStore.Raft.Replication

/-!
# Every call on a node, simulated

The snapshot handlers, `Tick` and the calls of the server, and then all calls together:

* `SafeInstall`: the condition under which an `InstallSnapshot` drops nothing the node shares with
  its sender;
* `Live.called`: **every call that does not panic is simulated**, and it keeps the safe half of the
  relation if it is no unsafe install.
-/

namespace KvStore

open Consensus

variable {S : Prop} {mb : Members} {A A' : Abs} {n : ℕ} {r r' : Raft} {m : Message}

/-! ## Snapshots -/

/-- An `InstallSnapshot` that drops nothing the node shares with its sender: it is not installed, or
the node's log ends no later than the snapshot, or conflicts with it. -/
def SafeInstall (r : Raft) (m : Message) : Prop :=
  m.term < r.currentTerm ∨ r.firstIndex.any (m.snapshot.lastIncludedIndex ≤ ·) ∨
    r.lastLogIndex.any (· ≤ m.snapshot.lastIncludedIndex) ∨
    r.termAt m.snapshot.lastIncludedIndex ≠ some m.snapshot.lastIncludedTerm

instance (r : Raft) (m : Message) : Decidable (SafeInstall r m) := by
  unfold SafeInstall
  infer_instance

theorem Backed.acked {A : Abs} {t k p : ℕ} {l : List LogEntry} (h : Backed A t k l) :
    Acked A t p k := by
  rcases h with rfl | ⟨u, hu, hc, -, -⟩
  · exact Or.inl (Nat.zero_le _)
  · exact Or.inr ⟨u, hu, hc⟩

namespace Live

/-- The boundary a node answers an `InstallSnapshot` with is committed. -/
theorem sendBoundary (h : Live S mb A n r.view) (hne : r.id ≠ m.fromId) :
    Live S mb A n (r.send { type := .installSnapshotResponse, toId := m.fromId
                            matchIndex := r.snapshot.lastIncludedIndex }).view := by
  refine h.send (.of_type h.id_mem hne (by simp)) fun hS => ?_
  exact
    { append := fun ht => by cases ht
      reply := fun ht => by cases ht
      snap := fun ht => by cases ht
      snapReply := fun _ => Backed.acked
        ((h.secure hS).commit.mono le_rfl (h.secure hS).snap_le_commit List.prefix_rfl) }

/-- What a safe install keeps. -/
theorem keeps_of_safeInstall (h : Live S mb A n r.view) {k : ℕ}
    (hb : r.snapshot.lastIncludedIndex < k)
    (hsafe : (A.log n).length ≤ k ∨
      r.termAt k ≠ some (termAt LogEntry.term (A.hist r.currentTerm) k)) :
    Keeps A n ((A.hist r.currentTerm).take k) := by
  have hAterm : A.term n = r.currentTerm := h.mirrors.term_eq
  intro p hpH hpl
  rw [hAterm] at hpH
  rw [List.prefix_take_iff]
  refine ⟨hpH, ?_⟩
  rcases hsafe with hle | hne
  · exact hpl.length_le.trans hle
  · by_contra hcon
    have hkl : k ≤ (A.log n).length := by have := hpl.length_le; omega
    apply hne
    rw [h.spans.termAt_of_le hb.le hkl, ← termAt_of_isPrefix LogEntry.term hpl (by omega),
      termAt_of_isPrefix LogEntry.term hpH (by omega)]

/-- A safe install that is not turned down conflicts with the log, or goes to its end. -/
theorem conflict_of_safeInstall (h : Live S mb A n r.view) (hi : SafeInstall r m)
    (hlt : ¬m.term < r.currentTerm) (hle :
    ¬m.snapshot.lastIncludedIndex ≤ r.snapshot.lastIncludedIndex) :
    (A.log n).length ≤ m.snapshot.lastIncludedIndex ∨
      r.termAt m.snapshot.lastIncludedIndex ≠ some m.snapshot.lastIncludedTerm := by
  rcases hi with h1 | h1 | h1 | h1
  · exact absurd h1 hlt
  · rw [h.spans.firstIndex, Option.any_some, decide_eq_true_eq] at h1
    exact absurd h1 hle
  · rw [h.spans.lastLogIndex, Option.any_some, decide_eq_true_eq] at h1
    exact Or.inl h1
  · exact Or.inr h1

/-- The follower's log becomes the snapshot's beginning of the leader's. -/
theorem installed (h : Live S mb A n r.view) (hr : r.role = .follower)
    (hterm : r.currentTerm = m.term) (hm : MsgOk mb A m) (hsafe : S → MsgSafe A m)
    (hty : m.type = .installSnapshot) (hkeep : S →
    Keeps A n ((A.hist r.currentTerm).take m.snapshot.lastIncludedIndex)) :
    Live S mb (A.store n ((A.hist r.currentTerm).take m.snapshot.lastIncludedIndex)) n { r with
      log := [⟨m.snapshot.lastIncludedTerm, m.snapshot.lastIncludedIndex, []⟩]
      commitIndex :=
        if r.commitIndex < m.snapshot.lastIncludedIndex then m.snapshot.lastIncludedIndex else
          r.commitIndex
      unstableIndex := m.snapshot.lastIncludedIndex + 1
      snapshot := m.snapshot
      pendingSnapshotToApply := some m.snapshot }.view := by
  obtain ⟨hlead, hklen, hkterm⟩ := hm.snap hty
  have hAterm : A.term n = r.currentTerm := h.mirrors.term_eq
  rw [← hterm] at hlead hklen hkterm
  have hlead' : A.leader r.currentTerm ≠ none := by rw [hlead]; exact Option.some_ne_none _
  set k := m.snapshot.lastIncludedIndex with hk
  have hlen : ((A.hist r.currentTerm).take k).length = k := List.length_take_of_le hklen
  have htermk : m.snapshot.lastIncludedTerm =
      termAt LogEntry.term ((A.hist r.currentTerm).take k) k := by
    rw [termAt_take LogEntry.term le_rfl, hkterm]
  have hext := ext_store (τ := LogEntry.term) (s := A) (n := n) (l := (A.hist r.currentTerm).take k)
  -- what was committed is in the snapshot
  have hcommit : S → (if r.commitIndex < k then k else r.commitIndex) = k := by
    intro hS
    have hkeep' := hkeep hS
    unfold Keeps at hkeep'
    rw [hAterm] at hkeep'
    have hle := ((h.secure hS).commit.of_keeps (h.good.safe hS) hlead' hkeep').le_length
    have hcommit : r.commitIndex ≤ k := hle.trans_eq hlen
    split_ifs <;> omega
  exact
    { good :=
        h.good.store (by rw [hAterm]; exact List.take_prefix _ _)
          (by rw [hAterm]; exact hlead') hkeep
      mirrors :=
        { __ := h.mirrors
          log_eq := by
            rw [store_log_self]
            show [⟨m.snapshot.lastIncludedTerm, k, []⟩] = window ((A.hist r.currentTerm).take k) k
            unfold window boundary
            rw [List.drop_of_length_le hlen.le, ← htermk]
          snap_le := by rw [store_log_self]; exact hlen.ge
          snap_term := by rw [store_log_self]; exact htermk
          leader := fun hl => by rw [show r.role = .leader from hl] at hr; cases hr
          candidate := fun hl => by rw [show r.role = .candidate from hl] at hr; cases hr }
      msgs := fun x hx => (h.msgs x hx).mono hext.toGrows
      secure := fun hS => by
        have hback := (hsafe hS).snap hty
        rw [← hterm] at hback
        exact
          { commit := by
              rw [store_log_self]
              show Backed _ r.currentTerm (if r.commitIndex < k then k else r.commitIndex) _
              rw [hcommit hS]
              exact (hback.take le_rfl).grows hext.toGrows
            snap_le_commit := (hcommit hS).ge
            leads := fun hl => by rw [show r.role = .leader from hl] at hr; cases hr }
      msgsSafe := fun hS x hx => (h.msgsSafe hS x hx).mono hext.toGrows }

/-- **`handleInstallSnapshot` is `store`**: the log becomes the snapshot's beginning of the
leader's. -/
theorem handleInstallSnapshot (h : Live S mb A n r.view) (hm : MsgOk mb A m)
    (hsafe : S → MsgSafe A m) (hto : m.toId = r.id) (hty : m.type = .installSnapshot)
    (hinst : S → SafeInstall r m) (hrun : r.handleInstallSnapshot m = some r') :
    Called S mb A n [] r r' := by
  have hne := ne_from hm hto
  unfold Raft.handleInstallSnapshot at hrun
  simp only [h.spans.firstIndex, Option.bind_eq_bind, Option.bind_some] at hrun
  by_cases hlt : m.term < r.currentTerm
  · rw [if_pos hlt] at hrun
    obtain rfl := Option.some.inj hrun
    exact .quiet ((h.sendBoundary hne).quiet rfl)
  rw [if_neg hlt] at hrun
  set r₁ : Raft := { r.becomeFollower m.term with leaderID := m.fromId } with hr₁
  have hfollows : Quiet S mb A n r r₁ := h.becomeFollower m.term
  obtain ⟨hlogr, hsnap⟩ : r₁.log = r.log ∧ r₁.snapshot = r.snapshot := by
    obtain ⟨-, -, -, -, hd⟩ := hfollows
    exact ⟨congrArg (fun d => d.1) hd, congrArg (fun d => d.2.1) hd⟩
  have hterm : r₁.currentTerm = m.term := Raft.becomeFollower_term (not_lt.mp hlt)
  have hne₁ : r₁.id ≠ m.fromId := (becomeFollower_id m.term : r₁.id = r.id) ▸ hne
  refine hfollows.called fun A₁ h₁ hmoves hlog => ?_
  by_cases hle : m.snapshot.lastIncludedIndex ≤ r.snapshot.lastIncludedIndex
  · rw [if_pos hle] at hrun
    obtain rfl := Option.some.inj hrun
    rw [← hsnap]
    exact .quiet ((h₁.sendBoundary hne₁).quiet rfl)
  rw [if_neg hle] at hrun
  obtain rfl := Option.some.inj hrun
  have hm₁ := hm.mono hmoves.toGrows
  obtain ⟨-, hklen, hkterm⟩ := hm₁.snap hty
  -- under `S` the install keeps what the node shares with the leader
  have hkeep : S → Keeps A₁ n ((A₁.hist r₁.currentTerm).take m.snapshot.lastIncludedIndex) :=
    fun hS => by
    refine h₁.keeps_of_safeInstall (by rw [hsnap]; omega) ?_
    rw [hlog, hterm, ← hkterm]
    have htermAt : r₁.termAt m.snapshot.lastIncludedIndex =
        r.termAt m.snapshot.lastIncludedIndex := by
      simp only [Raft.termAt, Raft.firstIndex, Raft.lastLogIndex, Raft.logPos, Raft.logAt, hlogr]
    rw [htermAt]
    exact h.conflict_of_safeInstall (hinst hS) hlt hle
  have h₂ := h₁.installed rfl hterm hm₁ (fun hS => (hsafe hS).mono hmoves.toGrows) hty hkeep
  refine .shifted _ (h₂.sendBoundary hne₁) (.of_hist_eq ext_store rfl) rfl ?_
    (Nat.lt_succ_self _) ?_
  · show r₁.snapshot.lastIncludedIndex < m.snapshot.lastIncludedIndex
    rw [hsnap]
    omega
  · rw [store_log_self, hterm, List.length_take_of_le hklen]
    exact le_rfl

/-- **`CreateSnapshot` moves the boundary** and nothing else. -/
theorem compacted (h : Live S mb A n r.view) (hu : r.unstableIndex = (A.log n).length + 1)
    {index : ℕ} {data : Bytes} {err : Except Error Unit}
    (hrun : r.createSnapshot index data = some (r', err)) :
    r' = r ∨ ∃ log snap, r' = { r with
        log := log
        unstableIndex := (A.log n).length + 1
        snapshot := snap } ∧ r.snapshot.lastIncludedIndex < snap.lastIncludedIndex ∧
      Live S mb A n r'.view := by
  rcases h.spans.createSnapshot hrun with ⟨rfl, -⟩ | ⟨hb, hcommit, hle, rfl⟩
  · exact Or.inl rfl
  have hunst : (if r.unstableIndex ≤ index then index + 1 else r.unstableIndex) =
      (A.log n).length + 1 := by
    split_ifs <;> omega
  rw [hunst]
  refine Or.inr ⟨_, _, rfl, hb, ?_⟩
  exact
    { good := h.good
      mirrors :=
        { __ := h.mirrors
          log_eq := rfl
          snap_le := hle
          snap_term := rfl }
      msgs := h.msgs
      secure := fun hS =>
        { commit := (h.secure hS).commit
          snap_le_commit := hcommit
          leads := fun hl => { __ := (h.secure hS).leads hl } }
      msgsSafe := h.msgsSafe }

theorem createSnapshot (h : Live S mb A n r.view) (hu : r.unstableIndex = (A.log n).length + 1)
    {index : ℕ} {data : Bytes} {err : Except Error Unit}
    (hrun : r.createSnapshot index data = some (r', err)) : Called S mb A n [] r r' := by
  rcases h.compacted hu hrun with rfl | ⟨log, snap, rfl, hlt, hlive⟩
  · exact .quiet (h.quiet rfl)
  · exact .shifted A hlive (Moves.refl _ _) rfl hlt (Nat.lt_succ_of_le hlive.spans.le) le_rfl

end Live

/-! ## Proposals -/

/-- The entries `ProposeBatch` creates after index `k` in term `t`. -/
def entriesFrom (t k : ℕ) : List Bytes → List LogEntry
  | [] => []
  | data :: datas => ⟨t, k + 1, data⟩ :: entriesFrom t (k + 1) datas

theorem entriesFrom_term {t k : ℕ} {datas : List Bytes} :
    ∀ e ∈ entriesFrom t k datas, e.term = t := by
  induction datas generalizing k with
  | nil => simp [entriesFrom]
  | cons d ds ih =>
    intro e he
    rcases List.mem_cons.mp he with rfl | he
    · rfl
    · exact ih e he

theorem entriesFrom_ne_nil {t k : ℕ} {datas : List Bytes} (h : datas ≠ []) :
    entriesFrom t k datas ≠ [] := by
  obtain ⟨d, ds, rfl⟩ := List.exists_cons_of_ne_nil h
  simp [entriesFrom]

/-- The loop of `ProposeBatch` appends its entries with consecutive indices. -/
theorem Spans.appendDatas {l : List LogEntry} {b : ℕ} (h : Spans r l b) (datas : List Bytes) :
    r.appendDatas datas =
      some ({ r with log := r.log ++ entriesFrom r.currentTerm l.length datas },
        (entriesFrom r.currentTerm l.length datas).map LogEntry.index) ∧
      Indexed (l ++ entriesFrom r.currentTerm l.length datas) := by
  induction datas generalizing r l with
  | nil =>
    simp only [Raft.appendDatas, entriesFrom, List.append_nil, List.map_nil]
    exact ⟨trivial, h.indexed⟩
  | cons d ds ih =>
    have hi : Indexed (l ++ [⟨r.currentTerm, l.length + 1, d⟩]) :=
      h.indexed.concat (by simp)
    have h' : Spans { r with log := r.log ++ [⟨r.currentTerm, l.length + 1, d⟩] }
        (l ++ [⟨r.currentTerm, l.length + 1, d⟩]) b := h.append hi rfl
    obtain ⟨hrun, hidx⟩ := ih h'
    simp only [List.length_append, List.length_singleton, List.append_assoc, List.singleton_append]
      at hrun hidx
    refine ⟨?_, hidx⟩
    simp only [Raft.appendDatas, h.lastLogIndex, Option.bind_eq_bind, Option.bind_some, hrun, pure]
    rfl

theorem Moves.weaken {new : List LogEntry} (h : Moves n [] A A') : Moves n new A A' :=
  ⟨h.toExt, fun t e he => (h.fresh t e he).imp_right fun hnil => absurd hnil List.not_mem_nil⟩

namespace Live

/-- A leader appends entries of its own term: `append`, `store` and `acknowledge`. -/
theorem proposed (h : Live S mb A n r.view) (hr : r.role = .leader) {es : List LogEntry}
    (hes : ∀ e ∈ es, e.term = r.currentTerm) (hi : Indexed (A.log n ++ es)) :
    Good S mb (A.append r.currentTerm es) ∧ Moves n es A (A.append r.currentTerm es) ∧
    (A.append r.currentTerm es).hist r.currentTerm = A.log n ++ es ∧
    ∃ A', Live S mb A' n { r with log := r.log ++ es }.view ∧
      Moves n es (A.append r.currentTerm es) A' ∧ A'.log n = A.log n ++ es := by
  have hlead : A.leader r.currentTerm = some n := (h.mirrors.leader hr).1
  have hhist : A.hist r.currentTerm = A.log n := (h.mirrors.leader hr).2
  have hterm : A.term n = r.currentTerm := h.mirrors.term_eq
  have hpos : 0 < r.currentTerm := h.good.wf.vote_pos _ _ _ (h.good.wf.leader_vote hlead)
  set A₁ := A.append r.currentTerm es with hA₁
  have hext₁ : Ext LogEntry.term n A A₁ := ext_append hlead hes
  have hhist₁ : A₁.hist r.currentTerm = A.log n ++ es := by rw [hA₁, append_hist_self, hhist]
  have hgood₁ : Good S mb A₁ := h.good.append hlead hes hpos (by rw [hhist]; exact hi)
  have hmoves₁ : Moves n es A A₁ := by
    refine ⟨hext₁, fun t e he => ?_⟩
    by_cases ht : t = r.currentTerm
    · rw [ht, hhist₁, List.mem_append] at he
      rcases he with he | he
      · exact Or.inl ⟨r.currentTerm, by rw [hhist]; exact he⟩
      · exact Or.inr he
    · rw [hA₁, append_hist_of_ne ht] at he
      exact Or.inl ⟨t, he⟩
  have hterm₁ : A₁.term n = r.currentTerm := hterm
  set A₂ := A₁.store n (A.log n ++ es) with hA₂
  have hgood₂ : Good S mb A₂ := by
    apply hgood₁.store
    · rw [hterm₁, hhist₁]
    · rw [hterm₁, show A₁.leader r.currentTerm = some n from hlead]
      simp
    · intro _ p _ hpl
      exact List.IsPrefix.trans hpl (List.prefix_append _ _)
  have hlog₂ : A₂.log n = A.log n ++ es := store_log_self
  set A₃ := A₂.acknowledge n (A.log n ++ es).length with hA₃
  have hgood₃ : Good S mb A₃ := by
    apply hgood₂.acknowledge
    · rw [show A₂.term n = r.currentTerm from hterm]
      exact le_of_eq (congrArg _ hhist₁.symm)
    · rw [show A₂.term n = r.currentTerm from hterm, hlog₂,
        show A₂.hist r.currentTerm = A.log n ++ es from hhist₁]
      exact List.take_prefix _ _
  have hext₃ : Ext LogEntry.term n A₁ A₃ := ext_store.trans ext_acknowledge
  have hext : Ext LogEntry.term n A A₃ := hext₁.trans hext₃
  have hlog₃ : A₃.log n = A.log n ++ es := hlog₂
  have hhist₃ : A₃.hist r.currentTerm = A.log n ++ es := hhist₁
  refine ⟨hgood₁, hmoves₁, hhist₁, A₃, ?_, .of_hist_eq hext₃ rfl, hlog₃⟩
  exact
    { good := hgood₃
      mirrors :=
        { __ := h.mirrors
          log_eq := by
            rw [hlog₃]
            show r.log ++ es = window (A.log n ++ es) r.snapshot.lastIncludedIndex
            rw [h.spans.log_eq, window_append h.spans.le]
          snap_le := by
            rw [hlog₃]
            exact h.spans.le.trans (by simp)
          snap_term := by
            rw [hlog₃]
            refine h.mirrors.snap_term.trans ?_
            exact termAt_of_isPrefix LogEntry.term (List.prefix_append _ _) h.spans.le
          leader := fun _ => ⟨hlead, by rw [hlog₃]; exact hhist₃⟩
          candidate := fun hl => by rw [show r.role = .candidate from hl] at hr; cases hr }
      msgs := fun x hx => (h.msgs x hx).mono hext.toGrows
      secure := fun hS =>
        { commit := by
            rw [hlog₃]
            exact ((h.secure hS).commit.grows hext.toGrows).mono le_rfl le_rfl
              (List.prefix_append _ _)
          snap_le_commit := (h.secure hS).snap_le_commit
          leads := fun _ =>
            { com_le := ((h.secure hS).leads hr).com_le
              ack_self := by
                have hack := acknowledge_ack_self (s := A₂) (n := n) (k := (A.log n ++ es).length)
                rw [show A₂.term n = r.currentTerm from hterm] at hack
                show (A₃.hist r.currentTerm).length ≤ A₃.ack n r.currentTerm
                rw [hA₃, hack, ← hA₃, hhist₃]
                exact le_max_right _ _
              next_pos := ((h.secure hS).leads hr).next_pos
              next_le := fun p hp => by
                rw [hlog₃, List.length_append]
                exact (((h.secure hS).leads hr).next_le p hp).trans (by omega)
              sent_le := fun p hp => by
                rw [hlog₃, List.length_append]
                exact (((h.secure hS).leads hr).sent_le p hp).trans (by omega)
              acked := fun p hp => (((h.secure hS).leads hr).acked p hp).mono hext.toGrows } }
      msgsSafe := fun hS x hx => (h.msgsSafe hS x hx).mono hext.toGrows }

/-- The end of `ProposeBatch`: a round of messages, and a commit if the node is alone. -/
theorem proposeEnd (h : Live S mb A n r.view) (hr : r.role = .leader) : ∃ r₁ r',
    r.broadcast 0 = some r₁ ∧
    (if r₁.peers = [] then r₁.maybeAdvanceCommitIndex else pure r₁) = some r' ∧
    r'.currentTerm = r.currentTerm ∧ r'.votedFor = r.votedFor ∧ Quiet S mb A n r r' := by
  obtain ⟨r₁, hrun₁, ⟨ms, f, hr₁⟩, h₁⟩ := h.broadcast hr 0
  refine ⟨r₁, ?_⟩
  by_cases hnil : r₁.peers = []
  · obtain ⟨c, hrun, A₂, hlive, hmoves, hlog, hd⟩ :=
      h₁.maybeAdvanceCommitIndex (by rw [hr₁]; exact hr)
    refine ⟨_, hrun₁, ?_, ?_, ?_, A₂, hlive, hmoves, hlog, ?_⟩
    · rw [if_pos hnil]
      exact hrun
    · rw [hr₁]
    · rw [hr₁]
    · rw [hd, hr₁]
      rfl
  · refine ⟨r₁, hrun₁, ?_, ?_, ?_, h₁.quiet (by rw [hr₁]; rfl)⟩
    · rw [if_neg hnil]
      rfl
    · rw [hr₁]
    · rw [hr₁]

/-- **`ProposeBatch` writes the leader's history.** -/
theorem proposeBatch (h : Live S mb A n r.view) (hu : r.unstableIndex = (A.log n).length + 1)
    {datas : List Bytes} {res : Except Error (List ℕ)}
    (hrun : r.proposeBatch datas = some (r', res)) :
    Called S mb A n
      (if r.role = .leader then entriesFrom r.currentTerm (A.log n).length datas else []) r r' := by
  unfold Raft.proposeBatch at hrun
  by_cases hr : r.role = .leader
  swap
  · rw [if_pos hr] at hrun
    cases hrun
    exact .quiet (h.quiet rfl)
  rw [if_neg (not_not.mpr hr)] at hrun
  rw [if_pos hr]
  obtain ⟨happ, hidx⟩ := h.spans.appendDatas datas
  obtain ⟨es, hes⟩ : ∃ es, es = entriesFrom r.currentTerm (A.log n).length datas := ⟨_, rfl⟩
  rw [← hes] at happ hidx ⊢
  simp only [happ, Option.bind_eq_bind, Option.bind_some] at hrun
  obtain ⟨hgood₁, hmoves₁, hhist₁, A₂, h₂, hmoves₂, hlog₂⟩ :=
    h.proposed hr (hes ▸ entriesFrom_term) hidx
  obtain ⟨r₁, r₂, hb, hc, hterm, hvote, hq⟩ := h₂.proposeEnd hr
  have hrun' : (if r₁.peers = [] then r₁.maybeAdvanceCommitIndex else pure r₁).bind
      (fun r => pure (r, .ok (es.map LogEntry.index))) = some (r', res) := by
    rw [← hrun, hb, Option.bind_some]
    split_ifs <;> rfl
  rw [hc, Option.bind_some] at hrun'
  cases hrun'
  by_cases hnil : datas = []
  · -- nothing proposed: only messages
    have hes0 : es = [] := by rw [hes, hnil]; rfl
    rw [hes0] at h₂ hb
    simp only [List.append_nil] at h₂ hb
    obtain ⟨r₁', r₂', hb', hc', -, -, hq'⟩ := h.proposeEnd hr
    rw [show r.broadcast 0 = some r₁ from hb] at hb'
    cases hb'
    rw [hc] at hc'
    cases hc'
    exact .quiet hq'
  · obtain ⟨A₃, h₃, hmoves₃, hlog₃, hd₃⟩ := hq
    have hlen : 0 < es.length := List.length_pos_of_ne_nil (hes ▸ entriesFrom_ne_nil hnil)
    have hlog : A₃.log n = A.log n ++ es := hlog₃.trans hlog₂
    have hunst : r'.unstableIndex = (A.log n).length + 1 :=
      (congrArg (fun d => d.2.2.1) hd₃).trans hu
    have hsnap : r'.snapshot = r.snapshot := congrArg (fun d => d.2.1) hd₃
    have hstable : r'.stable = r.stable := congrArg (fun d => d.2.2.2) hd₃
    have hlead : A.leader r.currentTerm = some n := (h.mirrors.leader hr).1
    have hAterm : A.term n = r.currentTerm := h.mirrors.term_eq
    have htake : (A₃.log n).take (r'.unstableIndex - 1) = A.log n := by
      rw [hlog, hunst, Nat.add_sub_cancel, List.take_left]
    have hterm₂ : r'.currentTerm = r.currentTerm := hterm
    have hvote₂ : r'.votedFor = r.votedFor := hvote
    refine .wrote (A.append r.currentTerm es) A₃ h₃ hgood₁ hmoves₁
      (hmoves₂.trans hmoves₃.weaken) rfl ?_ ?_ hstable hsnap ?_ ?_ ?_ ?_ ?_ ?_
    · rw [hterm₂]; exact hAterm
    · have hv₃ : A₃.vote n r'.currentTerm = if r'.votedFor = 0 then none else some r'.votedFor :=
        h₃.mirrors.vote_eq
      have hv : A.vote n r.currentTerm = if r.votedFor = 0 then none else some r.votedFor :=
        h.mirrors.vote_eq
      rw [hv₃, hvote₂, hterm₂]
      exact hv
    · rw [hunst]
      have := h.spans.le
      omega
    · rw [hlog, hunst, List.length_append]
      omega
    · rw [htake, hunst, Nat.add_sub_cancel, List.take_length]
    · rw [hlog, hterm₂, hhist₁]
    · rw [hterm₂, show (A.append r.currentTerm es).leader r.currentTerm = some n from hlead]
      simp
    · rw [htake]
      exact fun p _ hpl => hpl

/-! ## The rest -/

theorem tick (h : Live S mb A n r.view) (hrun : r.tick = some r') : Quiet S mb A n r r' := by
  unfold Raft.tick at hrun
  dsimp only at hrun
  split_ifs at hrun with h1 h2 h3
  · obtain ⟨r₁, hrun₁, ⟨ms, f, rfl⟩, h₁⟩ :=
      Live.broadcast (r := { r with heartbeatElapsed := 0 }) h h1 0
    rw [Raft.sendHeartbeats, hrun₁] at hrun
    obtain rfl := Option.some.inj hrun
    exact h₁.quiet rfl
  · obtain rfl := Option.some.inj hrun
    exact Live.quiet (r := r) h rfl
  · obtain ⟨r₁, hrun₁, hq⟩ := Live.becomePreCandidate
      (r := { r with electionElapsed := r.electionElapsed + 1 }) h
    rw [hrun₁] at hrun
    obtain rfl := Option.some.inj hrun
    exact hq
  · obtain rfl := Option.some.inj hrun
    exact Live.quiet (r := r) h rfl

theorem requestReadIndex (h : Live S mb A n r.view) {ctx : ℕ} {err : Except Error Unit}
    (hrun : r.requestReadIndex ctx = some (r', err)) : Quiet S mb A n r r' := by
  unfold Raft.requestReadIndex at hrun
  dsimp only at hrun
  split_ifs at hrun with h1 h2
  · cases hrun
    exact h.quiet rfl
  · cases hrun
    exact Live.quiet (r := r) h rfl
  · obtain ⟨r₁, hrun₁, ⟨ms, f, rfl⟩, h₁⟩ := Live.broadcast
      (r :=
        { r with pendingReads :=
            Function.update r.pendingReads ctx (some ⟨r.commitIndex, {r.id}⟩) })
      h (not_not.mp h1) ctx
    rw [hrun₁] at hrun
    cases hrun
    exact h₁.quiet rfl

end Live

/-! ## All calls -/

/-- The entries a call creates. -/
def Op.new (r : Raft) : Op → List LogEntry
  | .propose datas =>
    if r.role = .leader then entriesFrom r.currentTerm (r.lastLogIndex.getD 0) datas else []
  | _ => []

/-- The condition under which a call keeps the safe half of the relation. -/
def Op.Safe (r : Raft) : Op → Prop
  | .step m => m.type = .installSnapshot → SafeInstall r m
  | _ => True

instance (r : Raft) : ∀ op : Op, Decidable (op.Safe r)
  | .step m => inferInstanceAs (Decidable (m.type = .installSnapshot → SafeInstall r m))
  | .tick | .propose _ | .readIndex _ | .createSnapshot _ _ => .isTrue trivial

/-- **Every call that does not panic is simulated.** -/
theorem Live.called (h : Live S mb A n r.view)
    (hu : r.unstableIndex = (A.log n).length + 1) {op : Op}
    (hmsg : ∀ m, op = .step m → MsgOk mb A m ∧ (S → MsgSafe A m)) (hsafe : S → op.Safe r)
    (hrun : op.run r = some r') : Called S mb A n (op.new r) r r' := by
  cases op with
  | tick => exact .quiet (h.tick hrun)
  | step m =>
    obtain ⟨hm, hms⟩ := hmsg m rfl
    have hrun' : r.step m = some r' := hrun
    unfold Raft.step at hrun'
    split_ifs at hrun' with hto
    · obtain rfl := Option.some.inj hrun'
      exact .quiet (h.quiet rfl)
    rw [not_not] at hto
    cases hty : m.type with
    | preVote => rw [hty] at hrun'; exact .quiet (h.handlePreVote hm hto hrun')
    | preVoteResponse => rw [hty] at hrun'; exact .quiet (h.handlePreVoteResponse hrun')
    | requestVote => rw [hty] at hrun'; exact .quiet (h.handleRequestVote hm hto hty hrun')
    | requestVoteResponse =>
      rw [hty] at hrun'; exact .quiet (h.handleRequestVoteResponse hm hto hty hrun')
    | appendEntries => rw [hty] at hrun'; exact h.handleAppendEntries hu hm hms hto hty hrun'
    | appendEntriesResponse =>
      rw [hty] at hrun'; exact .quiet (h.handleAppendEntriesResponse hm hms hto hty hrun')
    | installSnapshot =>
      rw [hty] at hrun'
      exact h.handleInstallSnapshot hm hms hto hty (fun hS => hsafe hS hty) hrun'
    | installSnapshotResponse =>
      rw [hty] at hrun'; exact .quiet (h.handleInstallSnapshotResponse hms hty hrun')
  | propose datas =>
    obtain ⟨⟨r₁, res⟩, hrun', rfl⟩ := Option.map_eq_some_iff.mp hrun
    have hc := h.proposeBatch hu hrun'
    rw [Op.new, h.spans.lastLogIndex]
    exact hc
  | readIndex ctx =>
    obtain ⟨⟨r₁, res⟩, hrun', rfl⟩ := Option.map_eq_some_iff.mp hrun
    exact .quiet (h.requestReadIndex hrun')
  | createSnapshot index data =>
    obtain ⟨⟨r₁, res⟩, hrun', rfl⟩ := Option.map_eq_some_iff.mp hrun
    exact h.createSnapshot hu hrun'

end KvStore
