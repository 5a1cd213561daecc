import KvStore.Consensus.Protocol

/-!
# Safety of the abstract protocol

Every move of `Protocol.lean` keeps `Safe` under its guard, and what `Safe` gives:

* `Safe.com_isPrefix` (leader completeness): what the leader of a term committed, every later leader
  has;
* `Safe.com_take_eq` (state machine safety): two committed prefixes agree;
* `Safe.majority_stores`: a majority stores what was committed.

`Backed s t k l` is the form the last facts are used in: the first `k` entries of the log `l` were
committed in a term up to `t`. `Decided s l` is all of it, in whatever term: such logs are the
beginnings of one log (`Decided.isPrefix`).
-/

namespace KvStore.Consensus

variable {N E : Type*} [DecidableEq N] {τ : E → ℕ} {M : Finset N} {s s' : State N E} {n : N}

/-! ## Every guarded move keeps the state safe -/

omit [DecidableEq N] in
theorem safe_init : Safe τ M (State.init : State N E) where
  acked := fun _ _ _ hk hc => absurd (Nat.le_zero.mp hk) hc.1
  voted := fun _ _ _ hv => by simp [State.init] at hv
  complete := fun _ hl => absurd rfl hl
  chosen := fun _ h => absurd rfl h

omit [DecidableEq N] in
/-- A move that leaves the histories and the acknowledgements alone makes no index choosable. -/
theorem Choosable.of_term_le {t k : ℕ} (h : Choosable τ M s' t k) (hh : s'.hist t = s.hist t)
    (ha : ∀ q, s'.ack q t = s.ack q t) (ht : ∀ q, s.term q ≤ s'.term q) :
    Choosable τ M s t k := by
  obtain ⟨h0, hk, hte, Q, hQ, hq⟩ := h
  rw [hh] at hk hte
  refine ⟨h0, hk, hte, Q, hQ, fun q hqQ => ?_⟩
  rcases hq q hqQ with hq | hq
  · exact Or.inl (by rw [← ha q]; exact hq)
  · exact Or.inr ((ht q).trans hq)

section SafeMoves

variable {t : ℕ} {c : N} {es l : List E} {k : ℕ}

theorem safe_advance (h : Safe τ M s) (ht : s.term n ≤ t) : Safe τ M (s.advance n t) := by
  have hback : ∀ u j, Choosable τ M (s.advance n t) u j → Choosable τ M s u j := fun u j hc =>
    hc.of_term_le rfl (fun _ => rfl) (ext_advance (τ := τ) ht).term_le
  exact
    { acked := fun q u j hj hc => h.acked q u j hj (hback u j hc)
      voted := fun q u d hv w j hwu hj hc => h.voted q u d hv w j hwu hj (hback w j hc)
      complete := fun u hl w j hwu hc => h.complete u hl w j hwu (hback w j hc)
      chosen := fun u hu => (h.chosen u hu).mono (ext_advance ht).toGrows }

theorem safe_campaign (hw : Wf τ M s) (h : Safe τ M s) (ht : s.term n < t) :
    Safe τ M (s.campaign n t) := by
  have hback : ∀ u j, Choosable τ M (s.campaign n t) u j → Choosable τ M s u j := fun u j hc =>
    hc.of_term_le rfl (fun _ => rfl) (ext_campaign hw ht).term_le
  exact
    { acked := fun q u j hj hc => h.acked q u j hj (hback u j hc)
      voted := fun q u d hv w j hwu hj hc => by
        rcases campaign_vote hv with ⟨rfl, rfl, rfl⟩ | ⟨hne, hv'⟩
        · rw [campaign_cand_self]
          exact h.acked _ w j hj (hback w j hc)
        · have hd := hw.vote_self q u d hv'
          rw [(ext_campaign hw ht).cand_keep d u hd]
          exact h.voted q u d hv' w j hwu hj (hback w j hc)
      complete := fun u hl w j hwu hc => h.complete u hl w j hwu (hback w j hc)
      chosen := fun u hu => (h.chosen u hu).mono (ext_campaign hw ht).toGrows }

omit [DecidableEq N] in
/-- **An up-to-date log has everything choosable that the voter has**: the last term of the
candidate's log is the voter's, and then it is the longer one, or it is a later one, whose leader
already had it. -/
theorem prefix_of_upToDate (hw : Wf τ M s) (h : Safe τ M s) {u j : ℕ}
    (hc : Choosable τ M s u j) {a b : List E} (ha : Canon τ s.hist a) (hb : Canon τ s.hist b)
    (hj : (s.hist u).take j <+: a) (hab : UpToDate τ a b) : (s.hist u).take j <+: b := by
  have hterm := hc.2.2.1
  have h0 := hc.1
  have hlen := hc.2.1
  have hjlen : ((s.hist u).take j).length = j := List.length_take_of_le hlen
  have hane : a ≠ [] := by
    rintro rfl
    have := hj.length_le
    rw [hjlen, List.length_nil] at this
    omega
  have hua : u ≤ lastTerm τ a := by
    rw [← hterm]
    exact ha.lastTerm_mono hw.hist_le hj List.prefix_rfl
  rcases hab with hlt | ⟨heq, hle⟩
  · have hbne : b ≠ [] := by
      rintro rfl
      rw [lastTerm_nil] at hlt
      omega
    have hpb := hb.prefix_last hbne
    obtain ⟨e, he, -⟩ := exists_mem_lastTerm τ hbne
    have hl := hw.leader_of_mem (hpb.subset he)
    have hp := h.complete (lastTerm τ b) hl u j (by omega) hc
    -- the candidate's last entry is of a later term, so it lies past the chosen one
    rcases List.prefix_or_prefix_of_prefix hp hpb with hp' | hp'
    · exact hp'
    · have := (hw.canon_hist u).lastTerm_mono hw.hist_le hp' (List.take_prefix j _)
      rw [show lastTerm τ ((s.hist u).take j) = u from hterm] at this
      omega
  · have hbne : b ≠ [] := by
      rintro rfl
      have hl0 : a.length = 0 := Nat.le_zero.mp hle
      exact hane (List.length_eq_zero_iff.mp hl0)
    have hpa := ha.prefix_last hane
    have hpb := hb.prefix_last hbne
    rw [← heq] at hpb
    exact hj.trans (prefix_of_length_le hpa hpb hle)

theorem safe_grant (hw : Wf τ M s) (h : Safe τ M s) (hc : s.vote c t = some c)
    (hv : s.vote n t = none ∨ s.vote n t = some c) (hup : UpToDate τ (s.log n) (s.cand c t)) :
    Safe τ M (s.grant n c t) where
  acked := h.acked
  voted := fun q u d hd w j hwu hj hch => by
    rcases grant_vote hd with ⟨rfl, rfl, rfl⟩ | hd
    · exact prefix_of_upToDate hw h hch (hw.canon_log _) (hw.canon_cand _ _ hc)
        (h.acked _ w j hj hch) hup
    · exact h.voted q u d hd w j hwu hj hch
  complete := h.complete
  chosen := fun u hu => (h.chosen u hu).mono (ext_grant hv).toGrows

theorem safe_elect (hw : Wf τ M s) (h : Safe τ M s) (hl : s.leader t = none) {Q : Finset N}
    (hQ : Majority M Q) (hv : ∀ q ∈ Q, s.vote q t = some n) (hn : s.vote n t = some n) :
    Safe τ M (s.elect n t) := by
  -- the new leader has written nothing yet, so nothing of its term is choosable
  have hne : ∀ u j, Choosable τ M (s.elect n t) u j → u ≠ t := by
    intro u j hc hu
    obtain ⟨h0, hk, hte, -⟩ := hc
    rw [hu, elect_hist_self] at hk hte
    have hnil : (s.cand n t).take j ≠ [] := by
      intro hnil
      have := congrArg List.length hnil
      rw [List.length_take, List.length_nil] at this
      omega
    obtain ⟨e, he, hee⟩ := exists_mem_lastTerm τ hnil
    have := hw.cand_lt n t hn e (List.mem_of_mem_take he)
    rw [termAt] at hte
    omega
  have hback : ∀ u j, Choosable τ M (s.elect n t) u j → Choosable τ M s u j := fun u j hc =>
    hc.of_term_le (elect_hist_of_ne (hne u j hc)) (fun _ => rfl) (fun _ => le_rfl)
  exact
    { acked := fun q u j hj hc => by
        rw [elect_hist_of_ne (hne u j hc)]
        exact h.acked q u j hj (hback u j hc)
      voted := fun q u d hd w j hwu hj hc => by
        rw [elect_hist_of_ne (hne w j hc)]
        exact h.voted q u d hd w j hwu hj (hback w j hc)
      complete := fun u hlu w j hwu hc => by
        rw [elect_hist_of_ne (hne w j hc)]
        by_cases hu : u = t
        · -- a voter of the new leader acknowledged the index and can no longer do so afterwards
          rw [hu] at hwu ⊢
          rw [elect_hist_self]
          obtain ⟨P, hP, hPa⟩ := (hback w j hc).2.2.2
          obtain ⟨x, hxP, hxQ⟩ := hP.inter hQ
          have hvx := hv x hxQ
          have hxt := hw.vote_le x t n hvx
          rcases hPa x hxP with hx | hx
          · exact h.voted x t n hvx w j hwu hx (hback w j hc)
          · omega
        · rw [elect_hist_of_ne hu]
          rw [elect_leader_of_ne hu] at hlu
          exact h.complete u hlu w j hwu (hback w j hc)
      chosen := fun u hu => (h.chosen u hu).mono (ext_elect hw hl).toGrows }

theorem safe_append (hw : Wf τ M s) (h : Safe τ M s) (hl : s.leader t = some n)
    (hes : ∀ e ∈ es, τ e = t) : Safe τ M (s.append t es) := by
  have hext := ext_append (τ := τ) hl hes
  -- an index that was there before is as choosable as it was
  have hback : ∀ u j, j ≤ (s.hist u).length → Choosable τ M (s.append t es) u j →
      Choosable τ M s u j ∧ ((s.append t es).hist u).take j = (s.hist u).take j := by
    intro u j hj hc
    obtain ⟨h0, -, hte, hQ⟩ := hc
    refine ⟨⟨h0, hj, ?_, hQ⟩, take_eq_of_isPrefix (hext.hist_isPrefix u) hj⟩
    rw [termAt_of_isPrefix τ (hext.hist_isPrefix u) hj, hte]
  exact
    { acked := fun q u j hj hc => by
        obtain ⟨hc', he⟩ := hback u j (hj.trans (hw.ack_le q u)) hc
        rw [he]
        exact h.acked q u j hj hc'
      voted := fun q u d hd w j hwu hj hc => by
        obtain ⟨hc', he⟩ := hback w j (hj.trans (hw.ack_le q w)) hc
        rw [he]
        exact h.voted q u d hd w j hwu hj hc'
      complete := fun u hlu w j hwu hc => by
        -- a later leader's voters have left term `w`, so a new entry of `w` is not choosable
        have hj : j ≤ (s.hist w).length := by
          obtain ⟨P, hP, hPa⟩ := hc.2.2.2
          obtain ⟨d, hd⟩ := Option.ne_none_iff_exists'.mp hlu
          obtain ⟨Q, hQ, hQv⟩ := hw.elected u d hd
          obtain ⟨x, hxP, hxQ⟩ := hP.inter hQ
          have hxu := hw.vote_le x u d (hQv x hxQ)
          rcases hPa x hxP with hx | hx
          · exact le_trans hx (hw.ack_le x w)
          · have : s.term x ≤ w := hx
            omega
        obtain ⟨hc', he⟩ := hback w j hj hc
        rw [he]
        exact (h.complete u hlu w j hwu hc').trans (hext.hist_isPrefix u)
      chosen := fun u hu => (h.chosen u hu).mono hext.toGrows }

theorem safe_store (hw : Wf τ M s) (h : Safe τ M s) (hl : s.leader (s.term n) ≠ none)
    (hkeep : Keeps s n l) : Safe τ M (s.store n l) where
  acked := fun q u j hj hc => by
    by_cases hq : q = n
    · subst hq
      rw [store_log_self]
      have hold := h.acked q u j hj hc
      apply hkeep _ _ hold
      have hack : s.ack q u ≠ 0 := fun h0 => hc.1 (by
        have hj' : j ≤ s.ack q u := hj
        omega)
      rcases Nat.lt_or_ge u (s.term q) with hlt | hge
      · exact h.complete _ hl u j hlt hc
      · have : u = s.term q := le_antisymm (hw.ack_term q u hack) hge
        rw [this]
        exact List.take_prefix _ _
    · rw [store_log_of_ne hq]
      exact h.acked q u j hj hc
  voted := h.voted
  complete := h.complete
  chosen := fun u hu => (h.chosen u hu).mono ext_store.toGrows

theorem safe_acknowledge (hw : Wf τ M s) (h : Safe τ M s)
    (hk : (s.hist (s.term n)).take k <+: s.log n) : Safe τ M (s.acknowledge n k) := by
  -- a node in the term can acknowledge already, so nothing becomes choosable
  have hback : ∀ u j, Choosable τ M (s.acknowledge n k) u j → Choosable τ M s u j := by
    rintro u j ⟨h0, hj, hte, Q, hQ, hq⟩
    refine ⟨h0, hj, hte, Q, hQ, fun q hqQ => ?_⟩
    rcases acknowledge_ack (s := s) (n := n) (k := k) q u with ha | ⟨rfl, rfl, -⟩
    · rw [← ha]; exact hq q hqQ
    · exact Or.inr le_rfl
  exact
    { acked := fun q u j hj hc => by
        rcases acknowledge_ack (s := s) (n := n) (k := k) q u with ha | ⟨rfl, rfl, ha⟩
        · exact h.acked q u j (ha ▸ hj) (hback u j hc)
        · rw [ha] at hj
          exact (List.take_prefix_take_left hj).trans hk
      voted := fun q u d hd w j hwu hj hc => by
        rcases acknowledge_ack (s := s) (n := n) (k := k) q w with ha | ⟨rfl, rfl, -⟩
        · exact h.voted q u d hd w j hwu (ha ▸ hj) (hback w j hc)
        · have := hw.vote_le q u d hd
          omega
      complete := fun u hlu w j hwu hc => h.complete u hlu w j hwu (hback w j hc)
      chosen := fun u hu => (h.chosen u hu).mono ext_acknowledge.toGrows }

omit [DecidableEq N] in
theorem safe_commit (h : Safe τ M s) (hk : Chosen τ M s t k) : Safe τ M (s.commit t k) where
  acked := h.acked
  voted := h.voted
  complete := h.complete
  chosen := fun u hu => by
    by_cases hut : u = t
    · rw [hut, commit_com_self]
      exact hk
    · rw [commit_com_of_ne hut] at hu ⊢
      exact h.chosen u hu

end SafeMoves

/-! ## What safety gives -/

omit [DecidableEq N] in
/-- **Leader completeness**: what the leader of a term committed, every later leader has. -/
theorem Safe.com_isPrefix (h : Safe τ M s) {t u : ℕ} (htu : t < u) (hl : s.leader u ≠ none) :
    (s.hist t).take (s.com t) <+: s.hist u := by
  by_cases h0 : s.com t = 0
  · rw [h0, List.take_zero]
    exact List.nil_prefix
  · exact h.complete u hl t _ htu (h.chosen t h0).choosable

omit [DecidableEq N] in
/-- A term with something committed had a leader. -/
theorem Wf.leader_of_com (h : Wf τ M s) {t : ℕ} (h0 : s.com t ≠ 0) : s.leader t ≠ none :=
  fun hl => h0 (h.com_nil t hl)

omit [DecidableEq N] in
/-- **State machine safety**: two committed prefixes agree. -/
theorem Safe.com_take_eq (h : Safe τ M s) (hw : Wf τ M s) {t u i : ℕ} (hit : i ≤ s.com t)
    (hiu : i ≤ s.com u) : (s.hist t).take i = (s.hist u).take i := by
  by_cases h0 : i = 0
  · simp [h0]
  -- the later of the two terms has the other's committed prefix
  have key : ∀ {t u : ℕ}, t < u → i ≤ s.com t → i ≤ s.com u →
      (s.hist t).take i = (s.hist u).take i := by
    intro t u htu hit hiu
    have hp := h.com_isPrefix htu (hw.leader_of_com (t := u) (by omega))
    have hlen : s.com t ≤ (s.hist t).length := (h.chosen t (by omega)).2.1
    have := take_eq_of_isPrefix hp (n := i) (by rw [List.length_take]; omega)
    rw [List.take_take, min_eq_left hit] at this
    exact this.symm
  rcases lt_trichotomy t u with htu | rfl | htu
  · exact key htu hit hiu
  · rfl
  · exact (key htu hiu hit).symm

/-- The first `k` entries of `l` were committed in a term up to `t`. -/
def Backed (s : State N E) (t k : ℕ) (l : List E) : Prop :=
  k = 0 ∨ ∃ u ≤ t, k ≤ s.com u ∧ k ≤ (s.hist u).length ∧ (s.hist u).take k <+: l

namespace Backed

variable {t t' k k' j : ℕ} {l l' : List E}

omit [DecidableEq N] in
theorem zero : Backed s t 0 l := Or.inl rfl

omit [DecidableEq N] in
theorem le_length (h : Backed s t k l) : k ≤ l.length := by
  rcases h with rfl | ⟨u, -, -, hk, hp⟩
  · exact Nat.zero_le _
  · have := hp.length_le
    rwa [List.length_take_of_le hk] at this

omit [DecidableEq N] in
theorem mono (h : Backed s t k l) (ht : t ≤ t') (hk : k' ≤ k) (hl : l <+: l') :
    Backed s t' k' l' := by
  rcases h with rfl | ⟨u, hu, hc, hlen, hp⟩
  · exact Or.inl (Nat.le_zero.mp hk)
  · exact Or.inr ⟨u, hu.trans ht, hk.trans hc, hk.trans hlen,
      (List.take_prefix_take_left hk).trans (hp.trans hl)⟩

omit [DecidableEq N] in
theorem take (h : Backed s t k l) (hk : k ≤ j) : Backed s t k (l.take j) := by
  rcases h with h0 | ⟨u, hu, hc, hlen, hp⟩
  · exact Or.inl h0
  · refine Or.inr ⟨u, hu, hc, hlen, ?_⟩
    rw [List.prefix_take_iff]
    exact ⟨hp, by rw [List.length_take]; omega⟩

omit [DecidableEq N] in
theorem grows (h : Backed s t k l) (hg : Grows τ s s') : Backed s' t k l := by
  rcases h with h0 | ⟨u, hu, hc, hlen, hp⟩
  · exact Or.inl h0
  · have hh := hg.hist_isPrefix u
    refine Or.inr ⟨u, hu, hc.trans (hg.com_le u), hlen.trans hh.length_le, ?_⟩
    rwa [take_eq_of_isPrefix hh hlen]

omit [DecidableEq N] in
theorem of_com (h : Safe τ M s) (hk : k ≤ s.com t) : Backed s t k (s.hist t) := by
  by_cases h0 : k = 0
  · exact Or.inl h0
  · exact Or.inr ⟨t, le_rfl, hk, hk.trans (h.chosen t (by omega)).2.1, List.take_prefix _ _⟩

omit [DecidableEq N] in
/-- What was committed up to a term, the leader of that term has. -/
theorem take_hist (h : Safe τ M s) (hb : Backed s t k l) (hl : s.leader t ≠ none) :
    k ≤ (s.hist t).length ∧ (s.hist t).take k <+: l := by
  rcases hb with rfl | ⟨u, hu, hc, hlen, hp⟩
  · exact ⟨Nat.zero_le _, by simp⟩
  rcases Nat.eq_or_lt_of_le hu with rfl | hlt
  · exact ⟨hlen, hp⟩
  · have hpre := h.com_isPrefix hlt hl
    have hpre' : (s.hist u).take k <+: s.hist t := (List.take_prefix_take_left hc).trans hpre
    have hk : k ≤ (s.hist t).length := by
      have := hpre'.length_le
      rwa [List.length_take_of_le hlen] at this
    refine ⟨hk, ?_⟩
    have : (s.hist t).take k = (s.hist u).take k := by
      have := List.prefix_iff_eq_take.mp hpre'
      rw [List.length_take_of_le hlen] at this
      exact this.symm
    rwa [this]

omit [DecidableEq N] in
/-- A log that keeps what the old one shares with the leader's keeps what was committed. -/
theorem of_keeps (h : Safe τ M s) (hb : Backed s t k l) (hl : s.leader t ≠ none)
    (hk : ∀ p, p <+: s.hist t → p <+: l → p <+: l') : Backed s t k l' := by
  rcases hb with rfl | ⟨u, hu, hc, hlen, hp⟩
  · exact Backed.zero
  · refine Or.inr ⟨u, hu, hc, hlen, hk _ ?_ hp⟩
    rcases Nat.eq_or_lt_of_le hu with rfl | hlt
    · exact List.take_prefix _ _
    · exact (List.take_prefix_take_left hc).trans (h.com_isPrefix hlt hl)

omit [DecidableEq N] in
/-- Two committed beginnings agree. -/
theorem take_eq (hw : Wf τ M s) (h : Safe τ M s) (hb : Backed s t k l) (hb' : Backed s t' k l') :
    l.take k = l'.take k := by
  rcases hb with rfl | ⟨u, -, hc, hlen, hp⟩
  · simp
  rcases hb' with rfl | ⟨u', -, hc', hlen', hp'⟩
  · simp
  have h1 := List.prefix_iff_eq_take.mp hp
  have h2 := List.prefix_iff_eq_take.mp hp'
  rw [List.length_take_of_le hlen] at h1
  rw [List.length_take_of_le hlen'] at h2
  rw [← h1, ← h2]
  exact h.com_take_eq hw hc hc'

end Backed

/-- All entries of `l` were committed. -/
def Decided (s : State N E) (l : List E) : Prop := ∃ t, Backed s t l.length l

namespace Decided

variable {t k : ℕ} {l l' : List E}

omit [DecidableEq N] in
theorem nil : Decided s [] := ⟨0, Backed.zero⟩

omit [DecidableEq N] in
theorem of_backed (h : Backed s t k l) : Decided s (l.take k) := by
  refine ⟨t, ?_⟩
  rw [List.length_take_of_le h.le_length]
  exact h.take le_rfl

omit [DecidableEq N] in
theorem of_isPrefix (h : Decided s l) (hp : l' <+: l) : Decided s l' := by
  obtain ⟨t, h⟩ := h
  have hdec := of_backed (h.mono le_rfl hp.length_le List.prefix_rfl)
  rwa [← List.prefix_iff_eq_take.mp hp] at hdec

omit [DecidableEq N] in
theorem grows (h : Decided s l) (hg : Grows τ s s') : Decided s' l := by
  obtain ⟨t, h⟩ := h
  exact ⟨t, h.grows hg⟩

omit [DecidableEq N] in
/-- It was written by the leader of a term. -/
theorem isPrefix_hist (h : Decided s l) : l = [] ∨ ∃ u, l <+: s.hist u := by
  obtain ⟨t, h0 | ⟨u, -, -, hlen, hp⟩⟩ := h
  · exact Or.inl (List.eq_nil_of_length_eq_zero h0)
  · refine Or.inr ⟨u, ?_⟩
    have heq := hp.eq_of_length (List.length_take_of_le hlen)
    rw [← heq]
    exact List.take_prefix _ _

omit [DecidableEq N] in
/-- **The committed logs are beginnings of one log.** -/
theorem isPrefix (hw : Wf τ M s) (hs : Safe τ M s) (h : Decided s l) (h' : Decided s l')
    (hlen : l.length ≤ l'.length) : l <+: l' := by
  obtain ⟨t, h⟩ := h
  obtain ⟨t', h'⟩ := h'
  have heq := h.take_eq hw hs (h'.mono le_rfl hlen List.prefix_rfl)
  rw [List.take_length] at heq
  exact List.prefix_iff_eq_take.mpr heq

end Decided

omit [DecidableEq N] in
/-- **Committed entries are kept**: a majority stores what the leader of a term committed. -/
theorem Safe.majority_stores (h : Safe τ M s) {t : ℕ} (h0 : s.com t ≠ 0) :
    ∃ Q, Majority M Q ∧ ∀ q ∈ Q, (s.hist t).take (s.com t) <+: s.log q := by
  obtain ⟨Q, hQ, hack⟩ := (h.chosen t h0).2.2.2
  exact ⟨Q, hQ, fun q hq => h.acked q t _ (hack q hq) (h.chosen t h0).choosable⟩

omit [DecidableEq N] in
/-- What is backed, a majority stores. -/
theorem Backed.majority (h : Safe τ M s) {t k : ℕ} {l : List E} (hb : Backed s t k l) (h0 : k ≠ 0) :
    ∃ Q, Majority M Q ∧ ∀ q ∈ Q, l.take k <+: s.log q := by
  obtain ⟨u, -, hc, hlen, hp⟩ := hb.resolve_left h0
  obtain ⟨Q, hQ, hstores⟩ := h.majority_stores (t := u) (by omega)
  have heq : l.take k = (s.hist u).take k := by
    have := List.prefix_iff_eq_take.mp hp
    rw [List.length_take_of_le hlen] at this
    exact this.symm
  exact ⟨Q, hQ, fun q hq => heq ▸ (List.take_prefix_take_left hc).trans (hstores q hq)⟩

end KvStore.Consensus
