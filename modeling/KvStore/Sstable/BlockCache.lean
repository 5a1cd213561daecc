import KvStore.Cache.Recency
import KvStore.Engine.Interface
import Mathlib

/-!
# The block cache: `sstable/cache.go`

A map from keys to the elements of a list that is in the order of use, and a count of the bytes in
it. `put` adds a block in front and then removes blocks from the back until the count is within the
bound; a loop that would not end if the count and the list did not agree.

Elements are told apart by their entries: no key is in the list twice. A count of bytes is an
integer, since memory holds fewer than `2 ^ 63`. The cache that is `nil`, which no engine has, is
left out.

* `Tracked`: the map and the list hold the same keys once each, the list is in the order of use, and
  the count is the sum of the lengths. `Sound`: the count is within the bound too.
* `Sound.get`: a hit returns what is in the list and moves it to the front.
* `Tracked.evict`: the loop ends, with the front of the list.
* `Sound.put`: a block is added or refreshed, and what is evicted was used less recently than what
  stays.
-/

namespace KvStore.Sstable

open Cache

/-- `BlockCache`. -/
structure BlockCache (K : Type) where
  maxBytes : ℤ
  curBytes : ℤ := 0
  /-- The elements, the most recently used first. -/
  ll : List (K × Bytes) := []
  items : List (K × (K × Bytes)) := []

namespace BlockCache

variable {K : Type} [DecidableEq K]

/-- `NewBlockCache`. -/
def new (maxBytes : ℤ) : BlockCache K := { maxBytes := maxBytes }

/-- `ll.MoveToFront`, which does nothing with an element that is not in the list. -/
def moveToFront (c : BlockCache K) (el : K × Bytes) : BlockCache K :=
  if el ∈ c.ll then { c with ll := el :: c.ll.erase el } else c

/-- `get`. -/
def get (c : BlockCache K) (key : K) : Option Bytes × BlockCache K :=
  match c.items.lookup key with
  | none => (none, c)
  | some el => (some el.2, c.moveToFront el)

/-- `evictOldest`. -/
def evictOldest (c : BlockCache K) : BlockCache K :=
  match c.ll.getLast? with
  | none => c
  | some el =>
    { c with
      ll := c.ll.dropLast
      items := c.items.filter fun a => a.1 ≠ el.1
      curBytes := c.curBytes - el.2.length }

/-- The loop of `put`; there is no value if it has not ended within `fuel` rounds. -/
def evict : ℕ → BlockCache K → Option (BlockCache K)
  | 0, c => if c.curBytes ≤ c.maxBytes then some c else none
  | fuel + 1, c => if c.curBytes ≤ c.maxBytes then some c else evict fuel c.evictOldest

/-- `put`, with the rounds that its loop may make. -/
def put (fuel : ℕ) (c : BlockCache K) (key : K) (data : Bytes) : Option (BlockCache K) :=
  if c.maxBytes ≤ 0 then some c
  else
    match c.items.lookup key with
    | some el => some (c.moveToFront el)
    | none =>
      if c.maxBytes < data.length then some c
      else evict fuel
        { c with
          ll := (key, data) :: c.ll
          items := (key, (key, data)) :: c.items
          curBytes := c.curBytes + data.length }

/-- The keys of the list. -/
def keys (c : BlockCache K) : List K := c.ll.map Prod.fst

/-- The map and the list hold the same keys once each, the list is in the order of use, and
`curBytes` counts it. -/
structure Tracked (c : BlockCache K) (uses : List K) : Prop where
  items : (c.items.map Prod.fst).Perm c.keys
  elements : ∀ a ∈ c.items, a.2 ∈ c.ll ∧ a.2.1 = a.1
  recent : Recent uses c.keys
  bytes : c.curBytes = ((c.ll.map fun a => a.2.length).sum : ℕ)

/-- The cache is within its bound; one whose bound is not positive is empty. -/
structure Sound (c : BlockCache K) (uses : List K) : Prop extends Tracked c uses where
  bounded : c.curBytes ≤ max c.maxBytes 0
  disabled : c.maxBytes ≤ 0 → c.ll = []

variable {c : BlockCache K} {uses : List K} {key : K}

theorem sound_new (maxBytes : ℤ) (uses : List K) : (new maxBytes : BlockCache K).Sound uses :=
  ⟨⟨.refl _, nofun, recent_nil uses, rfl⟩, le_max_right _ _, fun _ => rfl⟩

namespace Tracked

theorem mem_of_lookup (h : c.Tracked uses) {el : K × Bytes} (hel : c.items.lookup key = some el) :
    el ∈ c.ll ∧ el.1 = key := by
  obtain ⟨l, l', hl, -⟩ := List.lookup_eq_some_iff.mp hel
  exact h.elements (key, el) (hl ▸ List.mem_append_right l List.mem_cons_self)

theorem not_mem_of_lookup (h : c.Tracked uses) (hnone : c.items.lookup key = none) :
    key ∉ c.keys := by
  rw [← h.items.mem_iff]
  rintro hmem
  obtain ⟨a, ha, rfl⟩ := List.mem_map.mp hmem
  simpa using List.lookup_eq_none_iff.mp hnone a ha

/-- Moving an element to the front is a use of its key. -/
theorem moveToFront (h : c.Tracked uses) {el : K × Bytes} (hel : el ∈ c.ll) :
    (c.moveToFront el).Tracked (el.1 :: uses) ∧ (c.moveToFront el).ll.Perm c.ll ∧
      (c.moveToFront el).maxBytes = c.maxBytes ∧ (c.moveToFront el).curBytes = c.curBytes := by
  have hperm : (el :: c.ll.erase el).Perm c.ll := (List.perm_cons_erase hel).symm
  have hnodup : ((el :: c.ll.erase el).map Prod.fst).Nodup :=
    (hperm.map _).nodup_iff.mpr h.recent.nodup
  have hfresh : el.1 ∉ (c.ll.erase el).map Prod.fst := (List.nodup_cons.mp hnodup).1
  have hrest : Recent uses ((c.ll.erase el).map Prod.fst) :=
    h.recent.sublist (List.erase_sublist.map _)
  rw [BlockCache.moveToFront, if_pos hel]
  refine ⟨⟨h.items.trans (hperm.map _).symm, fun a ha => ?_, hrest.touch hfresh, ?_⟩,
    hperm, rfl, rfl⟩
  · exact ⟨hperm.mem_iff.mpr (h.elements a ha).1, (h.elements a ha).2⟩
  · rw [(hperm.map fun a => a.2.length).sum_eq]
    exact h.bytes

/-- One round of the loop removes the last element. -/
theorem evictOldest (h : c.Tracked uses) {l : List (K × Bytes)} {el : K × Bytes}
    (hl : c.ll = l ++ [el]) : c.evictOldest.Tracked uses ∧ c.evictOldest.ll = l ∧
      c.evictOldest.maxBytes = c.maxBytes := by
  have hkeys : c.keys = l.map Prod.fst ++ [el.1] := by rw [keys, hl, List.map_append]; rfl
  have hnodup : (l.map Prod.fst ++ [el.1]).Nodup := hkeys ▸ h.recent.nodup
  have hlast : el.1 ∉ l.map Prod.fst := fun hmem =>
    (List.nodup_append.mp hnodup).2.2 _ hmem _ (List.mem_singleton_self _) rfl
  have hevict : c.evictOldest = { c with
      ll := l
      items := c.items.filter fun a => a.1 ≠ el.1
      curBytes := c.curBytes - el.2.length } := by
    rw [BlockCache.evictOldest, hl, List.getLast?_concat, List.dropLast_concat]
  rw [hevict]
  refine ⟨⟨?_, fun a ha => ?_, ?_, ?_⟩, rfl, rfl⟩
  · have hitems : (c.items.filter fun a => a.1 ≠ el.1).map Prod.fst =
        (c.items.map Prod.fst).filter fun k => k ≠ el.1 := by
      rw [List.filter_map]
      rfl
    rw [hitems]
    refine (h.items.filter _).trans ?_
    rw [hkeys, List.filter_append, List.filter_eq_self.mpr fun k hk => by
      simpa using fun heq : k = el.1 => hlast (heq ▸ hk)]
    simp [keys]
  · obtain ⟨hmem, hne⟩ := List.mem_filter.mp ha
    obtain ⟨hin, heq⟩ := h.elements a hmem
    rw [hl] at hin
    refine ⟨(List.mem_append.mp hin).resolve_right fun hlast => ?_, heq⟩
    rw [List.mem_singleton.mp hlast] at heq
    simp [heq] at hne
  · exact h.recent.sublist (hkeys ▸ List.sublist_append_left ..)
  · have hbytes := h.bytes
    rw [hl, List.map_append, List.sum_append] at hbytes
    simp only [List.map_cons, List.map_nil, List.sum_singleton] at hbytes
    rw [hbytes]
    push_cast
    omega

theorem sound (h : c.Tracked uses) (hpos : 0 < c.maxBytes) (hle : c.curBytes ≤ c.maxBytes) :
    c.Sound uses :=
  ⟨h, hle.trans (le_max_left _ _), fun hmax => absurd hpos (not_lt.mpr hmax)⟩

/-- A new block in front is a use of its key. -/
theorem push (h : c.Tracked uses) (hkey : key ∉ c.keys) (data : Bytes) :
    Tracked { c with
      ll := (key, data) :: c.ll
      items := (key, (key, data)) :: c.items
      curBytes := c.curBytes + data.length } (key :: uses) := by
  refine ⟨h.items.cons key, fun a ha => ?_, h.recent.touch hkey, ?_⟩
  · rcases List.mem_cons.mp ha with rfl | ha
    · exact ⟨List.mem_cons_self, rfl⟩
    · exact ⟨List.mem_cons_of_mem _ (h.elements a ha).1, (h.elements a ha).2⟩
  · rw [h.bytes, List.map_cons, List.sum_cons]
    push_cast
    omega

/-- **The loop of `put` ends**, with the front of the list. -/
theorem evict (h : c.Tracked uses) (hpos : 0 < c.maxBytes) {fuel : ℕ} (hfuel : c.ll.length ≤ fuel) :
    ∃ c', BlockCache.evict fuel c = some c' ∧ c'.Sound uses ∧ c'.ll <+: c.ll ∧
      c'.maxBytes = c.maxBytes := by
  induction fuel generalizing c with
  | zero =>
    have hnil : c.ll = [] := List.eq_nil_of_length_eq_zero (Nat.le_zero.mp hfuel)
    have hzero : c.curBytes = 0 := by rw [h.bytes, hnil]; rfl
    have hle : c.curBytes ≤ c.maxBytes := by omega
    exact ⟨c, if_pos hle, h.sound hpos hle, List.prefix_rfl, rfl⟩
  | succ fuel ih =>
    rw [BlockCache.evict]
    by_cases hle : c.curBytes ≤ c.maxBytes
    · exact ⟨c, if_pos hle, h.sound hpos hle, List.prefix_rfl, rfl⟩
    rw [if_neg hle]
    rcases List.eq_nil_or_concat c.ll with hnil | ⟨l, el, hl⟩
    · -- an empty list has no bytes
      have hzero : c.curBytes = 0 := by rw [h.bytes, hnil]; rfl
      omega
    · rw [List.concat_eq_append] at hl
      obtain ⟨htracked, hll, hmax⟩ := h.evictOldest hl
      have hlen : c.evictOldest.ll.length ≤ fuel := by
        rw [hl, List.length_append, List.length_singleton] at hfuel
        rw [hll]
        omega
      obtain ⟨c', hrun, hsound, hprefix, hmax'⟩ := ih htracked (hmax ▸ hpos) hlen
      refine ⟨c', hrun, hsound, hprefix.trans ?_, hmax'.trans hmax⟩
      rw [hll, hl]
      exact List.prefix_append ..

end Tracked

namespace Sound

/-- A use of a key that is not cached. -/
theorem skip (h : c.Sound uses) (hkey : key ∉ c.keys) : c.Sound (key :: uses) :=
  ⟨⟨h.items, h.elements, h.recent.skip hkey, h.bytes⟩, h.bounded, h.disabled⟩

theorem moveToFront (h : c.Sound uses) {el : K × Bytes} (hel : el ∈ c.ll) :
    (c.moveToFront el).Sound (el.1 :: uses) ∧ (c.moveToFront el).ll.Perm c.ll ∧
      (c.moveToFront el).maxBytes = c.maxBytes := by
  obtain ⟨htracked, hperm, hmax, hcur⟩ := h.toTracked.moveToFront hel
  refine ⟨⟨htracked, by rw [hcur, hmax]; exact h.bounded, fun hle => ?_⟩, hperm, hmax⟩
  rw [h.disabled (hmax ▸ hle)] at hel
  cases hel

/-- `get` returns what is in the list for the key, and is a use of it. -/
theorem get (h : c.Sound uses) (key : K) :
    (c.get key).2.Sound (key :: uses) ∧ (c.get key).2.ll.Perm c.ll ∧
    (c.get key).2.maxBytes = c.maxBytes ∧
      (∀ data, (c.get key).1 = some data → (key, data) ∈ c.ll) ∧
    ((c.get key).1 = none → key ∉ c.keys) := by
  rw [BlockCache.get]
  cases hlookup : c.items.lookup key with
  | none =>
    have hkey := h.toTracked.not_mem_of_lookup hlookup
    exact ⟨h.skip hkey, .refl _, rfl, nofun, fun _ => hkey⟩
  | some el =>
    obtain ⟨hel, rfl⟩ := h.toTracked.mem_of_lookup hlookup
    obtain ⟨hsound, hperm, hmax⟩ := h.moveToFront hel
    refine ⟨hsound, hperm, hmax, fun data hdata => ?_, nofun⟩
    rw [← Option.some.inj hdata]
    exact hel

/-- `put` ends. The cache then has the block or refuses it, and what it has evicted was used less
recently than what it keeps. -/
theorem put (h : c.Sound uses) (key : K) (data : Bytes) {fuel : ℕ} (hfuel : c.ll.length < fuel) :
    ∃ c', c.put fuel key data = some c' ∧ c'.Sound (key :: uses) ∧ c'.maxBytes = c.maxBytes ∧
      (∀ a ∈ c'.ll, a = (key, data) ∨ a ∈ c.ll) ∧
      ∀ a ∈ c.ll, a ∉ c'.ll → ∀ b ∈ c'.ll, UsedAfter (key :: uses) b.1 a.1 := by
  rw [BlockCache.put]
  by_cases hmax : c.maxBytes ≤ 0
  · rw [if_pos hmax]
    have hkey : key ∉ c.keys := by rw [keys, h.disabled hmax]; nofun
    exact ⟨c, rfl, h.skip hkey, rfl, fun a ha => Or.inr ha, fun a ha hno => absurd ha hno⟩
  rw [if_neg hmax]
  cases hlookup : c.items.lookup key with
  | some el =>
    obtain ⟨hel, rfl⟩ := h.toTracked.mem_of_lookup hlookup
    obtain ⟨hsound, hperm, hmax⟩ := h.moveToFront hel
    refine ⟨_, rfl, hsound, hmax, fun a ha => Or.inr (hperm.mem_iff.mp ha), fun a ha hno => ?_⟩
    exact absurd (hperm.mem_iff.mpr ha) hno
  | none =>
    have hkey := h.toTracked.not_mem_of_lookup hlookup
    dsimp only
    split_ifs with hlarge
    · exact ⟨c, rfl, h.skip hkey, rfl, fun a ha => Or.inr ha, fun a ha hno => absurd ha hno⟩
    have hpushed := h.toTracked.push hkey data
    obtain ⟨c', hrun, hsound, ⟨cut, hcut⟩, hmax'⟩ :=
      hpushed.evict (not_le.mp hmax) (Nat.succ_le_of_lt hfuel)
    dsimp only at hcut
    refine ⟨c', hrun, hsound, hmax', fun a ha => ?_, fun a ha hno b hb => ?_⟩
    · have hmem : a ∈ (key, data) :: c.ll := hcut ▸ List.mem_append_left cut ha
      exact List.mem_cons.mp hmem
    · -- the list before the loop is what is kept and then what is evicted, in the order of use
      have hrecent : Recent (key :: uses) ((c'.ll ++ cut).map Prod.fst) := hcut ▸ hpushed.recent
      have hmem : a ∈ c'.ll ++ cut := hcut ▸ List.mem_cons_of_mem _ ha
      rw [List.map_append] at hrecent
      exact hrecent.lt_of_append (List.mem_map_of_mem hb)
        (List.mem_map_of_mem ((List.mem_append.mp hmem).resolve_left hno))

end Sound

end BlockCache

end KvStore.Sstable
