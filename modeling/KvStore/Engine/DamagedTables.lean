import KvStore.Engine.SnapshotRoundTrip
import KvStore.Sstable.Table

/-!
# Snapshots over damaged tables

`Snapshot` gathers the keys of the memtables and of the tables, and looks each of them up. The loop
over a table ends when the iterator is no longer valid, which is at the end of the table and also at
a block that cannot be read; `Err()`, which tells the two apart, is not called.

* `StoredTable`: a table, and a reader of its file in which any blocks are broken: unreadable, with
  a wrong checksum, or not decodable.
* `StoredTable.Reaches`: the loop sees the keys in front of the first broken block.
* `DamagedEngine.snapshot`: `Snapshot`, for any order in which the keys are visited.
* `snapshot_truthful_iff`: when a snapshot that is returned without an error has the whole content.
* `damaged_snapshot_loses_key`: two blocks, of which the second cannot be read.
-/

namespace KvStore

open Layered Sstable

/-- A block that cannot be read, fails its checksum or fails to decode. -/
def Sstable.Broken (H : Hashes) (r : TableReader) (blk : IndexEntry) : Prop :=
  ∃ e, r.load H blk = .error e

/-- A table and a reader of its file, some blocks of which may be broken. -/
structure StoredTable (H : Hashes) where
  table : Table
  blocks : List (List (Bytes × Entry))
  reader : TableReader
  flatten : blocks.flatten = table.entries
  presents : Presents H reader blocks
  damage : ∀ (i : ℕ) blk b, reader.index[i]? = some blk → blocks[i]? = some b →
    Intact H reader blk b ∨ Broken H reader blk

/-- An engine and the readers of its tables. `healthy` is what the engine holds. -/
structure DamagedEngine (H : Hashes) where
  healthy : Engine
  sstables : List (StoredTable H)
  same : sstables.map StoredTable.table = healthy.sstables.map Prod.snd
  closed : Bool := false

section

variable {H : Hashes}

/-- The keys that the loop over the table's iterator sees. The error that ends it is not asked
for. -/
def StoredTable.keys (s : StoredTable H) : List Bytes :=
  ((s.reader.iterate H (s.table.entries.length + 1)).map fun p => p.1.map Prod.fst).getD []

namespace DamagedEngine

/-- The loop of `Get` over the tables. -/
def getTables : List (StoredTable H) → Bytes → Except TableError (Option Bytes)
  | [], _ => .ok none
  | s :: ss, key =>
    match s.reader.get H key with
    | .error e => .error e
    | .ok (some entry) => .ok entry.found
    | .ok none => getTables ss key

/-- `Get`. -/
def get (d : DamagedEngine H) (key : Bytes) : Except TableError (Option Bytes) :=
  match d.healthy.mem.get key with
  | some entry => .ok entry.found
  | none =>
    match d.healthy.immutable.bind fun t => t.get key with
    | some entry => .ok entry.found
    | none => getTables d.sstables key

/-- The keys that `Snapshot` gathers. -/
def seenKeys (d : DamagedEngine H) : List Bytes :=
  ((d.healthy.mem :: d.healthy.immutable.toList).flatMap (fun t => t.entries.map Prod.fst) ++
    d.sstables.flatMap StoredTable.keys).dedup

/-- The pairs that `Snapshot` writes if it visits the keys in the given order. -/
def livePairs (d : DamagedEngine H) : List Bytes → Except TableError (List (Bytes × Bytes))
  | [] => .ok []
  | k :: ks => do
    let found ← d.get k
    let rest ← d.livePairs ks
    return (found.map fun v => (k, v)).toList ++ rest

/-- `Snapshot`; there is no value if it returns an error. -/
def snapshot (d : DamagedEngine H) (keys : List Bytes) : Option Bytes :=
  if d.closed then none
  else
    match d.livePairs keys with
    | .error _ => none
    | .ok kvs => some (encodeSnapshotEntries kvs)

end DamagedEngine

/-! ## What the loop over a table sees -/

theorem mem_seenFrom {L : List (Except TableError (List (Bytes × Entry)))} {a : Bytes × Entry} :
    a ∈ (seenFrom L).1 ↔ ∃ (i : ℕ) (b : List (Bytes × Entry)), L[i]? = some (.ok b) ∧ a ∈ b ∧
      ∀ j < i, ∀ e, L[j]? ≠ some (.error e) := by
  induction L with
  | nil => simp [seenFrom]
  | cons l L ih =>
    cases l with
    | error e =>
      refine iff_of_false (by simp [seenFrom]) ?_
      rintro ⟨i, b, hi, -, hbefore⟩
      cases i with
      | zero => simp at hi
      | succ i => exact hbefore 0 (Nat.succ_pos i) e rfl
    | ok entries =>
      rw [seenFrom, List.mem_append, ih]
      constructor
      · rintro (ha | ⟨i, b, hi, ha, hbefore⟩)
        · exact ⟨0, entries, rfl, ha, fun j hj => absurd hj (Nat.not_lt_zero j)⟩
        · refine ⟨i + 1, b, hi, ha, fun j hj e => ?_⟩
          cases j with
          | zero => simp
          | succ j => exact hbefore j (Nat.lt_of_succ_lt_succ hj) e
      · rintro ⟨i, b, hi, ha, hbefore⟩
        cases i with
        | zero =>
          rw [List.getElem?_cons_zero] at hi
          exact Or.inl (Except.ok.inj (Option.some.inj hi) ▸ ha)
        | succ i =>
          exact Or.inr ⟨i, b, hi, ha, fun j hj e => hbefore (j + 1) (Nat.succ_lt_succ hj) e⟩

/-- What is seen of blocks some of which fail is not longer than the blocks. -/
theorem length_seenFrom_le {L : List (Except TableError (List (Bytes × Entry)))}
    {blocks : List (List (Bytes × Entry))}
    (h : List.Forall₂ (fun l b => l = .ok b ∨ ∃ e, l = .error e) L blocks) :
    (seenFrom L).1.length ≤ blocks.flatten.length := by
  induction h with
  | nil => exact le_rfl
  | cons hl _ ih =>
    rcases hl with rfl | ⟨e, rfl⟩
    · rw [seenFrom, List.flatten_cons, List.length_append, List.length_append]
      exact Nat.add_le_add_left ih _
    · exact Nat.zero_le _

namespace StoredTable

variable {s : StoredTable H} {k : Bytes}

/-- The key is in a block, and neither that nor a block in front of it is broken. -/
def Reaches (s : StoredTable H) (k : Bytes) : Prop :=
  ∃ (i : ℕ) (b : List (Bytes × Entry)), s.blocks[i]? = some b ∧ k ∈ b.map Prod.fst ∧
    ∀ j ≤ i, ∀ blk, s.reader.index[j]? = some blk → ¬Broken H s.reader blk

theorem load_cases (s : StoredTable H) {i : ℕ} {blk : IndexEntry} {b : List (Bytes × Entry)}
    (hblk : s.reader.index[i]? = some blk) (hb : s.blocks[i]? = some b) :
    s.reader.load H blk = .ok b ∨ Broken H s.reader blk :=
  (s.damage i blk b hblk hb).imp_left (s.presents.load (List.mem_of_getElem? hb))

theorem loads (s : StoredTable H) : List.Forall₂ (fun l b => l = .ok b ∨ ∃ e, l = .error e)
    (s.reader.index.map (s.reader.load H)) s.blocks := by
  rw [List.forall₂_map_left_iff]
  refine List.forall₂_iff_get.mpr ⟨s.presents.length_index, fun i hi hi' => ?_⟩
  exact s.load_cases (List.getElem?_eq_getElem hi) (List.getElem?_eq_getElem hi')

/-- The loop ends, and has seen the blocks in front of the first that is broken. -/
theorem iterate_eq (s : StoredTable H) : s.reader.iterate H (s.table.entries.length + 1) =
    some (seenFrom (s.reader.index.map (s.reader.load H))) := by
  refine TableReader.iterate_eq (fun blk hblk hload => ?_) ?_
  · obtain ⟨i, hi⟩ := List.mem_iff_getElem?.mp hblk
    obtain ⟨b, hb⟩ := s.presents.block_of_index hi
    rcases s.load_cases hi hb with hok | ⟨e, herr⟩
    · rw [hload] at hok
      exact s.presents.nonempty b (List.mem_of_getElem? hb) (Except.ok.inj hok).symm
    · rw [hload] at herr
      exact absurd herr nofun
  · rw [← s.flatten]
    exact Nat.lt_succ_of_le (length_seenFrom_le s.loads)

theorem mem_keys : k ∈ s.keys ↔ s.Reaches k := by
  have hload : ∀ i : ℕ, (s.reader.index.map (s.reader.load H))[i]? =
    s.reader.index[i]?.map (s.reader.load H) :=
    fun i => List.getElem?_map ..
  rw [keys, s.iterate_eq, Option.map_some, Option.getD_some, List.mem_map]
  constructor
  · rintro ⟨a, ha, rfl⟩
    obtain ⟨i, b, hi, hab, hbefore⟩ := mem_seenFrom.mp ha
    rw [hload] at hi
    obtain ⟨blk, hblk, hok⟩ := Option.map_eq_some_iff.mp hi
    obtain ⟨b', hb'⟩ := s.presents.block_of_index hblk
    have hsame : b' = b := by
      rcases s.load_cases hblk hb' with hok' | ⟨e, herr⟩
      · exact Except.ok.inj (hok'.symm.trans hok)
      · exact absurd (herr.symm.trans hok) nofun
    refine ⟨i, b, hsame ▸ hb', List.mem_map_of_mem hab, fun j hj blk' hblk' ⟨e, herr⟩ => ?_⟩
    rcases hj.lt_or_eq with hlt | rfl
    · exact hbefore j hlt e (by rw [hload, hblk', Option.map_some, herr])
    · rw [hblk] at hblk'
      obtain rfl := Option.some.inj hblk'
      exact absurd (herr.symm.trans hok) nofun
  · rintro ⟨i, b, hb, hk, hgood⟩
    obtain ⟨a, hab, rfl⟩ := List.mem_map.mp hk
    refine ⟨a, mem_seenFrom.mpr ⟨i, b, ?_, hab, fun j hj e herr => ?_⟩, rfl⟩
    · have hi : i < s.reader.index.length := by
        rw [s.presents.length_index]
        exact (List.getElem?_eq_some_iff.mp hb).1
      have hblk := List.getElem?_eq_getElem hi
      rw [hload, hblk, Option.map_some]
      exact congrArg some ((s.load_cases hblk hb).resolve_right (hgood i le_rfl _ hblk))
    · rw [hload] at herr
      obtain ⟨blk, hblk, herr⟩ := Option.map_eq_some_iff.mp herr
      exact hgood j hj.le blk hblk ⟨e, herr⟩

/-- A table whose blocks are all intact, as it is written and opened. -/
theorem exists_intact (opts : TableOptions) (t : Table)
    (hbloom : (opts.bloomParams t.entries.length).1.toNat + 7 < 2 ^ 64) {file : Bytes}
    (hfile : writeTable H opts t.entries = .ok file) (hlen : file.length < 2 ^ 63) :
    ∃ s : StoredTable H, s.table = t ∧ openTable H (TableFile.of file) = .ok s.reader := by
  obtain ⟨blocks, bf, hwrite, hflat, hne, hsound, hmarked⟩ :=
    writeTable_eq H opts t.sorted (Or.inl hbloom)
  obtain rfl := Except.ok.inj (hwrite.symm.trans hfile)
  refine ⟨⟨t, blocks, _, hflat, presents_readerOf hlen hsound.stored (hflat ▸ t.sorted) hne
    (hflat ▸ hmarked), fun i blk b hblk hb => Or.inl (intact_readerOf hlen hblk hb)⟩, rfl,
      openTable_of hlen hsound.size⟩

/-- Every broken block fails when it is read, so that nothing of it is decoded. -/
def Sealed (s : StoredTable H) : Prop :=
  ∀ blk ∈ s.reader.index, Broken H s.reader blk → ∃ e, s.reader.readDataBlock H blk = .error e

/-- What a table answers is what was written, unless the answer is from a block that does not
decode. -/
theorem Sealed.get (h : s.Sealed) {answer : Option Entry} (hget : s.reader.get H k = .ok answer) :
    answer = s.table.get k := by
  rw [← lookup_entries, ← s.flatten]
  by_cases hbroken : ∃ blk, s.reader.index[s.reader.candidate k]? = some blk ∧ Broken H s.reader blk
  · obtain ⟨blk, hblk, hb⟩ := hbroken
    obtain ⟨e, herr⟩ := h blk (List.mem_of_getElem? hblk) hb
    obtain ⟨asked, hasked⟩ := s.presents.sound.mayContain_total H.fnv k
    rw [TableReader.get, hasked] at hget
    cases asked with
    | false => rw [s.presents.lookup_of_ruledOut hasked, ← Except.ok.inj hget]
    | true =>
      rw [hblk] at hget
      simp only [herr, bind, Except.bind] at hget
      cases hget
  · have hintact : s.reader.get H k = .ok (s.blocks.flatten.lookup k) :=
      s.presents.get fun blk b hblk hb =>
      (s.damage _ blk b hblk hb).resolve_right fun hbr => hbroken ⟨blk, hblk, hbr⟩
    exact Except.ok.inj (hget.symm.trans hintact)

end StoredTable

/-! ## What `Snapshot` returns -/

namespace DamagedEngine

variable {d : DamagedEngine H} {keys : List Bytes} {k : Bytes}

/-- `Snapshot` gathers the key: a memtable has it, or the loop over a table reaches it. -/
def Sees (d : DamagedEngine H) (k : Bytes) : Prop :=
  (∃ t ∈ d.healthy.mem :: d.healthy.immutable.toList, k ∈ t.entries.map Prod.fst) ∨
    ∃ s ∈ d.sstables, s.Reaches k

/-- The lookup of the key ends in the damage: no memtable has it, and the first table that does not
say that it has no entry cannot be asked. -/
def Stumbles (d : DamagedEngine H) (k : Bytes) : Prop :=
  d.healthy.mem.get k = none ∧ (d.healthy.immutable.bind fun t => t.get k) = none ∧
    ∃ newer s older, d.sstables = newer ++ s :: older ∧
      (∀ s' ∈ newer, s'.reader.get H k = .ok none) ∧ ∃ e, s.reader.get H k = .error e

/-- Every live key is gathered. -/
def Complete (d : DamagedEngine H) : Prop := ∀ k v, d.healthy.get k = some v → d.Sees k

/-- No lookup of a gathered key finds something else than was written. -/
def Undeceived (d : DamagedEngine H) : Prop :=
  ∀ k, d.Sees k → ∀ found, d.get k = .ok found → found = d.healthy.get k

/-- If a snapshot is returned, its bytes decode to the content. -/
def Truthful (d : DamagedEngine H) (keys : List Bytes) : Prop :=
  ∀ data, d.snapshot keys = some data →
    ∃ kvs, decodeSnapshotEntries data = some kvs ∧ contentOf kvs = d.healthy.get

theorem mem_seenKeys : k ∈ d.seenKeys ↔ d.Sees k := by
  simp only [seenKeys, List.mem_dedup, List.mem_append, List.mem_flatMap,
    StoredTable.mem_keys, Sees]

theorem getTables_error {ss : List (StoredTable H)} : (∃ e, getTables ss k = .error e) ↔
    ∃ newer s older, ss = newer ++ s :: older ∧ (∀ s' ∈ newer, s'.reader.get H k = .ok none) ∧
      ∃ e, s.reader.get H k = .error e := by
  induction ss with
  | nil =>
    refine iff_of_false (fun ⟨e, he⟩ => absurd he nofun) ?_
    rintro ⟨newer, s, older, hsplit, -⟩
    exact absurd hsplit.symm (List.append_ne_nil_of_right_ne_nil _ (List.cons_ne_nil _ _))
  | cons t ss ih =>
    rw [getTables]
    constructor
    · cases hget : t.reader.get H k with
      | error e => exact fun _ => ⟨[], t, ss, rfl, nofun, e, hget⟩
      | ok answer =>
        cases answer with
        | some entry => exact fun ⟨e, he⟩ => absurd he nofun
        | none =>
          intro herr
          obtain ⟨newer, s, older, rfl, hnewer, hs⟩ := ih.mp herr
          refine ⟨t :: newer, s, older, rfl, ?_, hs⟩
          intro s' hs'
          rcases List.mem_cons.mp hs' with rfl | hs'
          · exact hget
          · exact hnewer s' hs'
    · rintro ⟨newer, s, older, hsplit, hnewer, e, he⟩
      cases newer with
      | nil =>
        obtain ⟨rfl, rfl⟩ := List.cons.inj hsplit
        exact ⟨e, by rw [he]⟩
      | cons t' newer =>
        obtain ⟨rfl, rfl⟩ := List.cons.inj hsplit
        rw [hnewer t List.mem_cons_self]
        exact ih.mpr ⟨newer, s, older, rfl, fun s' hs' =>
          hnewer s' (List.mem_cons_of_mem _ hs'), e, he⟩

theorem get_error : (∃ e, d.get k = .error e) ↔ d.Stumbles k := by
  rw [get, Stumbles, ← getTables_error]
  cases d.healthy.mem.get k with
  | some entry => exact iff_of_false (fun ⟨e, he⟩ => absurd he nofun) fun h => absurd h.1 nofun
  | none =>
    cases d.healthy.immutable.bind fun t => t.get k with
    | some entry => exact iff_of_false (fun ⟨e, he⟩ => absurd he nofun) fun h => absurd h.2.1 nofun
    | none => exact ⟨fun h => ⟨rfl, rfl, h⟩, fun h => h.2.2⟩

theorem livePairs_error (h : ∃ k ∈ keys, ∃ e, d.get k = .error e) :
    ∃ e, d.livePairs keys = .error e := by
  induction keys with
  | nil => exact absurd h (by simp)
  | cons k ks ih =>
    rw [livePairs]
    cases hget : d.get k with
    | error e => exact ⟨e, rfl⟩
    | ok found =>
      obtain ⟨k', hk', e, he⟩ := h
      rcases List.mem_cons.mp hk' with rfl | hk'
      · rw [hget] at he
        exact absurd he nofun
      · obtain ⟨e', he'⟩ := ih ⟨k', hk', e, he⟩
        exact ⟨e', by simp only [he', bind, Except.bind]⟩

theorem livePairs_ok {found : Bytes → Option Bytes} (h : ∀ k ∈ keys, d.get k = .ok (found k)) :
    d.livePairs keys = .ok (keys.filterMap fun k => (found k).map fun v => (k, v)) := by
  induction keys with
  | nil => rfl
  | cons k ks ih =>
    rw [livePairs, h k List.mem_cons_self, ih fun k' hk' =>
      h k' (List.mem_cons_of_mem k hk'), List.filterMap_cons]
    cases found k <;> rfl

section Found

variable {found : Bytes → Option Bytes}

/-- What the lookups of the gathered keys found is the content, if all live keys were gathered and
nothing else was found. -/
theorem contentOf_found_iff (hkeys : keys.Perm d.seenKeys)
    (hfound : ∀ k ∈ keys, d.get k = .ok (found k)) :
    contentOf (keys.filterMap fun k => (found k).map fun v => (k, v)) = d.healthy.get ↔
      d.Complete ∧ d.Undeceived := by
  have hmem : ∀ k, k ∈ keys ↔ d.Sees k := fun k => hkeys.mem_iff.trans mem_seenKeys
  have hnodup : keys.Nodup := hkeys.nodup_iff.mpr (List.nodup_dedup _)
  constructor
  · intro heq
    have hat : ∀ k, (if k ∈ keys then found k else none) = d.healthy.get k := fun k =>
      (contentOf_pairs hnodup k).symm.trans (congrFun heq k)
    refine ⟨fun k v hv => ?_, fun k hk answer hget => ?_⟩
    · by_contra hsees
      have hnone := hat k
      rw [if_neg (mt (hmem k).mp hsees), hv] at hnone
      exact absurd hnone nofun
    · have hsome := hat k
      rw [if_pos ((hmem k).mpr hk)] at hsome
      rw [hfound k ((hmem k).mpr hk)] at hget
      exact (Except.ok.inj hget).symm.trans hsome
  · rintro ⟨hcomplete, hund⟩
    funext k
    rw [contentOf_pairs hnodup k]
    split_ifs with hk
    · exact hund k ((hmem k).mp hk) _ (hfound k hk)
    · cases hv : d.healthy.get k with
      | none => rfl
      | some v => exact absurd ((hmem k).mpr (hcomplete k v hv)) hk

/-- A snapshot that is returned. -/
theorem truthful_found_iff (hopen : d.closed ≠ true) (hfound : ∀ k ∈ keys, d.get k = .ok (found k))
    (hsmall : ∀ k v, d.get k = .ok (some v) → k.length < 2 ^ 32 ∧ v.length < 2 ^ 32) :
    d.Truthful keys ↔ Readable (keys.filterMap fun k => (found k).map fun v => (k, v)) ∧
      contentOf (keys.filterMap fun k => (found k).map fun v => (k, v)) = d.healthy.get := by
  have hsnap : d.snapshot keys =
      some (encodeSnapshotEntries (keys.filterMap fun k => (found k).map fun v => (k, v))) := by
    rw [snapshot, if_neg hopen, livePairs_ok hfound]
  have hpairs : ∀ kv ∈ keys.filterMap fun k => (found k).map fun v => (k, v),
      kv.1.length < 2 ^ 32 ∧ kv.2.length < 2 ^ 32 := by
    intro kv hkv
    obtain ⟨k, hk, hkv⟩ := List.mem_filterMap.mp hkv
    obtain ⟨v, hv, rfl⟩ := Option.map_eq_some_iff.mp hkv
    exact hsmall k v (by rw [hfound k hk, hv])
  have hdecode := decode_snapshot hpairs
  constructor
  · intro h
    obtain ⟨kvs, hdec, hcont⟩ := h _ hsnap
    rw [hdecode] at hdec
    split_ifs at hdec with hr
    exact ⟨hr, Option.some.inj hdec ▸ hcont⟩
  · rintro ⟨hr, hcont⟩ data hdata
    rw [hsnap] at hdata
    rw [← Option.some.inj hdata]
    exact ⟨_, hdecode.trans (if_pos hr), hcont⟩

end Found

/-- **A snapshot that is returned without an error has the whole content, if and only if** one of
these holds: the lookup of a gathered key ends in the damage, so that there is no snapshot; or every
live key is gathered, no lookup is answered from a block that does not decode with something else
than was written, and the live pairs are readable. -/
theorem snapshot_truthful_iff (d : DamagedEngine H) (hkeys : keys.Perm d.seenKeys)
    (hsmall : ∀ k v, d.get k = .ok (some v) → k.length < 2 ^ 32 ∧ v.length < 2 ^ 32) :
    d.Truthful keys ↔ d.closed = true ∨ (∃ k, d.Sees k ∧ d.Stumbles k) ∨
      (d.Complete ∧ d.Undeceived ∧ Readable (d.healthy.livePairs keys)) := by
  have hmem : ∀ k, k ∈ keys ↔ d.Sees k := fun k => hkeys.mem_iff.trans mem_seenKeys
  by_cases hclosed : d.closed = true
  · refine iff_of_true (fun data hdata => ?_) (Or.inl hclosed)
    rw [snapshot, if_pos hclosed] at hdata
    exact absurd hdata nofun
  by_cases hfails : ∃ k ∈ keys, ∃ e, d.get k = .error e
  · obtain ⟨e, he⟩ := livePairs_error hfails
    refine iff_of_true (fun data hdata => ?_) (Or.inr (Or.inl ?_))
    · rw [snapshot, if_neg hclosed, he] at hdata
      exact absurd hdata nofun
    · obtain ⟨k, hk, herr⟩ := hfails
      exact ⟨k, (hmem k).mp hk, get_error.mp herr⟩
  -- every lookup succeeds, so that a snapshot is returned
  have hfound : ∀ k ∈ keys, d.get k = .ok (d.get k).toOption.join := by
    intro k hk
    cases hget : d.get k with
    | error e => exact absurd ⟨k, hk, e, hget⟩ hfails
    | ok answer => rfl
  have hlive : d.Undeceived → d.healthy.livePairs keys =
      keys.filterMap fun k => (d.get k).toOption.join.map fun v => (k, v) := fun hund =>
    List.filterMap_congr fun k hk => by rw [hund k ((hmem k).mp hk) _ (hfound k hk)]
  rw [truthful_found_iff hclosed hfound hsmall, contentOf_found_iff hkeys hfound]
  constructor
  · rintro ⟨hr, hcomplete, hund⟩
    exact Or.inr (Or.inr ⟨hcomplete, hund, (hlive hund).symm ▸ hr⟩)
  · rintro (h | ⟨k, hk, hst⟩ | ⟨hcomplete, hund, hr⟩)
    · exact absurd h hclosed
    · exact absurd ⟨k, (hmem k).mpr hk, get_error.mpr hst⟩ hfails
    · exact ⟨hlive hund ▸ hr, hcomplete, hund⟩

/-- If broken blocks fail when they are read, every lookup that succeeds finds what was written. -/
theorem get_of_sealed (h : ∀ s ∈ d.sstables, s.Sealed) {answer : Option Bytes}
    (hget : d.get k = .ok answer) : answer = d.healthy.get k := by
  have htables : ∀ {ss : List (StoredTable H)}, (∀ s ∈ ss, s.Sealed) → getTables ss k = .ok answer →
      answer = Engine.getFrom (ss.map StoredTable.table) k := by
    intro ss hss
    induction ss with
    | nil => exact fun h => (Except.ok.inj h).symm
    | cons s ss ih =>
      intro h
      rw [getTables] at h
      rw [List.map_cons, Engine.getFrom]
      cases hs : s.reader.get H k with
      | error e => rw [hs] at h; exact absurd h nofun
      | ok found =>
        rw [hs] at h
        rw [← (hss s List.mem_cons_self).get hs]
        cases found with
        | some entry => exact (Except.ok.inj h).symm
        | none => exact ih (fun s' hs' => hss s' (List.mem_cons_of_mem s hs')) h
  unfold get at hget
  unfold Engine.get Engine.sources Engine.getFrom
  cases hmem : d.healthy.mem.get k with
  | some entry =>
    rw [hmem] at hget
    exact (Except.ok.inj hget).symm
  | none =>
    rw [hmem] at hget
    cases himm : d.healthy.immutable with
    | none =>
      rw [himm] at hget
      rw [← d.same]
      exact htables h hget
    | some t =>
      rw [himm] at hget
      rw [← d.same]
      dsimp only [Option.toList, List.cons_append, List.nil_append, Engine.getFrom,
        Option.bind_some] at hget ⊢
      cases ht : t.get k with
      | some entry =>
        rw [ht] at hget
        exact (Except.ok.inj hget).symm
      | none =>
        rw [ht] at hget
        exact htables h hget

end DamagedEngine

/-! ## A disk that fails at some places -/

/-- Reads at the places fail. -/
def Sstable.TableFile.failAt (f : TableFile) (bad : ℕ → Bool) : TableFile where
  size := f.size
  readAt off n := if bad off then none else f.readAt off n
  full off n buf h := by
    split_ifs at h
    exact f.full off n buf h

theorem Sstable.readChecksummed_failAt (f : TableFile) (bad : ℕ → Bool) (offset length : UInt64) :
    readChecksummed H (f.failAt bad) offset length = readChecksummed H f offset length ∨
      ∃ e, readChecksummed H (f.failAt bad) offset length = .error e := by
  unfold readChecksummed
  by_cases hbad : bad offset.toNat = true
  · refine Or.inr ?_
    simp only [TableFile.failAt, if_pos hbad]
    split_ifs <;> exact ⟨_, rfl⟩
  · refine Or.inl ?_
    simp only [TableFile.failAt, if_neg hbad]

namespace StoredTable

/-- The table on a disk that fails at the places. -/
def failAt (s : StoredTable H) (bad : ℕ → Bool) : StoredTable H where
  table := s.table
  blocks := s.blocks
  reader := { s.reader with file := s.reader.file.failAt bad }
  flatten := s.flatten
  presents :=
    ⟨s.presents.index, s.presents.sorted, s.presents.nonempty, s.presents.fits, s.presents.sound,
      s.presents.marked⟩
  damage i blk b hblk hb := by
    rcases readChecksummed_failAt s.reader.file bad blk.offset blk.length with hsame | ⟨e, herr⟩
    · have hread : ({ s.reader with file := s.reader.file.failAt bad } : TableReader).readDataBlock
        H blk = s.reader.readDataBlock H blk := hsame
      rcases s.damage i blk b hblk hb with hi | ⟨e, he⟩
      · exact Or.inl (hread.trans hi)
      · exact Or.inr ⟨e, by rw [TableReader.load, hread]; exact he⟩
    · refine Or.inr ⟨e, ?_⟩
      have hread : ({ s.reader with file := s.reader.file.failAt bad } : TableReader).readDataBlock
        H blk = .error e := herr
      rw [TableReader.load, hread]
      rfl

/-- A block of an intact table that is broken on such a disk fails when it is read. -/
theorem sealed_failAt (s : StoredTable H)
    (hs : ∀ (i : ℕ) blk b, s.reader.index[i]? = some blk → s.blocks[i]? = some b →
    Intact H s.reader blk b) (bad : ℕ → Bool) : (s.failAt bad).Sealed := by
  rintro blk hblk ⟨e, he⟩
  rcases readChecksummed_failAt s.reader.file bad blk.offset blk.length with hsame | herr
  · obtain ⟨i, hi⟩ := List.mem_iff_getElem?.mp hblk
    obtain ⟨b, hb⟩ := s.presents.block_of_index hi
    have hintact : Intact H (s.failAt bad).reader blk b := hsame.trans (hs i blk b hi hb)
    rw [(s.failAt bad).presents.load (List.mem_of_getElem? hb) hintact] at he
    exact absurd he nofun
  · exact herr

end StoredTable

end

/-! ## A key that is lost -/

/-- `hash/fnv`'s 64-bit FNV-1a. -/
def fnv64a (key : Bytes) : UInt64 :=
  key.foldl (fun h b => (h ^^^ b.toUInt64) * 1099511628211) 14695981039346656037

/-- The functions that the source uses. -/
def sourceHashes : Hashes := ⟨fnv64a, Wal.crc32c⟩

/-- Two keys, each in a block of its own. -/
def twoBlocks : List (List (Bytes × Entry)) :=
  [[([97], ⟨[1], 1, false⟩)], [([98], ⟨[2], 2, false⟩)]]

def twoTable : Table := (Table.empty.put [97] [1] 1).put [98] [2] 2

/-- A block is written with every entry. The filter's parameters are those for two keys at a rate of
one per cent. -/
def twoOptions : TableOptions := ⟨1, fun _ => (20, 7)⟩

def twoFilter : BloomFilter :=
  ([[97], [98]].foldlM (BloomFilter.add fnv64a) (BloomFilter.new 20 7)).getD (BloomFilter.new 0 0)

instance (fnv : Bytes → UInt64) (b : BloomFilter) (key : Bytes) : Decidable (b.Marked fnv key) :=
  -- only the probes are looked at, not all of `UInt64`
  have := List.decidableBAll (fun idx => hasBit b.bits idx = some true) (b.probes fnv key)
  inferInstanceAs (Decidable (b.m = 0 ∨ ∀ idx ∈ b.probes fnv key, hasBit b.bits idx = some true))

theorem twoFile_small : (tableFile sourceHashes twoBlocks twoFilter 2).length < 2 ^ 63 := by
  decide +kernel

def twoStored : StoredTable sourceHashes where
  table := twoTable
  blocks := twoBlocks
  reader := readerOf sourceHashes twoBlocks twoFilter 2
  flatten := by decide +kernel
  presents :=
    presents_readerOf twoFile_small ⟨by decide +kernel, by decide +kernel⟩ (by decide +kernel)
      (by decide +kernel) (by decide +kernel)
  damage _ _ _ hblk hb := Or.inl (intact_readerOf twoFile_small hblk hb)

/-- The block of the second key begins at byte ten. -/
def secondUnreadable : StoredTable sourceHashes := twoStored.failAt fun off => off == 10

/-- The table has been flushed, and its second block cannot be read. -/
def lostKey : DamagedEngine sourceHashes where
  healthy := { newEngine with sstables := [(0, twoTable)], nextSeq := 3, nextFlushSeq := 1 }
  sstables := [secondUnreadable]
  same := rfl

/-- **A snapshot without an error that lacks a key**: the loop over the table ends at the block that
cannot be read, its key is not looked up, and `Snapshot` returns the other one. -/
theorem damaged_snapshot_loses_key :
    writeTable sourceHashes twoOptions twoTable.entries =
    .ok (tableFile sourceHashes twoBlocks twoFilter 2) ∧ lostKey.seenKeys = [[97]] ∧
    lostKey.snapshot [[97]] = some (encodeSnapshotEntries [([97], [1])]) ∧
    decodeSnapshotEntries (encodeSnapshotEntries [([97], [1])]) = some [([97], [1])] ∧
      lostKey.healthy.get [98] = some [2] ∧ contentOf [([97], [1])] [98] = none := by
  decide +kernel

/-- The same, with the lost key written again. -/
def rewritten : DamagedEngine sourceHashes where
  healthy := { newEngine with
    mem := Table.empty.put [98] [3] 3, sstables := [(0, twoTable)], nextSeq := 4,
    nextFlushSeq := 1 }
  sstables := [secondUnreadable]
  same := rfl

theorem sealed_rewritten : ∀ s ∈ rewritten.sstables, s.Sealed := by
  intro s hs
  obtain rfl := List.mem_singleton.mp hs
  exact twoStored.sealed_failAt (fun i blk b hblk hb => intact_readerOf twoFile_small hblk hb) _

theorem get_rewritten {k v : Bytes} (h : rewritten.healthy.get k = some v) :
    (k, v) ∈ [(([98] : Bytes), ([3] : Bytes)), ([97], [1])] := by
  have hkeys : [[98], [97]].Perm rewritten.healthy.knownKeys := by decide +kernel
  have hpairs : rewritten.healthy.livePairs [[98], [97]] = [([98], [3]), ([97], [1])] := by
    decide +kernel
  exact hpairs ▸ (Engine.mem_livePairs hkeys).mpr h

theorem snapshot_truthful_iff_rewritten : [[98], [97]].Perm rewritten.seenKeys ∧
    rewritten.Truthful [[98], [97]] := by
  have hkeys : [[98], [97]].Perm rewritten.seenKeys := by decide +kernel
  refine ⟨hkeys, (rewritten.snapshot_truthful_iff hkeys fun k v hget => ?_).mpr
    (Or.inr (Or.inr ⟨fun k v hv => ?_, fun k _ found hget => ?_, by decide +kernel⟩))⟩
  · have hmem := get_rewritten (DamagedEngine.get_of_sealed sealed_rewritten hget).symm
    have hall : ∀ kv ∈ [(([98] : Bytes), ([3] : Bytes)), ([97], [1])],
        kv.1.length < 2 ^ 32 ∧ kv.2.length < 2 ^ 32 := by decide
    exact hall (k, v) hmem
  · have hall : ∀ kv ∈ [(([98] : Bytes), ([3] : Bytes)), ([97], [1])],
        kv.1 ∈ rewritten.seenKeys := by
      decide +kernel
    exact DamagedEngine.mem_seenKeys.mp (hall (k, v) (get_rewritten hv))
  · exact DamagedEngine.get_of_sealed sealed_rewritten hget

end KvStore
