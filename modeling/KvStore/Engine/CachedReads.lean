import KvStore.Engine.RestoreAtomicity
import KvStore.Engine.TableFiles
import KvStore.Sstable.BlockCache
import KvStore.Sstable.Table

/-!
# Reading tables through the block cache

The tables that an engine has open share one cache, whose keys are a file's path and an offset in
it. The number of a file stands for its path. What is cached is never removed because its file goes
or is written again, so that the cache is right only because no file that was read gets other bytes
while the engine runs.

* `CachedStore.readDataBlock`: `readDataBlock` of an open table's reader. A block that is read from
  the file is put into the cache later, after any other step, as another goroutine may run in
  between.
* `CachedStore.step`: the calls and failures of a store (`Store.faultStep`), reads of any block of
  any open table, and puts of what was read. A file has fewer than `2 ^ 63` bytes.
* `block_determined`: in the file of a table, an offset belongs to one block.
* `Transparent`: what is cached, or read and not yet put, is under a settled number, and is what the
  file has there if a table with the number is open.
* `block_cache_transparent`: reads through the cache return what the file on disk has, and the cache
  is sound.
* `negative_size_exceeded`: a cache whose size is negative, which is empty, has more than its size.
-/

namespace KvStore

open Layered Machine Sstable

/-! ## Offsets -/

namespace Sstable

variable {H : Hashes}

theorem length_blockFile_pos (H : Hashes) (b : List (Bytes × Entry)) :
    0 < (blockFile H b).length := by
  rw [blockFile, length_checksummed]
  exact Nat.succ_pos _

/-- Blocks that do not reach the 64th bit begin one after the other. -/
theorem offset_indexFrom {off : ℕ} {bs : List (List (Bytes × Entry))}
    (h : off + (bs.flatMap (blockFile H)).length < 2 ^ 64) :
    (∀ blk ∈ indexFrom H off bs, off ≤ blk.offset.toNat) ∧
      (indexFrom H off bs).Pairwise fun a b => a.offset.toNat < b.offset.toNat := by
  induction bs generalizing off with
  | nil => exact ⟨nofun, .nil⟩
  | cons b bs ih =>
    have hpos := length_blockFile_pos H b
    rw [List.flatMap_cons, List.length_append] at h
    have hrest : off + (blockFile H b).length + (bs.flatMap (blockFile H)).length < 2 ^ 64 := by
      omega
    obtain ⟨hle, hlt⟩ := ih hrest
    have hoff : (UInt64.ofNat off).toNat = off :=
      UInt64.toNat_ofNat_of_lt' (by simp only [UInt64.size]; omega)
    refine ⟨fun blk hblk => ?_, List.pairwise_cons.mpr ⟨fun blk hblk => ?_, hlt⟩⟩
    · rcases List.mem_cons.mp hblk with rfl | hblk
      · exact hoff.ge
      · exact (Nat.le_add_right ..).trans (hle blk hblk)
    · have := hle blk hblk
      dsimp only
      omega

theorem openTable_file {f : TableFile} {r : TableReader} (h : openTable H f = .ok r) :
    r.file = f := by
  unfold openTable at h
  split_ifs at h
  split at h
  · cases h
  split_ifs at h
  simp only [bind, Except.bind] at h
  -- the filter and the index are read and decoded
  split at h
  · cases h
  split at h
  · cases h
  split at h
  · cases h
  split at h
  · cases h
  cases h
  rfl

/-- The bytes of a table's file. -/
def tableBytes (H : Hashes) (opts : TableOptions) (t : Table) : Bytes :=
  (writeTable H opts t.entries).toOption.getD []

/-- The reader that `OpenWithCache` makes of a table's file. -/
def readerFor (H : Hashes) (opts : TableOptions) (t : Table) : Except TableError TableReader :=
  openTable H (TableFile.of (tableBytes H opts t))

/-- **In a table's file an offset belongs to one block.** -/
theorem block_determined {opts : TableOptions} {t : Table} {r : TableReader}
    (hfit : (tableBytes H opts t).length < 2 ^ 63) (hr : readerFor H opts t = .ok r)
    {blk blk' : IndexEntry} (hblk : blk ∈ r.index) (hblk' : blk' ∈ r.index)
    (hoff : blk.offset = blk'.offset) : blk = blk' := by
  obtain ⟨blocks, hflat, -, hwrite⟩ := writeTable_blocks H opts t.sorted
  have hbytes : tableBytes H opts t = (writeTable H opts t.entries).toOption.getD [] := rfl
  rw [hwrite] at hbytes
  split at hbytes
  · -- there is no file
    rw [readerFor, hbytes] at hr
    cases hr
  · next bf _ =>
    change tableBytes H opts t = tableFile H blocks bf (maxSeqOf t.entries) at hbytes
    rw [hbytes] at hfit
    rw [readerFor, hbytes, openTable_tableFile hfit] at hr
    have hindex : r.index = indexFrom H 0 blocks := by
      cases hbloom : decoded (BloomFilter.decode bf.encode) with
      | error err =>
        rw [hbloom] at hr
        cases hr
      | ok bloom =>
        rw [hbloom] at hr
        rw [← Except.ok.inj hr]
    have hsize : 0 + (blocks.flatMap (blockFile H)).length < 2 ^ 64 := by
      simp only [tableFile, List.length_append] at hfit
      omega
    have hnodup : ((indexFrom H 0 blocks).map IndexEntry.offset).Nodup :=
      List.pairwise_map.mpr ((offset_indexFrom hsize).2.imp fun hlt heq =>
        hlt.ne (congrArg UInt64.toNat heq))
    rw [hindex] at hblk hblk'
    exact List.inj_on_of_nodup_map hnodup hblk hblk' hoff

end Sstable

/-! ## A store and its cache -/

/-- The file of a table with the number, as it is on the disk. -/
def Store.tableFile (H : Hashes) (opts : TableOptions) (σ : Store) (n : ℕ) : TableFile :=
  match σ.disk.ssts.get n with
  | some (some t) => TableFile.of (tableBytes H opts t)
  | _ => TableFile.of []

/-- Every file has fewer than `2 ^ 63` bytes. -/
def FilesFit (H : Hashes) (opts : TableOptions) (d : Dir) : Prop :=
  ∀ a ∈ d.ssts.entries, ∀ t ∈ a.2, (tableBytes H opts t).length < 2 ^ 63

instance (H : Hashes) (opts : TableOptions) (d : Dir) : Decidable (FilesFit H opts d) :=
  inferInstanceAs (Decidable (∀ a ∈ d.ssts.entries, ∀ t ∈ a.2,
    (tableBytes H opts t).length < 2 ^ 63))

/-- A store with the cache of its engine. -/
structure CachedStore where
  store : Store := {}
  cache : BlockCache (ℕ × UInt64)
  /-- What was read from files and is not yet in the cache. -/
  pending : List ((ℕ × UInt64) × Bytes) := []
  /-- The keys that `get` and `put` were called with, the last one first. -/
  uses : List (ℕ × UInt64) := []

/-- What happens to a store with a cache. -/
inductive CacheAction
  | act (a : FaultAction)
  /-- The block at the position is read, from the table with the number. -/
  | read (n i : ℕ)
  /-- What was read from a file is put into the cache. -/
  | fill (i : ℕ)
  deriving DecidableEq

namespace CachedStore

/-- `readDataBlock` of the reader of a table, up to where it calls `put`. -/
def readDataBlock (H : Hashes) (opts : TableOptions) (s : CachedStore) (n : ℕ) (blk : IndexEntry) :
    Except TableError Bytes × CachedStore :=
  let key := (n, blk.offset)
  let s' := { s with cache := (s.cache.get key).2, uses := key :: s.uses }
  match (s.cache.get key).1 with
  | some data => (.ok data, s')
  | none =>
    match readChecksummed H (s.store.tableFile H opts n) blk.offset blk.length with
    | .error err => (.error err, s')
    | .ok data => (.ok data, { s' with pending := s.pending ++ [(key, data)] })

/-- The block at the position, in the open table with the number. -/
def block (H : Hashes) (opts : TableOptions) (s : CachedStore) (n i : ℕ) : Option IndexEntry := do
  let e ← s.store.eng
  let t ← e.sstables.lookup n
  let r ← (readerFor H opts t).toOption
  r.index[i]?

/-- One step. `Open` makes a cache of the size. -/
def step (H : Hashes) (opts : TableOptions) (threshold : ℕ) (size : ℤ) (s : CachedStore) :
    CacheAction → Option CachedStore
  | .act a => do
    let σ ← s.store.faultStep threshold a
    if ¬FilesFit H opts σ.disk then none
    else if a = .step .openOk then some { store := σ, cache := .new size }
    else some { s with store := σ }
  | .read n i => (s.block H opts n i).map fun blk => (s.readDataBlock H opts n blk).2
  | .fill i => do
    let (key, data) ← s.pending[i]?
    let c ← s.cache.put (s.cache.ll.length + 1) key data
    return { s with cache := c, pending := s.pending.eraseIdx i, uses := key :: s.uses }

/-- The store and cache that the run leads to, from an empty directory. -/
abbrev Runs (H : Hashes) (opts : TableOptions) (threshold : ℕ) (size : ℤ) (as : List CacheAction)
    (s : CachedStore) : Prop :=
  exec (step H opts threshold size) { cache := .new size } as = some s

/-! ## What is cached -/

/-- The block at the offset of a table's file, if there is one, is read as `data`. -/
def Holds (H : Hashes) (opts : TableOptions) (t : Table) (offset : UInt64) (data : Bytes) : Prop :=
  ∀ r, readerFor H opts t = .ok r → ∀ blk ∈ r.index, blk.offset = offset →
    r.readDataBlock H blk = .ok data

/-- What is cached under the key was read from the file of a settled number. -/
def Kept (H : Hashes) (opts : TableOptions) (e : Engine) (jobs : List FlushJob)
    (a : (ℕ × UInt64) × Bytes) : Prop :=
  Settled e jobs a.1.1 ∧ ∀ t, (a.1.1, t) ∈ e.sstables → Holds H opts t a.1.2 a.2

/-- The open tables are in their files, the cache is sound, and what it holds or is to hold is
right. -/
structure Transparent (H : Hashes) (opts : TableOptions) (s : CachedStore) : Prop where
  filed : s.store.Filed
  fit : FilesFit H opts s.store.disk
  sound : s.cache.Sound s.uses
  kept : ∀ e, s.store.eng = some e → ∀ a, a ∈ s.cache.ll ∨ a ∈ s.pending →
    Kept H opts e s.store.jobs a

variable {H : Hashes} {opts : TableOptions} {threshold : ℕ} {size : ℤ} {s s' : CachedStore}
    {e : Engine} {n : ℕ}
  {t : Table} {r : TableReader} {blk : IndexEntry}

theorem block_eq_some {i : ℕ} (h : s.block H opts n i = some blk) :
    ∃ e t r, s.store.eng = some e ∧ (n, t) ∈ e.sstables ∧ readerFor H opts t = .ok r ∧
      blk ∈ r.index := by
  obtain ⟨e, hup, h⟩ := Option.bind_eq_some_iff.mp h
  obtain ⟨t, ht, h⟩ := Option.bind_eq_some_iff.mp h
  obtain ⟨r, hr, h⟩ := Option.bind_eq_some_iff.mp h
  obtain ⟨l, l', hl, -⟩ := List.lookup_eq_some_iff.mp ht
  refine ⟨e, t, r, hup, hl ▸ List.mem_append_right l List.mem_cons_self, ?_, List.mem_of_getElem? h⟩
  cases hreader : readerFor H opts t with
  | error err =>
    rw [hreader] at hr
    cases hr
  | ok r' =>
    rw [hreader] at hr
    rw [Option.some.inj hr]

namespace Transparent

theorem init (H : Hashes) (opts : TableOptions) (size : ℤ) :
    Transparent H opts { cache := .new size } :=
  ⟨fun e he => (by cases he), fun a ha => (by cases ha), BlockCache.sound_new size [], fun e he =>
    (by cases he)⟩

/-- The file of an open table. -/
theorem file (h : Transparent H opts s) (hup : s.store.eng = some e) (ht : (n, t) ∈ e.sstables) :
    s.store.disk.ssts.get n = some (some t) ∧
      s.store.tableFile H opts n = TableFile.of (tableBytes H opts t) ∧
    (tableBytes H opts t).length < 2 ^ 63 := by
  have hget := ((h.filed e hup).live _ ht).2
  refine ⟨hget, ?_, h.fit (n, some t) (SortedMap.mem_entries.mpr hget) t rfl⟩
  rw [Store.tableFile, hget]

/-- A reader reads its own file. -/
theorem readDataBlock_eq (hr : readerFor H opts t = .ok r) :
    r.readDataBlock H blk = readChecksummed H (TableFile.of (tableBytes H opts t)) blk.offset
      blk.length := by
  rw [TableReader.readDataBlock, openTable_file hr]

/-- What is read from the file of an open table may be cached. -/
theorem kept_of_read (h : Transparent H opts s) (hup : s.store.eng = some e)
    (ht : (n, t) ∈ e.sstables) (hr : readerFor H opts t = .ok r) (hblk : blk ∈ r.index)
    {data : Bytes} (hread : r.readDataBlock H blk = .ok data) :
    Kept H opts e s.store.jobs ((n, blk.offset), data) := by
  refine ⟨(h.filed e hup).settled ht, fun t' ht' r' hr' blk' hblk' hoff => ?_⟩
  obtain ⟨hget, -, hfit⟩ := h.file hup ht
  obtain rfl : t' = t := by
    have := (h.file hup ht').1.symm.trans hget
    exact Option.some.inj (Option.some.inj this)
  obtain rfl : r' = r := Except.ok.inj (hr'.symm.trans hr)
  rw [block_determined hfit hr hblk' hblk hoff]
  exact hread

/-- **A read through the cache returns what the file has.** -/
theorem read (h : Transparent H opts s) (hup : s.store.eng = some e) (ht : (n, t) ∈ e.sstables)
    (hr : readerFor H opts t = .ok r) (hblk : blk ∈ r.index) :
    (s.readDataBlock H opts n blk).1 = r.readDataBlock H blk ∧
      Transparent H opts (s.readDataBlock H opts n blk).2 := by
  obtain ⟨hsound, hperm, -, hhit, -⟩ := h.sound.get (n, blk.offset)
  have hread : readChecksummed H (s.store.tableFile H opts n) blk.offset blk.length =
      r.readDataBlock H blk := by
    rw [(h.file hup ht).2.1, readDataBlock_eq hr]
  have hkept : ∀ e', s.store.eng = some e' → ∀ a, a ∈ (s.cache.get (n, blk.offset)).2.ll ∨
      a ∈ s.pending → Kept H opts e' s.store.jobs a :=
        fun e' he' a ha => h.kept e' he' a (ha.imp_left hperm.mem_iff.mp)
  rw [CachedStore.readDataBlock]
  dsimp only
  cases hget : (s.cache.get (n, blk.offset)).1 with
  | some data =>
    have hdata := (h.kept e hup _ (Or.inl (hhit data hget))).2 t ht r hr blk hblk rfl
    exact ⟨hdata.symm, ⟨h.filed, h.fit, hsound, hkept⟩⟩
  | none =>
    rw [hread]
    cases hfile : r.readDataBlock H blk with
    | error err => exact ⟨rfl, ⟨h.filed, h.fit, hsound, hkept⟩⟩
    | ok data =>
      refine ⟨rfl, ⟨h.filed, h.fit, hsound, fun e' he' a ha => ?_⟩⟩
      obtain rfl := Option.some.inj (hup.symm.trans he')
      rcases ha with ha | ha
      · exact hkept e hup a (Or.inl ha)
      rcases List.mem_append.mp ha with ha | ha
      · exact hkept e hup a (Or.inr ha)
      · rw [List.mem_singleton.mp ha]
        exact h.kept_of_read hup ht hr hblk hfile

/-- What was read may be put into the cache at any time. -/
theorem fill (h : Transparent H opts s) {i : ℕ} {key : ℕ × UInt64} {data : Bytes}
    (hi : s.pending[i]? = some (key, data)) {c : BlockCache (ℕ × UInt64)}
    (hc : s.cache.put (s.cache.ll.length + 1) key data = some c) :
    Transparent H opts
    { s with cache := c, pending := s.pending.eraseIdx i, uses := key :: s.uses } := by
  obtain ⟨c', hput, hsound, -, hmem, -⟩ := h.sound.put key data (Nat.lt_succ_self _)
  obtain rfl := Option.some.inj (hput.symm.trans hc)
  refine ⟨h.filed, h.fit, hsound, fun e he a ha => ?_⟩
  rcases ha with ha | ha
  · rcases hmem a ha with rfl | ha
    · exact h.kept e he _ (Or.inr (List.mem_of_getElem? hi))
    · exact h.kept e he a (Or.inl ha)
  · exact h.kept e he a (Or.inr (List.mem_of_mem_eraseIdx ha))

end Transparent

/-- Only `Open` starts an engine. -/
theorem openOk_of_up {a : FaultAction} {σ σ' : Store} (h : Store.Faulted threshold σ a σ')
    (hdown : σ.eng = none) (hup : σ'.eng ≠ none) : a = .step .openOk := by
  cases h with
  | stepped run =>
    cases run with
    | opened => rfl
    | openCut | crashed | crashedIn | restoreCut => exact absurd rfl hup
    | batched up | flushed up | worked up | restored up | refused up =>
      rw [hdown] at up
      cases up
  | refused => exact absurd hdown hup
  | appendFailed up | flushStartFailed up | jobFailed up | restored up =>
    rw [hdown] at up
    cases up

/-- A step keeps what is cached right. -/
theorem Transparent.step {a : CacheAction} (h : Transparent H opts s)
    (hstep : s.step H opts threshold size a = some s') : Transparent H opts s' := by
  cases a with
  | act a =>
    obtain ⟨σ, hσ, hstep⟩ := Option.bind_eq_some_iff.mp hstep
    have hfaulted := Store.faultStep_cases hσ
    obtain ⟨hfiled, hsettled⟩ := hfaulted.files h.filed
    split_ifs at hstep with hfit hopen
    · cases hstep
      exact ⟨hfiled, hfit, BlockCache.sound_new size [], fun e he a ha => by
        rcases ha with ha | ha <;> cases ha⟩
    · cases hstep
      refine ⟨hfiled, hfit, h.sound, fun e' he' a ha => ?_⟩
      cases hup : s.store.eng with
      | none => exact absurd (openOk_of_up hfaulted hup (by rw [he']; nofun)) hopen
      | some e =>
        obtain ⟨hstill, htables⟩ := hsettled e e' hup he' _ (h.kept e hup a ha).1
        exact ⟨hstill, fun t ht => (h.kept e hup a ha).2 t (htables t ht)⟩
  | read n i =>
    obtain ⟨blk, hblk, rfl⟩ := Option.map_eq_some_iff.mp hstep
    obtain ⟨e, t, r, hup, ht, hr, hmem⟩ := block_eq_some hblk
    exact (h.read hup ht hr hmem).2
  | fill i =>
    obtain ⟨⟨key, data⟩, hi, hstep⟩ := Option.bind_eq_some_iff.mp hstep
    obtain ⟨c, hc, hstep⟩ := Option.bind_eq_some_iff.mp hstep
    cases hstep
    exact h.fill hi hc

theorem transparent_run {as : List CacheAction} (hrun : Runs H opts threshold size as s) :
    Transparent H opts s :=
  exec_induct (P := fun _ _ => True) (fun _ _ _ h _ hstep => h.step hstep) (.init H opts size)
    (along_of_all (fun _ _ => trivial) _ as) hrun

end CachedStore

/-- **The block cache is transparent and bounded.** After any run of an engine, for any cache size:
the file of each open table holds the table, and reading any of its blocks through the cache returns
the bytes, or the error, that reading the file does. The map and the list of the cache hold the same
keys, once each, `curBytes` is the sum of the lengths and at most the size, or 0 if that is
negative. `put` ends, and what it evicts was used less recently than what it keeps. -/
theorem block_cache_transparent {H : Hashes} {opts : TableOptions} {threshold : ℕ} {size : ℤ}
    {as : List CacheAction} {s : CachedStore} (hrun : CachedStore.Runs H opts threshold size as s) :
    (∀ e n t r blk, s.store.eng = some e → (n, t) ∈ e.sstables → readerFor H opts t = .ok r →
      blk ∈ r.index → s.store.disk.ssts.get n = some (some t) ∧ (s.readDataBlock H opts n blk).1 =
        readChecksummed H (s.store.tableFile H opts n) blk.offset blk.length) ∧
      ((s.cache.items.map Prod.fst).Perm s.cache.keys ∧ s.cache.keys.Nodup ∧
        (∀ a ∈ s.cache.items, a.2 ∈ s.cache.ll ∧ a.2.1 = a.1) ∧
        s.cache.curBytes = ((s.cache.ll.map fun a => a.2.length).sum : ℕ) ∧
        s.cache.curBytes ≤ max s.cache.maxBytes 0) ∧
      ∀ key data, ∃ c, s.cache.put (s.cache.ll.length + 1) key data = some c ∧
        ∀ a ∈ s.cache.ll, a ∉ c.ll → ∀ b ∈ c.ll, Cache.UsedAfter (key :: s.uses) b.1 a.1 := by
  have h := CachedStore.transparent_run hrun
  refine ⟨fun e n t r blk hup ht hr hblk => ?_, ?_, fun key data => ?_⟩
  · obtain ⟨hget, hfile, -⟩ := h.file hup ht
    refine ⟨hget, ?_⟩
    rw [(h.read hup ht hr hblk).1, hfile, CachedStore.Transparent.readDataBlock_eq hr]
  · exact ⟨h.sound.items, h.sound.recent.nodup, h.sound.elements, h.sound.bytes, h.sound.bounded⟩
  · obtain ⟨c, hput, -, -, -, hevicted⟩ := h.sound.put key data (Nat.lt_succ_self _)
    exact ⟨c, hput, hevicted⟩

/-- A table is flushed, two of its blocks are read and cached, and a snapshot replaces it. -/
def cachedRun : List CacheAction :=
  [.act (.step .openOk), .act (.step (.batch [putK 1, ⟨[98], [2], false⟩])), .act (.step .flush),
    .act (.step (.job 0)), .act (.step (.job 0)), .act (.step (.job 0)), .read 0 0, .read 0 1,
      .fill 0, .fill 0,
    .act (.step (.restoreErr (onePair 98 9) 2)), .act (.step (.restore (onePair 97 9))),
      .read 2 0, .fill 0]

theorem block_cache_transparent_restored : ∃ s e t r blk,
    CachedStore.Runs constantHashes smallBlocks 4194304 12 cachedRun s ∧ s.store.eng = some e ∧
    (2, t) ∈ e.sstables ∧
      readerFor constantHashes smallBlocks t = .ok r ∧ blk ∈ r.index ∧
      s.cache.keys = [(2, 0), (0, 10)] ∧ (s.readDataBlock constantHashes smallBlocks 2 blk).1 =
        readChecksummed constantHashes (s.store.tableFile constantHashes smallBlocks 2) blk.offset
          blk.length := by
  have hrun :
      ((exec (CachedStore.step constantHashes smallBlocks 4194304 12) { cache := .new 12 }
        cachedRun).bind
      fun s => (s.block constantHashes smallBlocks 2 0).map fun _ =>
        decide (s.cache.keys = [(2, 0), (0, 10)])) = some true := by decide +kernel
  obtain ⟨s, hs, hblock⟩ := Option.bind_eq_some_iff.mp hrun
  obtain ⟨blk, hblk, hkeys⟩ := Option.map_eq_some_iff.mp hblock
  obtain ⟨e, t, r, hup, ht, hr, hmem⟩ := CachedStore.block_eq_some hblk
  exact ⟨s, e, t, r, blk, hs, hup, ht, hr, hmem, of_decide_eq_true hkeys,
    ((block_cache_transparent hs).1 e 2 t r blk hup ht hr hmem).2⟩

/-- An engine with a cache of the size -1 reads a block and puts it: the cache stays empty, and 0 is
more than -1. -/
theorem negative_size_exceeded : ∃ s,
    CachedStore.Runs constantHashes smallBlocks 4194304 (-1) (cachedRun.take 9) s ∧
      s.uses = [(0, 0), (0, 10), (0, 0)] ∧ ¬s.cache.curBytes ≤ s.cache.maxBytes := by
  have hrun :
      ((exec (CachedStore.step constantHashes smallBlocks 4194304 (-1)) { cache := .new (-1) }
      (cachedRun.take 9)).map fun s =>
        decide (s.uses = [(0, 0), (0, 10), (0, 0)] ∧ ¬s.cache.curBytes ≤ s.cache.maxBytes)) =
          some true := by
    decide +kernel
  obtain ⟨s, hs, hsize⟩ := Option.map_eq_some_iff.mp hrun
  exact ⟨s, hs, of_decide_eq_true hsize⟩

end KvStore
