import KvStore.Layered.Search
import KvStore.Sstable.Writer

/-!
# Reading a sorted table: `sstable/reader.go`

`OpenWithCache` reads the footer, the Bloom filter and the index. `Get` asks the filter, searches
the index for the one block that may have the key, and scans it; an iterator decodes one block after
the other. Every block is read from the file and its checksum compared: this is the reader without a
cache, `BlockCache.lean` is about the one with it.

* A `TableFile` is what reads of the file return. It may fail, or return other bytes than were
  written.
* `Presents`: the reader's index and filter are those of the blocks. `Intact`: a block is read as it
  was written.
* `Presents.get`: `Get` of a key whose block is intact returns its entry, or that there is none.
* `collect_seekToFirst`: an iterator sees the blocks up to the first that cannot be read or decoded.
-/

namespace KvStore.Sstable

open Codec Wal Transport Layered

/-- An open file: its size, and what reading `n` bytes at an offset returns. A read returns all of
them or fails. -/
structure TableFile where
  size : ℕ
  readAt : ℕ → ℕ → Option Bytes
  full : ∀ off n buf, readAt off n = some buf → buf.length = n

/-- A file with the bytes. -/
def TableFile.of (file : Bytes) : TableFile where
  size := file.length
  readAt off n := if off + n ≤ file.length then some ((file.drop off).take n) else none
  full off n buf h := by
    split_ifs at h with hle
    rw [← Option.some.inj h, List.length_take, List.length_drop]
    omega

/-- Why opening or reading a table fails. `panicked` and `decoding outOfRange` are not errors but
panics. -/
inductive TableError where
  | tooSmall
  | badMagic
  | shortBlock
  | unreadable
  | checksumMismatch
  | decoding (fault : DecodeFault)
  | panicked
  deriving DecidableEq, Repr

/-- The decoders' results as the reader returns them. -/
def decoded {α : Type} : Except DecodeFault α → Except TableError α
  | .error fault => .error (.decoding fault)
  | .ok a => .ok a

/-- `readChecksummed`. A length that is not an `int` is a panic, and a negative offset cannot be
read. -/
def readChecksummed (H : Hashes) (f : TableFile) (offset length : UInt64) :
    Except TableError Bytes :=
  if length.toNat < 4 then .error .shortBlock
  else if 2 ^ 63 ≤ length.toNat then .error .panicked
  else if 2 ^ 63 ≤ offset.toNat then .error .unreadable
  else
    match f.readAt offset.toNat length.toNat with
    | none => .error .unreadable
    | some buf =>
      let data := buf.take (buf.length - 4)
      if readLe32 (buf.drop (buf.length - 4)) = some ((H.crc data).toNat, []) then .ok data
      else .error .checksumMismatch

/-- `Reader`. -/
structure TableReader where
  file : TableFile
  index : List IndexEntry
  bloom : BloomFilter
  numEntries : ℕ
  maxSeq : UInt64

/-- The numbers of a footer. -/
def readFooter (footer : Bytes) :
    Option (UInt64 × UInt64 × UInt64 × UInt64 × UInt64 × UInt64 × UInt64) := do
  let (indexOffset, footer) ← readLe64 footer
  let (indexLength, footer) ← readLe64 footer
  let (bloomOffset, footer) ← readLe64 footer
  let (bloomLength, footer) ← readLe64 footer
  let (numEntries, footer) ← readLe64 footer
  let (maxSeq, footer) ← readLe64 footer
  let (magic, _) ← readLe64 footer
  return (indexOffset, indexLength, bloomOffset, bloomLength, numEntries, maxSeq, magic)

/-- `OpenWithCache`. -/
def openTable (H : Hashes) (f : TableFile) : Except TableError TableReader :=
  if f.size < footerSize then .error .tooSmall
  else
    match (f.readAt (f.size - footerSize) footerSize).bind readFooter with
    | none => .error .unreadable
    | some (indexOffset, indexLength, bloomOffset, bloomLength, numEntries, maxSeq, magic) =>
      if magic ≠ magicNumber then .error .badMagic
      else do
        let bloomRaw ← readChecksummed H f bloomOffset bloomLength
        let bloom ← decoded (BloomFilter.decode bloomRaw)
        let indexRaw ← readChecksummed H f indexOffset indexLength
        let index ← decoded (decodeIndex indexRaw)
        return ⟨f, index, bloom, numEntries.toNat, maxSeq⟩

namespace TableReader

/-- `readDataBlock`. -/
def readDataBlock (H : Hashes) (r : TableReader) (blk : IndexEntry) : Except TableError Bytes :=
  readChecksummed H r.file blk.offset blk.length

/-- The block that may have the key: the first whose last key is not smaller. -/
def candidate (r : TableReader) (key : Bytes) : ℕ :=
  search r.index.length fun i => r.index[i]?.any fun e => decide (key ≤ e.lastKey)

/-- `Get`: the key's entry, or that there is none. -/
def get (H : Hashes) (r : TableReader) (key : Bytes) : Except TableError (Option Entry) :=
  match r.bloom.mayContain H.fnv key with
  | none => .error .panicked
  | some false => .ok none
  | some true =>
    match r.index[r.candidate key]? with
    | none => .ok none
    | some blk => do
      let data ← r.readDataBlock H blk
      decoded (scanBlock key data)

/-- The entries of a block, as `loadBlock` reads and decodes them. -/
def load (H : Hashes) (r : TableReader) (blk : IndexEntry) :
    Except TableError (List (Bytes × Entry)) := do
  let data ← r.readDataBlock H blk
  decoded (decodeBlock data)

end TableReader

/-- `Iterator`. -/
structure TableIterator where
  reader : TableReader
  blockIdx : ℤ := -1
  entries : List (Bytes × Entry) := []
  entryIdx : ℤ := -1
  err : Option TableError := none

/-- `NewIterator`. -/
def TableReader.newIterator (r : TableReader) : TableIterator := { reader := r }

namespace TableIterator

/-- `loadBlock`. -/
def loadBlock (H : Hashes) (it : TableIterator) (idx : ℤ) : TableIterator :=
  match (if idx < 0 then none else it.reader.index[idx.toNat]?) with
  | none => { it with entries := [], entryIdx := -1, blockIdx := idx }
  | some blk =>
    match it.reader.load H blk with
    | .error e => { it with err := some e, entries := [], entryIdx := -1 }
    | .ok entries => { it with entries := entries, entryIdx := 0, blockIdx := idx }

/-- `SeekToFirst`. -/
def seekToFirst (H : Hashes) (it : TableIterator) : TableIterator :=
  { it with err := none }.loadBlock H 0

/-- `Valid`. -/
def valid (it : TableIterator) : Bool :=
  decide (it.err = none ∧ 0 ≤ it.entryIdx ∧ it.entryIdx < it.entries.length)

/-- `Next`. -/
def next (H : Hashes) (it : TableIterator) : TableIterator :=
  if it.err ≠ none then it
  else if it.entries.length ≤ it.entryIdx + 1 then
    { it with entryIdx := it.entryIdx + 1 }.loadBlock H (it.blockIdx + 1)
  else { it with entryIdx := it.entryIdx + 1 }

/-- `Key`, `Value`, `SeqNum` and `Deleted`, which only a valid iterator has. -/
def current (it : TableIterator) : Option (Bytes × Entry) :=
  if it.valid then it.entries[it.entryIdx.toNat]? else none

/-- What a loop `for ; it.Valid(); it.Next()` sees and the `Err()` after it, if it ends within
`fuel` rounds. -/
def collect (H : Hashes) : ℕ → TableIterator → Option (List (Bytes × Entry) × Option TableError)
  | 0, _ => none
  | fuel + 1, it =>
    if it.valid then do
      let a ← it.current
      let (rest, err) ← collect H fuel (it.next H)
      return (a :: rest, err)
    else some ([], it.err)

end TableIterator

/-! ## Iterating -/

/-- The entries of blocks up to the first that fails, and its error. -/
def seenFrom : List (Except TableError (List (Bytes × Entry))) →
    List (Bytes × Entry) × Option TableError
  | [] => ([], none)
  | .error e :: _ => ([], some e)
  | .ok entries :: rest => (entries ++ (seenFrom rest).1, (seenFrom rest).2)

namespace TableIterator

variable {H : Hashes} {r : TableReader}

/-- Within a block: the rest of its entries, then what the next block leads to. -/
theorem collect_block {i : ℤ} {entries : List (Bytes × Entry)}
    {rest : List (Bytes × Entry) × Option TableError} {rounds : ℕ}
    (hrest : ∀ it : TableIterator, it.reader = r → it.err = none → ∀ fuel, rounds ≤ fuel →
      collect H fuel (it.loadBlock H (i + 1)) = some rest)
    {j : ℕ} (hj : j < entries.length) {fuel : ℕ} (hfuel : rounds + (entries.length - j) ≤ fuel) :
    collect H fuel ⟨r, i, entries, j, none⟩ = some (entries.drop j ++ rest.1, rest.2) := by
  obtain ⟨n, hn⟩ : ∃ n, entries.length - j = n + 1 := ⟨entries.length - j - 1, by omega⟩
  induction n generalizing j fuel with
  | zero =>
    obtain ⟨fuel, rfl⟩ := Nat.exists_eq_add_one.mpr (show 0 < fuel by omega)
    have hvalid : (⟨r, i, entries, j, none⟩ : TableIterator).valid = true := by simp [valid, hj]
    have hcur : (⟨r, i, entries, j, none⟩ : TableIterator).current = some entries[j] := by
      simp [current, hvalid, hj]
    have hlast : (entries.length : ℤ) ≤ j + 1 := by omega
    rw [collect, if_pos hvalid, hcur, next, if_neg (by simp), if_pos hlast,
      hrest _ rfl rfl fuel (by omega), List.drop_eq_getElem_cons hj,
        List.drop_eq_nil_of_le (by omega)]
    rfl
  | succ n ih =>
    obtain ⟨fuel, rfl⟩ := Nat.exists_eq_add_one.mpr (show 0 < fuel by omega)
    have hvalid : (⟨r, i, entries, j, none⟩ : TableIterator).valid = true := by simp [valid, hj]
    have hcur : (⟨r, i, entries, j, none⟩ : TableIterator).current = some entries[j] := by
      simp [current, hvalid, hj]
    have hmore : ¬(entries.length : ℤ) ≤ j + 1 := by omega
    have hnext : collect H fuel ⟨r, i, entries, ↑(j + 1), none⟩ =
      some (entries.drop (j + 1) ++ rest.1, rest.2) :=
      ih (by omega) (by omega) (by omega)
    rw [collect, if_pos hvalid, hcur, next, if_neg (by simp), if_neg hmore]
    rw [Nat.cast_succ] at hnext
    simp only [Option.bind_eq_bind, Option.bind_some, hnext]
    rw [List.drop_eq_getElem_cons hj]
    rfl

/-- From a block on: what `seenFrom` says of the blocks that follow. -/
theorem collect_loadBlock (blks : List IndexEntry) {i : ℕ} (hindex : r.index.drop i = blks)
    (hne : ∀ blk ∈ blks, r.load H blk ≠ .ok []) {it : TableIterator} (hr : it.reader = r)
    (herr : it.err = none) {fuel : ℕ} (hfuel : (seenFrom (blks.map (r.load H))).1.length < fuel) :
    collect H fuel (it.loadBlock H i) = some (seenFrom (blks.map (r.load H))) := by
  induction blks generalizing i it fuel with
  | nil =>
    obtain ⟨fuel, rfl⟩ := Nat.exists_eq_add_one.mpr (Nat.zero_lt_of_lt hfuel)
    have hnone : it.reader.index[i]? = none := by
      rw [hr]
      exact List.getElem?_eq_none (List.drop_eq_nil_iff.mp hindex)
    have hload : it.loadBlock H i = { it with entries := [], entryIdx := -1, blockIdx := i } := by
      rw [loadBlock, if_neg (by omega), Int.toNat_natCast, hnone]
    rw [hload, collect, if_neg (by simp [valid])]
    exact congrArg (fun e => some ([], e)) herr
  | cons blk blks ih =>
    have hblk : it.reader.index[i]? = some blk := by
      rw [hr, ← List.head?_drop, hindex, List.head?_cons]
    have hrest : r.index.drop (i + 1) = blks := by rw [← List.tail_drop, hindex, List.tail_cons]
    rw [loadBlock, if_neg (by omega), Int.toNat_natCast, hblk]
    dsimp only
    rw [List.map_cons] at hfuel ⊢
    cases hl : r.load H blk with
    | error e =>
      obtain ⟨fuel, rfl⟩ := Nat.exists_eq_add_one.mpr (Nat.zero_lt_of_lt hfuel)
      rw [hr, hl, collect, if_neg (by simp [valid])]
      rfl
    | ok entries =>
      have hnil : entries ≠ [] := fun heq => hne blk List.mem_cons_self (heq ▸ hl)
      rw [hl] at hfuel
      rw [hr, hl]
      dsimp only
      rw [herr]
      have hnext : ∀ it : TableIterator, it.reader = r → it.err = none →
          ∀ fuel, (seenFrom (blks.map (r.load H))).1.length + 1 ≤ fuel →
            collect H fuel (it.loadBlock H (i + 1)) = some (seenFrom (blks.map (r.load H))) :=
        fun it hr herr fuel hfuel => ih hrest (fun b hb => hne b (List.mem_cons_of_mem blk hb)) hr
          herr hfuel
      simp only [seenFrom, List.length_append] at hfuel
      exact collect_block hnext (List.length_pos_iff.mpr hnil) (by omega)

end TableIterator

/-- A loop over a new iterator from `SeekToFirst`. -/
def TableReader.iterate (H : Hashes) (r : TableReader) (fuel : ℕ) :
    Option (List (Bytes × Entry) × Option TableError) :=
  (r.newIterator.seekToFirst H).collect H fuel

theorem TableReader.iterate_eq {H : Hashes} {r : TableReader}
    (hne : ∀ blk ∈ r.index, r.load H blk ≠ .ok []) {fuel : ℕ}
    (hfuel : (seenFrom (r.index.map (r.load H))).1.length < fuel) :
    r.iterate H fuel = some (seenFrom (r.index.map (r.load H))) :=
  TableIterator.collect_loadBlock r.index (i := 0) rfl hne rfl rfl hfuel

/-! ## Looking up -/

section Blocks

variable {blocks : List (List (Bytes × Entry))}

theorem key_le_lastKeyOf {b : List (Bytes × Entry)} (hsorted : b.Pairwise fun a b => a.1 < b.1) :
    ∀ a ∈ b, a.1 ≤ lastKeyOf b := by
  intro a ha
  obtain ⟨l, z, rfl⟩ := List.eq_nil_or_concat b |>.resolve_left (List.ne_nil_of_mem ha)
  rw [lastKeyOf, List.concat_eq_append, List.getLast?_concat]
  rw [List.concat_eq_append] at ha hsorted
  rcases List.mem_append.mp ha with ha | ha
  · exact ((List.pairwise_append.mp hsorted).2.2 a ha z (List.mem_singleton_self z)).le
  · rw [List.mem_singleton.mp ha]
    exact le_rfl

theorem lastKeyOf_mem {b : List (Bytes × Entry)} (hne : b ≠ []) : ∃ a ∈ b, a.1 = lastKeyOf b :=
  ⟨b.getLast hne, List.getLast_mem hne, by rw [lastKeyOf, List.getLast?_eq_some_getLast hne]; rfl⟩

/-- Blocks of entries in order have increasing last keys. -/
theorem lastKeyOf_mono (hsorted : blocks.flatten.Pairwise fun a b => a.1 < b.1)
    (hne : ∀ b ∈ blocks, b ≠ []) (key : Bytes) : blocks.Pairwise fun b b' =>
      decide (key ≤ lastKeyOf b) = true → decide (key ≤ lastKeyOf b') = true := by
  refine List.Pairwise.imp_of_mem ?_ (List.pairwise_flatten.mp hsorted).2
  intro b b' hb hb' hlt hkey
  obtain ⟨a, ha, heq⟩ := lastKeyOf_mem (hne b hb)
  obtain ⟨a', ha', heq'⟩ := lastKeyOf_mem (hne b' hb')
  have := hlt a ha a' ha'
  rw [heq, heq'] at this
  exact decide_eq_true ((of_decide_eq_true hkey).trans this.le)

/-- What entries in order have for a key is in the first block whose last key is not smaller. -/
theorem lookup_flatten (hsorted : blocks.flatten.Pairwise fun a b => a.1 < b.1)
    (hne : ∀ b ∈ blocks, b ≠ []) (key : Bytes) : blocks.flatten.lookup key =
      (blocks.dropWhile fun b => !decide (key ≤ lastKeyOf b)).head?.bind fun b => b.lookup key := by
  induction blocks with
  | nil => rfl
  | cons b bs ih =>
    rw [List.flatten_cons] at hsorted ⊢
    obtain ⟨hb, hbs, hcross⟩ := List.pairwise_append.mp hsorted
    rw [List.lookup_append]
    by_cases hkey : key ≤ lastKeyOf b
    · -- the keys of the blocks that follow are greater than the last of this one
      obtain ⟨z, hz, heq⟩ := lastKeyOf_mem (hne b List.mem_cons_self)
      have hnone : bs.flatten.lookup key = none := List.lookup_eq_none_iff.mpr fun a ha => by
        simpa using (hkey.trans_lt (heq ▸ hcross z hz a ha)).ne
      rw [List.dropWhile_cons_of_neg (by simpa using hkey), List.head?_cons,
        Option.bind_some, hnone, Option.or_none]
    · have hnone : b.lookup key = none := List.lookup_eq_none_iff.mpr fun a ha => by
        simpa using ((key_le_lastKeyOf hb a ha).trans_lt (not_le.mp hkey)).ne'
      rw [List.dropWhile_cons_of_pos (by simpa using hkey), hnone, Option.none_or,
        ih hbs fun b hb => hne b (List.mem_cons_of_mem _ hb)]

end Blocks

/-- The reader's index and filter are those of the blocks. -/
structure Presents (H : Hashes) (r : TableReader) (blocks : List (List (Bytes × Entry))) :
    Prop where
  index : r.index = indexFrom H 0 blocks
  sorted : blocks.flatten.Pairwise fun a b => a.1 < b.1
  nonempty : ∀ b ∈ blocks, b ≠ []
  fits : ∀ a ∈ blocks.flatten, Fits a
  sound : r.bloom.Sound
  marked : ∀ a ∈ blocks.flatten, r.bloom.Marked H.fnv a.1

/-- The reader reads a block as it was written. -/
def Intact (H : Hashes) (r : TableReader) (blk : IndexEntry) (b : List (Bytes × Entry)) : Prop :=
  r.readDataBlock H blk = .ok (b.flatMap encodeEntry)

namespace Presents

variable {H : Hashes} {r : TableReader} {blocks : List (List (Bytes × Entry))} {key : Bytes}

theorem length_index (h : Presents H r blocks) : r.index.length = blocks.length := by
  have := congrArg List.length (map_lastKey_indexFrom H 0 blocks)
  rwa [List.length_map, List.length_map, ← h.index] at this

theorem lastKey_eq (h : Presents H r blocks) (i : ℕ) :
    r.index[i]?.map IndexEntry.lastKey = blocks[i]?.map lastKeyOf := by
  rw [← List.getElem?_map, h.index, map_lastKey_indexFrom, List.getElem?_map]

/-- The search of the index finds the block that the entries' order says. -/
theorem candidate_spec (h : Presents H r blocks) (key : Bytes) :
    blocks.drop (r.candidate key) = blocks.dropWhile fun b => !decide (key ≤ lastKeyOf b) := by
  have hsearch : r.candidate key =
      search blocks.length fun i => blocks[i]?.any fun b => decide (key ≤ lastKeyOf b) := by
    rw [TableReader.candidate, h.length_index]
    congr 1
    funext i
    have hi := congrArg (Option.any fun k => decide (key ≤ k)) (h.lastKey_eq i)
    rwa [Option.any_map, Option.any_map] at hi
  rw [hsearch]
  exact drop_search (lastKeyOf_mono h.sorted h.nonempty key)

theorem lookup_eq (h : Presents H r blocks) (key : Bytes) :
    blocks.flatten.lookup key = blocks[r.candidate key]?.bind fun b => b.lookup key := by
  rw [lookup_flatten h.sorted h.nonempty, ← h.candidate_spec, List.head?_drop]

/-- A key that the filter rules out has no entry. -/
theorem lookup_of_ruledOut (h : Presents H r blocks)
    (hfilter : r.bloom.mayContain H.fnv key = some false) : blocks.flatten.lookup key = none := by
  rw [List.lookup_eq_none_iff]
  intro a ha
  have hmark := (h.marked a ha).mayContain
  have hne : key ≠ a.1 := by
    rintro rfl
    rw [hfilter] at hmark
    exact absurd hmark (by decide)
  simpa using hne

/-- The block of an index entry. -/
theorem block_of_index (h : Presents H r blocks) {i : ℕ} {blk : IndexEntry}
    (hblk : r.index[i]? = some blk) : ∃ b, blocks[i]? = some b := by
  have hi := h.lastKey_eq i
  rw [hblk, Option.map_some] at hi
  obtain ⟨b, hb, -⟩ := Option.map_eq_some_iff.mp hi.symm
  exact ⟨b, hb⟩

/-- `Get` of a key whose block is intact. -/
theorem get (h : Presents H r blocks)
    (hintact : ∀ blk b, r.index[r.candidate key]? = some blk → blocks[r.candidate key]? = some b →
      Intact H r blk b) : r.get H key = .ok (blocks.flatten.lookup key) := by
  obtain ⟨answer, hanswer⟩ := h.sound.mayContain_total H.fnv key
  rw [TableReader.get, hanswer]
  cases answer with
  | false => rw [h.lookup_of_ruledOut hanswer]
  | true =>
    rw [h.lookup_eq key]
    cases hblk : r.index[r.candidate key]? with
    | none =>
      rw [List.getElem?_eq_none (h.length_index ▸ List.getElem?_eq_none_iff.mp hblk)]
      rfl
    | some blk =>
      obtain ⟨b, hb⟩ := h.block_of_index hblk
      have hmem := List.mem_of_getElem? hb
      have hsorted := (List.pairwise_flatten.mp h.sorted).1 b hmem
      have hfits : ∀ a ∈ b, Fits a := fun a ha => h.fits a (List.mem_flatten.mpr ⟨b, hmem, ha⟩)
      have hread : r.readDataBlock H blk = _ := hintact blk b hblk hb
      simp only [hread, bind, Except.bind, scanBlock_encode hfits hsorted, decoded, hb,
        Option.bind_some]

/-- An intact block is decoded. -/
theorem load (h : Presents H r blocks) {blk : IndexEntry} {b : List (Bytes × Entry)}
    (hb : b ∈ blocks) (hintact : Intact H r blk b) : r.load H blk = .ok b := by
  have hfits : ∀ a ∈ b, Fits a := fun a ha => h.fits a (List.mem_flatten.mpr ⟨b, hb, ha⟩)
  have hread : r.readDataBlock H blk = _ := hintact
  simp only [TableReader.load, hread, bind, Except.bind, decodeBlock_encode hfits, decoded]

end Presents

end KvStore.Sstable
