import KvStore.Sstable.Reader

/-!
# A sorted table that was written is read back

* `readChecksummed_of`: a block is read from where it was written.
* `openTable_of`: `OpenWithCache` accepts the file, and the reader presents its blocks, all intact.
* `table_correct`: for entries in order and any block size, when and only when the size of the
  filter's array does not wrap around, or no place is asked.
* `table_refines`: the file of a `Table` answers as the table does.
-/

namespace KvStore.Sstable

open Codec Wal Transport Layered

section File

variable {H : Hashes} {front data back : Bytes}

theorem readAt_of (front mid back : Bytes) :
    (TableFile.of (front ++ (mid ++ back))).readAt front.length mid.length = some mid := by
  have hle : front.length + mid.length ≤ (front ++ (mid ++ back)).length := by
    rw [List.length_append, List.length_append]
    omega
  simp only [TableFile.of, if_pos hle, List.drop_left, List.take_left]

theorem length_checksummed (H : Hashes) (data : Bytes) :
    (checksummed H data).length = data.length + 4 := by
  rw [checksummed, List.length_append, Framing.length_le32]

theorem toNat_ofNat_of_lt {n : ℕ} (h : n < 2 ^ 63) : (UInt64.ofNat n).toNat = n :=
  UInt64.toNat_ofNat_of_lt' (h.trans (by decide))

/-- A block with its checksum is read from where it stands in the file. -/
theorem readChecksummed_of (h : (front ++ (checksummed H data ++ back)).length < 2 ^ 63) :
    readChecksummed H (TableFile.of (front ++ (checksummed H data ++ back)))
    (UInt64.ofNat front.length)
      (UInt64.ofNat (checksummed H data).length) = .ok data := by
  have hlen := length_checksummed H data
  have hread := readAt_of front (checksummed H data) back
  rw [List.length_append, List.length_append] at h
  have hcrc : (H.crc data).toNat < 2 ^ 32 := (H.crc data).toNat_lt
  have htake : (checksummed H data).take ((checksummed H data).length - 4) = data := by
    rw [hlen, Nat.add_sub_cancel, checksummed, List.take_left]
  have hdrop : (checksummed H data).drop ((checksummed H data).length - 4) =
      le32 (H.crc data).toNat ++ [] := by
    rw [hlen, Nat.add_sub_cancel, checksummed, List.drop_left, List.append_nil]
  rw [readChecksummed, toNat_ofNat_of_lt (by omega), toNat_ofNat_of_lt (by omega),
    if_neg (by omega), if_neg (by omega), if_neg (by omega), hread]
  simp only [htake, hdrop, readLe32_le32 hcrc, if_true]

theorem length_le64 (n : UInt64) : (le64 n).length = 8 := by
  rw [le64, List.length_append, Framing.length_le32, Framing.length_le32]

theorem length_footer (a b c d e : ℕ) (s : UInt64) :
    (TableWriter.footer a b c d e s).length = footerSize := by
  simp only [TableWriter.footer, List.length_append, length_le64, footerSize]

theorem readFooter_footer (a b c d e : ℕ) (s : UInt64) :
    readFooter (TableWriter.footer a b c d e s) =
      some (UInt64.ofNat a, UInt64.ofNat b, UInt64.ofNat c, UInt64.ofNat d, UInt64.ofNat e, s,
        magicNumber) := by
  have hmagic := readLe64_le64 magicNumber []
  rw [List.append_nil] at hmagic
  simp only [readFooter, TableWriter.footer, readLe64_le64, hmagic, Option.bind_eq_bind,
    Option.bind_some]
  rfl

theorem length_le_length_flatMap {α : Type} {f : α → Bytes} {l : List α} {a : α} (ha : a ∈ l) :
    (f a).length ≤ (l.flatMap f).length := by
  obtain ⟨l₁, l₂, rfl⟩ := List.append_of_mem ha
  simp only [List.flatMap_append, List.flatMap_cons, List.length_append]
  omega

end File

section Open

variable {H : Hashes} {blocks : List (List (Bytes × Entry))} {bf : BloomFilter} {maxSeq : UInt64}

/-- The entries of a file that can be written fit its length fields. -/
theorem fits_of_tableFile (h : (tableFile H blocks bf maxSeq).length < 2 ^ 63) :
    ∀ a ∈ blocks.flatten, Fits a := by
  intro a ha
  obtain ⟨b, hb, hab⟩ := List.mem_flatten.mp ha
  have hblock := length_le_length_flatMap (f := blockFile H) hb
  have hentry := length_le_length_flatMap (f := encodeEntry) hab
  rw [blockFile, length_checksummed] at hblock
  simp only [encodeEntry, List.length_append, List.length_cons] at hentry
  simp only [tableFile, List.length_append] at h
  constructor <;> omega

theorem lastKey_fits (hfits : ∀ a ∈ blocks.flatten, Fits a) :
    ∀ e ∈ indexFrom H 0 blocks, e.lastKey.length < 2 ^ 64 := by
  intro e he
  have hmem := List.mem_map_of_mem (f := IndexEntry.lastKey) he
  rw [map_lastKey_indexFrom] at hmem
  obtain ⟨b, hb, heq⟩ := List.mem_map.mp hmem
  rw [← heq]
  by_cases hne : b = []
  · subst hne
    decide
  · obtain ⟨a, ha, hlast⟩ := lastKeyOf_mem hne
    exact hlast ▸ (hfits a (List.mem_flatten.mpr ⟨b, hb, ha⟩)).1

theorem length_flatten_le (H : Hashes) (blocks : List (List (Bytes × Entry))) :
    blocks.flatten.length ≤ (blocks.flatMap (blockFile H)).length := by
  induction blocks with
  | nil => exact le_rfl
  | cons b bs ih =>
    have := length_le_flatMap encodeEntry_ne_nil b
    rw [List.flatten_cons, List.flatMap_cons, List.length_append, List.length_append, blockFile,
      length_checksummed]
    omega

/-- The reader of a file. -/
def readerOf (H : Hashes) (blocks : List (List (Bytes × Entry))) (bf : BloomFilter)
    (maxSeq : UInt64) : TableReader :=
  ⟨TableFile.of (tableFile H blocks bf maxSeq), indexFrom H 0 blocks,
    { bf with k := bf.k % 2 ^ 32 }, blocks.flatten.length, maxSeq⟩

/-- Every block of a file is read as it was written. -/
theorem intact_readerOf (h : (tableFile H blocks bf maxSeq).length < 2 ^ 63) {i : ℕ}
    {blk : IndexEntry} {b : List (Bytes × Entry)} (hblk : (indexFrom H 0 blocks)[i]? = some blk)
    (hb : blocks[i]? = some b) : Intact H (readerOf H blocks bf maxSeq) blk b := by
  obtain ⟨bs, bs', rfl, rfl⟩ : ∃ bs bs', blocks = bs ++ b :: bs' ∧ bs.length = i := by
    obtain ⟨hi, hget⟩ := List.getElem?_eq_some_iff.mp hb
    exact ⟨blocks.take i, blocks.drop (i + 1),
      by rw [← hget, List.getElem_cons_drop, List.take_append_drop], List.length_take_of_le hi.le⟩
  have hlen : (indexFrom H 0 bs).length = bs.length := by
    have := congrArg List.length (map_lastKey_indexFrom H 0 bs)
    rwa [List.length_map, List.length_map] at this
  rw [indexFrom_append, ← hlen, List.getElem?_append_right le_rfl, Nat.sub_self, indexFrom,
    List.getElem?_cons_zero] at hblk
  obtain rfl := Option.some.inj hblk
  obtain ⟨tail, htail⟩ : ∃ tail, tableFile H (bs ++ b :: bs') bf maxSeq =
      (bs ++ b :: bs').flatMap (blockFile H) ++ tail := ⟨_, rfl⟩
  rw [List.flatMap_append, List.flatMap_cons, List.append_assoc, List.append_assoc] at htail
  rw [Intact, TableReader.readDataBlock, readerOf, Nat.zero_add]
  rw [htail] at h ⊢
  exact readChecksummed_of h

/-- `OpenWithCache` reads the index of the file, if the filter is accepted. -/
theorem openTable_tableFile (h : (tableFile H blocks bf maxSeq).length < 2 ^ 63) :
    openTable H (TableFile.of (tableFile H blocks bf maxSeq)) =
      (decoded (BloomFilter.decode bf.encode)).map fun bloom =>
        ⟨TableFile.of (tableFile H blocks bf maxSeq), indexFrom H 0 blocks, bloom,
          blocks.flatten.length, maxSeq⟩ := by
  have hkeys := lastKey_fits (H := H) (fits_of_tableFile h)
  have hcount : (UInt64.ofNat blocks.flatten.length).toNat = blocks.flatten.length := by
    have := length_flatten_le H blocks
    simp only [tableFile, List.length_append] at h
    exact toNat_ofNat_of_lt (by omega)
  generalize hdata : blocks.flatMap (blockFile H) = data
  generalize hbloom : checksummed H bf.encode = bloom
  generalize hindex : checksummed H (encodeIndex (indexFrom H 0 blocks)) = index
  have hfile : tableFile H blocks bf maxSeq = data ++ (bloom ++ (index ++ TableWriter.footer
      (data.length + bloom.length) index.length data.length bloom.length blocks.flatten.length
        maxSeq)) := by
    rw [tableFile, hdata, hbloom, hindex]
  rw [hfile] at h ⊢
  generalize hfooter : TableWriter.footer (data.length + bloom.length) index.length data.length
    bloom.length blocks.flatten.length maxSeq = footer at h ⊢
  have hlen : footer.length = footerSize := hfooter ▸ length_footer ..
  have hsize : (TableFile.of (data ++ (bloom ++ (index ++ footer)))).size =
      (data ++ (bloom ++ index)).length + footerSize := by
    simp only [TableFile.of, List.length_append, hlen]
    omega
  have hread : (TableFile.of (data ++ (bloom ++ (index ++ footer)))).readAt
      ((data ++ (bloom ++ index)).length) footerSize = some footer := by
    have := readAt_of (data ++ (bloom ++ index)) footer []
    rwa [List.append_nil, hlen, List.append_assoc, List.append_assoc] at this
  have hreadBloom : readChecksummed H (TableFile.of (data ++ (bloom ++ (index ++ footer))))
      (UInt64.ofNat data.length) (UInt64.ofNat bloom.length) = .ok bf.encode := by
    subst hbloom
    exact readChecksummed_of h
  have hreadIndex : readChecksummed H (TableFile.of (data ++ (bloom ++ (index ++ footer))))
      (UInt64.ofNat (data.length + bloom.length)) (UInt64.ofNat index.length) =
        .ok (encodeIndex (indexFrom H 0 blocks)) := by
    subst hindex
    rw [← List.append_assoc] at h ⊢
    rw [← List.length_append]
    exact readChecksummed_of h
  rw [openTable, if_neg (by omega), hsize, Nat.add_sub_cancel, hread, Option.bind_some, ← hfooter,
    readFooter_footer]
  dsimp only
  rw [if_neg (by simp), hfooter, hreadBloom]
  simp only [bind, Except.bind, hreadIndex, decodeIndex_encode hkeys, hcount]
  cases decoded (BloomFilter.decode bf.encode) with
  | error e => rfl
  | ok bloom => rfl

/-- `OpenWithCache` accepts the file. -/
theorem openTable_of (h : (tableFile H blocks bf maxSeq).length < 2 ^ 63)
    (hsize : bf.bits.length = ((bf.m + 7) / 8).toNat) :
    openTable H (TableFile.of (tableFile H blocks bf maxSeq)) =
      .ok (readerOf H blocks bf maxSeq) := by
  rw [openTable_tableFile h, BloomFilter.decode_encoded hsize]
  rfl

theorem presents_readerOf (h : (tableFile H blocks bf maxSeq).length < 2 ^ 63)
    (hbf : (readerOf H blocks bf maxSeq).bloom.Sound)
    (hsorted : blocks.flatten.Pairwise fun a b => a.1 < b.1) (hne : ∀ b ∈ blocks, b ≠ [])
    (hmarked : ∀ a ∈ blocks.flatten, bf.Marked H.fnv a.1) :
    Presents H (readerOf H blocks bf maxSeq) blocks :=
  ⟨rfl, hsorted, hne, fits_of_tableFile h, hbf, fun a ha => (hmarked a ha).mono (Nat.mod_le ..)⟩

/-- Blocks that are all intact are listed in order. -/
theorem seenFrom_intact {r : TableReader} (hp : Presents H r blocks)
    (hintact : ∀ (i : ℕ) blk b, r.index[i]? = some blk → blocks[i]? = some b → Intact H r blk b) :
    r.index.map (r.load H) = blocks.map .ok := by
  apply List.ext_getElem?
  intro i
  rw [List.getElem?_map, List.getElem?_map]
  cases hblk : r.index[i]? with
  | none => rw [List.getElem?_eq_none (hp.length_index ▸ List.getElem?_eq_none_iff.mp hblk)]; rfl
  | some blk =>
    obtain ⟨b, hb⟩ := hp.block_of_index hblk
    rw [hb, Option.map_some, Option.map_some,
      hp.load (List.mem_of_getElem? hb) (hintact i blk b hblk hb)]

end Open

theorem seenFrom_ok (blocks : List (List (Bytes × Entry))) :
    seenFrom (blocks.map .ok) = (blocks.flatten, none) := by
  induction blocks with
  | nil => rfl
  | cons b bs ih => rw [List.map_cons, seenFrom, ih, List.flatten_cons]

/-- The reader answers with the entries and lists them. -/
structure Serves (H : Hashes) (r : TableReader) (entries : List (Bytes × Entry)) : Prop where
  get : ∀ key, r.get H key = .ok (entries.lookup key)
  iterate : r.iterate H (entries.length + 1) = some (entries, none)
  numEntries : r.numEntries = entries.length
  maxSeq : r.maxSeq = maxSeqOf entries

theorem serves_readerOf {H : Hashes} {blocks : List (List (Bytes × Entry))} {bf : BloomFilter}
    {maxSeq : UInt64} (hlen : (tableFile H blocks bf maxSeq).length < 2 ^ 63)
    (hsound : (readerOf H blocks bf maxSeq).bloom.Sound)
    (hsorted : blocks.flatten.Pairwise fun a b => a.1 < b.1) (hne : ∀ b ∈ blocks, b ≠ [])
    (hmarked : ∀ a ∈ blocks.flatten, bf.Marked H.fnv a.1)
    (hseq : maxSeq = maxSeqOf blocks.flatten) :
    Serves H (readerOf H blocks bf maxSeq) blocks.flatten := by
  have hp := presents_readerOf hlen hsound hsorted hne hmarked
  refine ⟨fun key => hp.get fun blk b => intact_readerOf hlen, ?_, rfl, hseq⟩
  have hloads := seenFrom_intact hp fun i blk b => intact_readerOf hlen
  have hrounds :
      (seenFrom ((readerOf H blocks bf maxSeq).index.map
        ((readerOf H blocks bf maxSeq).load H))).1.length < blocks.flatten.length + 1 := by
    rw [hloads, seenFrom_ok]
    exact Nat.lt_succ_self _
  rw [TableReader.iterate_eq (fun blk hblk hload => ?_) hrounds, hloads, seenFrom_ok]
  have hmem := List.mem_map_of_mem (f := (readerOf H blocks bf maxSeq).load H) hblk
  rw [hloads, hload] at hmem
  obtain ⟨b, hb, heq⟩ := List.mem_map.mp hmem
  exact hne b hb (Except.ok.inj heq)

/-- A file with no entries whose filter, as it is stored, asks a place outside of its array. -/
theorem get_of_wrapped {H : Hashes} {m : UInt64} {k : ℕ} (hwrap : 2 ^ 64 ≤ m.toNat + 7)
    (hk : k % 2 ^ 32 ≠ 0) (key : Bytes) :
    (readerOf H [] (BloomFilter.new m k) 0).get H key = .error .panicked := by
  have hnone : (readerOf H [] (BloomFilter.new m k) 0).bloom.mayContain H.fnv key = none := by
    by_contra hsome
    rcases (BloomFilter.mayContain_isSome_iff List.length_replicate).mp hsome with hfits | hzero
    · exact absurd hwrap (Nat.not_le.mpr hfits)
    · exact hk hzero
  rw [TableReader.get, hnone]

/-- The file of no entries and a filter without bytes is short. -/
theorem writeTable_nil (H : Hashes) (opts : TableOptions) {m : UInt64} {k : ℕ}
    (hparams : opts.bloomParams 0 = (m, k)) (hwrap : 2 ^ 64 ≤ m.toNat + 7) :
    writeTable H opts [] = .ok (tableFile H [] (BloomFilter.new m k) 0) ∧
      (tableFile H [] (BloomFilter.new m k) 0).length < 2 ^ 63 := by
  constructor
  · have hsorted : ([] : List (Bytes × Entry)).Pairwise fun a b => a.1 < b.1 := List.Pairwise.nil
    obtain ⟨blocks, hflat, hne, hwrite⟩ := writeTable_blocks H opts hsorted
    obtain rfl : blocks = [] := by
      cases blocks with
      | nil => rfl
      | cons b bs =>
        rw [List.flatten_cons, List.append_eq_nil_iff] at hflat
        exact absurd hflat.1 (hne b List.mem_cons_self)
    rw [hwrite, List.length_nil, hparams]
    rfl
  · simp [tableFile, length_checksummed, BloomFilter.encode, BloomFilter.new,
      BloomFilter.wrapped_size hwrap, encodeIndex, indexFrom, length_footer, footerSize, le64,
      Framing.length_le32]

/-- **A sorted table that was written is read back**, for entries in order and any block size, if
and only if the size of its filter's array does not wrap around, or the filter, as it was made or,
if there are no entries, as it is stored, asks no place. -/
theorem table_correct (H : Hashes) (opts : TableOptions) {entries : List (Bytes × Entry)}
    (hsorted : entries.Pairwise fun a b => a.1 < b.1) :
    (∃ file, writeTable H opts entries = .ok file ∧ (file.length < 2 ^ 63 →
      ∃ r, openTable H (TableFile.of file) = .ok r ∧ Serves H r entries)) ↔
    (opts.bloomParams entries.length).1.toNat + 7 < 2 ^ 64 ∨
    (opts.bloomParams entries.length).2 = 0 ∨
      entries = [] ∧ (opts.bloomParams entries.length).2 % 2 ^ 32 = 0 := by
  by_cases hbloom : (opts.bloomParams entries.length).1.toNat + 7 < 2 ^ 64 ∨
      (opts.bloomParams entries.length).2 = 0
  · refine iff_of_true ?_ (hbloom.imp_right Or.inl)
    obtain ⟨blocks, bf, hwrite, rfl, hne, hsound, hmarked⟩ := writeTable_eq H opts hsorted hbloom
    exact ⟨_, hwrite, fun hlen => ⟨_, openTable_of hlen hsound.size,
      serves_readerOf hlen hsound.stored hsorted hne hmarked rfl⟩⟩
  obtain ⟨hwrap, hk⟩ := not_or.mp hbloom
  rw [or_iff_right hwrap, or_iff_right hk]
  cases entries with
  | cons a entries =>
    -- the first key is added to an array without bytes
    refine iff_of_false ?_ fun h => List.cons_ne_nil a entries h.1
    rintro ⟨file, hwrite, -⟩
    obtain ⟨blocks, -, -, hblocks⟩ := writeTable_blocks H opts hsorted
    rw [List.map_cons, List.foldlM_cons, BloomFilter.add_new_of_wrapped (Nat.not_lt.mp hwrap) hk]
      at hblocks
    cases hblocks.symm.trans hwrite
  | nil =>
    rw [and_iff_right rfl]
    rw [List.length_nil] at hwrap hk ⊢
    obtain ⟨hwrite, hlen⟩ := writeTable_nil H opts rfl (Nat.not_lt.mp hwrap)
    have hopen := openTable_of hlen List.length_replicate
    constructor
    · rintro ⟨file, hwrite', hserves⟩
      obtain rfl := Except.ok.inj (hwrite.symm.trans hwrite')
      obtain ⟨r, hr, hserves⟩ := hserves hlen
      obtain rfl := Except.ok.inj (hopen.symm.trans hr)
      by_contra hstored
      cases (get_of_wrapped (Nat.not_lt.mp hwrap) hstored []).symm.trans (hserves.get [])
    · intro hstored
      exact ⟨_, hwrite, fun hlen =>
        ⟨_, hopen, serves_readerOf hlen ⟨Or.inr hstored, List.length_replicate⟩ List.Pairwise.nil
          (fun _ h => by cases h) (fun _ h => by cases h) rfl⟩⟩

/-- Constant hashes. -/
def constantHashes : Hashes := ⟨fun _ => 0, fun _ => 0⟩

/-- Three entries, one of them deleted and one with the empty key. -/
def threeEntries : List (Bytes × Entry) :=
  [([], ⟨[7], 1, false⟩), ([1], ⟨[], 3, true⟩), ([1, 0], ⟨[8, 9], 2, false⟩)]

/-- Every entry has a block of its own, and the filter has nine bits of which a key sets two. -/
def smallBlocks : TableOptions := ⟨1, fun _ => (9, 2)⟩

theorem table_correct_three : ∃ file r, writeTable constantHashes smallBlocks threeEntries =
    .ok file ∧ openTable constantHashes (TableFile.of file) = .ok r ∧
      Serves constantHashes r threeEntries := by
  have hsize : ((writeTable constantHashes smallBlocks threeEntries).toOption.map fun file =>
      decide (file.length < 2 ^ 63)) = some true := by
    decide +kernel
  have hsorted : threeEntries.Pairwise fun a b => a.1 < b.1 := by decide +kernel
  obtain ⟨file, hwrite, hserves⟩ :=
    (table_correct constantHashes smallBlocks hsorted).mpr (Or.inl (by decide +kernel))
  rw [hwrite] at hsize
  obtain ⟨r, hopen, hr⟩ := hserves (of_decide_eq_true (Option.some.inj hsize))
  exact ⟨file, r, hwrite, hopen, hr⟩

/-- Six keys and the parameters a false-positive rate of 1.5 gives for them: no byte for the filter,
thirty places for each key. -/
theorem writeTable_wrapped_filter : writeTable constantHashes ⟨4096, fun _ => (2 ^ 64 - 5, 30)⟩
    ([1, 2, 3, 4, 5, 6].map fun c => ([c], ⟨[7], 1, false⟩)) = .error .panicked := by
  decide +kernel

theorem lookup_entries (t : Table) (key : Bytes) : t.entries.lookup key = t.get key := by
  ext e
  rw [← SortedMap.mem_entries, ← SortedMap.mem_iff_lookup (t.sorted.imp fun hlt => hlt.ne)]

/-- The file of a table answers as the table does. -/
theorem table_refines (H : Hashes) (opts : TableOptions) (t : Table)
    (hbloom : (opts.bloomParams t.entries.length).1.toNat + 7 < 2 ^ 64) {file : Bytes}
    (hfile : writeTable H opts t.entries = .ok file) (hlen : file.length < 2 ^ 63) :
    ∃ r, openTable H (TableFile.of file) = .ok r ∧ (∀ key, r.get H key = .ok (t.get key)) ∧
      r.maxSeq = t.maxSeq := by
  obtain ⟨blocks, bf, hwrite, hflat, hne, hsound, hmarked⟩ :=
    writeTable_eq H opts t.sorted (Or.inl hbloom)
  obtain rfl := Except.ok.inj (hwrite.symm.trans hfile)
  have hserves :=
    serves_readerOf hlen hsound.stored (hflat ▸ t.sorted) hne (hflat ▸ hmarked) (by rw [hflat])
  rw [hflat] at hserves
  exact ⟨_, openTable_of hlen hsound.size, fun key =>
    (hserves.get key).trans (congrArg _ (lookup_entries t key)), hserves.maxSeq⟩

end KvStore.Sstable
