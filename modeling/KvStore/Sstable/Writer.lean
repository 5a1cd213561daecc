import KvStore.Sstable.Block
import KvStore.Sstable.Bloom

/-!
# Writing a sorted table: `sstable/writer.go`

`Add` collects entries into a data block and writes the block out, with its checksum and an entry in
the index, once it is large enough. `Finish` writes the last block, the Bloom filter, the index and
the footer.

What is written goes to the file: failures of the disk are not part of this model. `Meta`, which
nothing reads, is left out. `fnv` and the checksum are any functions (`Hashes`), and the filter's
parameters any function of the number of keys.

* `Written`: the writer has written whole blocks and holds the entries of the next.
* `Written.add`, `Written.addAll`: `Add` takes entries in order.
* `writeTable_blocks`, `writeTable_eq`: the file is the blocks in order, the filter, the index and
  the footer (`tableFile`), for some division of the entries into blocks.
-/

namespace KvStore.Sstable

open Codec Wal Transport

/-- The hash of the Bloom filter and the checksum of the blocks. -/
structure Hashes where
  fnv : Bytes → UInt64
  crc : Bytes → UInt32

/-- `Options`: the size from which on a block is written, and `bloomParams` at the options' rate. -/
structure TableOptions where
  blockSize : ℤ
  bloomParams : ℕ → UInt64 × ℕ

/-- `defaultBlockSize`. -/
def defaultBlockSize : ℤ := 4096

/-- `withDefaults`. -/
def TableOptions.withDefaults (o : TableOptions) : TableOptions :=
  if o.blockSize ≤ 0 then { o with blockSize := defaultBlockSize } else o

/-- `magicNumber`. -/
def magicNumber : UInt64 := 0x4B56535331

/-- `footerSize`. -/
def footerSize : ℕ := 56

/-- `Writer`. -/
structure TableWriter where
  opts : TableOptions
  written : Bytes := []
  offset : ℕ := 0
  curBlock : Bytes := []
  index : List IndexEntry := []
  keys : List Bytes := []
  lastKey : Option Bytes := none
  numEntries : ℕ := 0
  maxSeq : UInt64 := 0
  closed : Bool := false

/-- Why a call of the writer fails; a Bloom filter that is too small is a panic. -/
inductive WriteError where
  | closed
  | duplicateKey
  | outOfOrder
  | panicked
  deriving DecidableEq, Repr

/-- A block and its checksum. -/
def checksummed (H : Hashes) (data : Bytes) : Bytes := data ++ le32 (H.crc data).toNat

namespace TableWriter

/-- `writeChecksummed`. -/
def writeChecksummed (H : Hashes) (w : TableWriter) (data : Bytes) : ℕ × TableWriter :=
  ((checksummed H data).length, { w with
    written := w.written ++ checksummed H data
    offset := w.offset + (checksummed H data).length })

/-- `flushBlock`. -/
def flushBlock (H : Hashes) (w : TableWriter) : TableWriter :=
  if w.curBlock = [] then w
  else
    let (length, w') := w.writeChecksummed H w.curBlock
    { w' with
      index := w'.index ++ [⟨w.lastKey.getD [], UInt64.ofNat w.offset, UInt64.ofNat length⟩]
      curBlock := [] }

/-- The entry goes into the pending block. -/
def push (w : TableWriter) (a : Bytes × Entry) : TableWriter :=
  { w with
    curBlock := w.curBlock ++ encodeEntry a
    keys := w.keys ++ [a.1]
    lastKey := some a.1
    numEntries := w.numEntries + 1
    maxSeq := if w.maxSeq < a.2.seq then a.2.seq else w.maxSeq }

/-- The part of `Add` after its checks. -/
def append (H : Hashes) (w : TableWriter) (a : Bytes × Entry) : TableWriter :=
  if w.opts.blockSize ≤ (w.push a).curBlock.length then (w.push a).flushBlock H else w.push a

/-- `Add`. -/
def add (H : Hashes) (w : TableWriter) (a : Bytes × Entry) : Except WriteError TableWriter :=
  if w.closed then .error .closed
  else
    match w.lastKey with
    | none => .ok (w.append H a)
    | some last =>
      if a.1 = last then .error .duplicateKey
      else if a.1 < last then .error .outOfOrder
      else .ok (w.append H a)

/-- The footer. -/
def footer (indexOffset indexLength bloomOffset bloomLength numEntries : ℕ) (maxSeq : UInt64) :
    Bytes :=
  le64 (UInt64.ofNat indexOffset) ++
    (le64 (UInt64.ofNat indexLength) ++ (le64 (UInt64.ofNat bloomOffset) ++
      (le64 (UInt64.ofNat bloomLength) ++
        (le64 (UInt64.ofNat numEntries) ++ (le64 maxSeq ++ le64 magicNumber)))))

/-- `Finish`: the file. -/
def finish (H : Hashes) (w : TableWriter) : Except WriteError Bytes :=
  if w.closed then .error .closed
  else
    let w := { w with closed := true }.flushBlock H
    let (m, k) := w.opts.bloomParams w.keys.length
    match w.keys.foldlM (BloomFilter.add H.fnv) (BloomFilter.new m k) with
    | none => .error .panicked
    | some bf =>
      let bloomOffset := w.offset
      let (bloomLength, w) := w.writeChecksummed H bf.encode
      let indexOffset := w.offset
      let (indexLength, w) := w.writeChecksummed H (encodeIndex w.index)
      .ok (w.written ++ footer indexOffset indexLength bloomOffset bloomLength
        w.numEntries w.maxSeq)

end TableWriter

/-- The file that `NewWriter`, an `Add` for each entry and `Finish` make. -/
def writeTable (H : Hashes) (opts : TableOptions) (entries : List (Bytes × Entry)) :
    Except WriteError Bytes := do
  let w ← entries.foldlM (TableWriter.add H) { opts := opts.withDefaults }
  w.finish H

/-! ## The layout of a file -/

/-- A data block in the file. -/
def blockFile (H : Hashes) (b : List (Bytes × Entry)) : Bytes :=
  checksummed H (b.flatMap encodeEntry)

/-- The greatest key of a block. -/
def lastKeyOf (b : List (Bytes × Entry)) : Bytes := (b.getLast?.map Prod.fst).getD []

/-- The index of blocks that begin at `off`. -/
def indexFrom (H : Hashes) : ℕ → List (List (Bytes × Entry)) → List IndexEntry
  | _, [] => []
  | off, b :: bs =>
    ⟨lastKeyOf b, UInt64.ofNat off, UInt64.ofNat (blockFile H b).length⟩ ::
      indexFrom H (off + (blockFile H b).length) bs

/-- A whole file: its data blocks, the filter, the index and the footer. -/
def tableFile (H : Hashes) (blocks : List (List (Bytes × Entry))) (bf : BloomFilter)
    (maxSeq : UInt64) : Bytes :=
  let data := blocks.flatMap (blockFile H)
  let bloom := checksummed H bf.encode
  let index := checksummed H (encodeIndex (indexFrom H 0 blocks))
  data ++
    (bloom ++ (index ++ TableWriter.footer (data.length + bloom.length) index.length data.length
      bloom.length blocks.flatten.length maxSeq))

theorem indexFrom_append (H : Hashes) (off : ℕ) (bs bs' : List (List (Bytes × Entry))) :
    indexFrom H off (bs ++ bs') =
      indexFrom H off bs ++ indexFrom H (off + (bs.flatMap (blockFile H)).length) bs' := by
  induction bs generalizing off with
  | nil => rfl
  | cons b bs ih =>
    rw [List.cons_append, indexFrom, ih, indexFrom, List.cons_append, List.flatMap_cons,
      List.length_append, Nat.add_assoc]

theorem map_lastKey_indexFrom (H : Hashes) (off : ℕ) (bs : List (List (Bytes × Entry))) :
    (indexFrom H off bs).map IndexEntry.lastKey = bs.map lastKeyOf := by
  induction bs generalizing off with
  | nil => rfl
  | cons b bs ih => rw [indexFrom, List.map_cons, List.map_cons, ih]

/-! ## What a writer has done -/

/-- The greatest sequence number of entries. -/
def maxSeqOf (entries : List (Bytes × Entry)) : UInt64 :=
  entries.foldl (fun m a => if m < a.2.seq then a.2.seq else m) 0

/-- The writer has written the blocks, and `pending` are the entries of the next one. -/
structure Written (H : Hashes) (w : TableWriter) (blocks : List (List (Bytes × Entry)))
    (pending : List (Bytes × Entry)) : Prop where
  written : w.written = blocks.flatMap (blockFile H)
  offset : w.offset = w.written.length
  curBlock : w.curBlock = pending.flatMap encodeEntry
  index : w.index = indexFrom H 0 blocks
  keys : w.keys = (blocks.flatten ++ pending).map Prod.fst
  lastKey : w.lastKey = w.keys.getLast?
  numEntries : w.numEntries = (blocks.flatten ++ pending).length
  maxSeq : w.maxSeq = maxSeqOf (blocks.flatten ++ pending)
  nonempty : ∀ b ∈ blocks, b ≠ []

namespace Written

variable {H : Hashes} {w : TableWriter} {blocks : List (List (Bytes × Entry))}
    {pending : List (Bytes × Entry)}

theorem curBlock_eq_nil (h : Written H w blocks pending) : w.curBlock = [] ↔ pending = [] := by
  rw [h.curBlock, List.flatMap_eq_nil_iff]
  constructor
  · intro hall
    rw [List.eq_nil_iff_forall_not_mem]
    exact fun a ha => encodeEntry_ne_nil a (hall a ha)
  · rintro rfl
    exact nofun

/-- Writing out the pending block. -/
theorem flushBlock (h : Written H w blocks pending) :
    ∃ blocks', Written H (w.flushBlock H) blocks' [] ∧
      blocks'.flatten = blocks.flatten ++ pending := by
  rw [TableWriter.flushBlock]
  by_cases hp : pending = []
  · subst hp
    rw [if_pos (h.curBlock_eq_nil.mpr rfl)]
    exact ⟨blocks, h, (List.append_nil _).symm⟩
  · rw [if_neg (mt h.curBlock_eq_nil.mp hp)]
    have hflat : (blocks ++ [pending]).flatten = blocks.flatten ++ pending := by
      rw [List.flatten_append, List.flatten_singleton]
    have hfile : checksummed H w.curBlock = blockFile H pending := by rw [h.curBlock, blockFile]
    have hlast : w.lastKey.getD [] = lastKeyOf pending := by
      rw [h.lastKey, h.keys, List.map_append, List.getLast?_append, lastKeyOf, List.getLast?_map]
      rw [List.getLast?_eq_some_getLast hp]
      rfl
    refine ⟨blocks ++ [pending], ⟨?_, ?_, rfl, ?_, ?_, h.lastKey, ?_, ?_, ?_⟩, hflat⟩
    · simp only [TableWriter.writeChecksummed, h.written, hfile, List.flatMap_append,
        List.flatMap_cons, List.flatMap_nil, List.append_nil]
    · simp only [TableWriter.writeChecksummed, h.offset, List.length_append]
    · simp only [TableWriter.writeChecksummed, h.index, hfile, hlast, h.offset, h.written]
      rw [indexFrom_append, Nat.zero_add]
      rfl
    · rw [hflat, List.append_nil]
      exact h.keys
    · rw [hflat, List.append_nil]
      exact h.numEntries
    · rw [hflat, List.append_nil]
      exact h.maxSeq
    · intro b hb
      rcases List.mem_append.mp hb with hb | hb
      · exact h.nonempty b hb
      · rw [List.mem_singleton.mp hb]
        exact hp

theorem flushBlock_opts (H : Hashes) (w : TableWriter) :
    (w.flushBlock H).opts = w.opts ∧ (w.flushBlock H).closed = w.closed := by
  unfold TableWriter.flushBlock
  split_ifs <;> exact ⟨rfl, rfl⟩

/-- `Add` takes an entry whose key is greater than those before it. -/
theorem add (h : Written H w blocks pending) (hopen : w.closed = false) {a : Bytes × Entry}
    (ha : ∀ last ∈ (blocks.flatten ++ pending).getLast?, last.1 < a.1) :
    ∃ w' blocks' pending', w.add H a = .ok w' ∧ w'.opts = w.opts ∧ w'.closed = false ∧
      Written H w' blocks' pending' ∧ blocks'.flatten ++ pending' =
        blocks.flatten ++ pending ++ [a] := by
  have hadd : w.add H a = .ok (w.append H a) := by
    rw [TableWriter.add, if_neg (by rw [hopen]; decide)]
    have hlast := h.lastKey
    rw [h.keys, List.getLast?_map] at hlast
    cases hl : (blocks.flatten ++ pending).getLast? with
    | none => rw [hlast, hl]; rfl
    | some last =>
      have hlt := ha last (by rw [hl]; rfl)
      rw [hlast, hl]
      dsimp only [Option.map_some]
      rw [if_neg hlt.ne', if_neg hlt.not_gt]
  have hpush : Written H (w.push a) blocks (pending ++ [a]) := by
    refine ⟨h.written, h.offset, ?_, h.index, ?_, ?_, ?_, ?_, h.nonempty⟩
    · rw [TableWriter.push, h.curBlock, List.flatMap_append, List.flatMap_singleton]
    · simp [TableWriter.push, h.keys]
    · rw [TableWriter.push, List.getLast?_concat]
    · simp [TableWriter.push, h.numEntries, Nat.add_assoc]
    · rw [TableWriter.push, h.maxSeq, ← List.append_assoc, maxSeqOf, maxSeqOf, List.foldl_concat]
  rw [hadd, TableWriter.append]
  by_cases hfull : w.opts.blockSize ≤ (w.push a).curBlock.length
  · rw [if_pos hfull]
    obtain ⟨blocks', hw', hflat⟩ := hpush.flushBlock
    refine ⟨_, blocks', [], rfl, (flushBlock_opts _ _).1,
      (flushBlock_opts _ _).2.trans hopen, hw', ?_⟩
    · rw [List.append_nil, hflat, List.append_assoc]
  · rw [if_neg hfull]
    exact ⟨_, blocks, pending ++ [a], rfl, rfl, hopen, hpush, (List.append_assoc ..).symm⟩

/-- `Add` takes entries in order, one after the other. -/
theorem addAll (h : Written H w blocks pending) (hopen : w.closed = false)
    {entries : List (Bytes × Entry)} (hsorted :
    (blocks.flatten ++ pending ++ entries).Pairwise fun a b => a.1 < b.1) :
    ∃ w' blocks' pending', entries.foldlM (TableWriter.add H) w = .ok w' ∧ w'.opts = w.opts ∧
      w'.closed = false ∧ Written H w' blocks' pending' ∧
      blocks'.flatten ++ pending' = blocks.flatten ++ pending ++ entries := by
  induction entries generalizing w blocks pending with
  | nil => exact ⟨w, blocks, pending, rfl, rfl, hopen, h, (List.append_nil _).symm⟩
  | cons a entries ih =>
    obtain ⟨w₁, blocks₁, pending₁, hadd, hopts, hopen₁, hw₁, hflat⟩ :=
      h.add hopen (a := a) fun last hlast =>
      (List.pairwise_append.mp hsorted).2.2 last (List.mem_of_getLast? hlast) a List.mem_cons_self
    obtain ⟨w₂, blocks₂, pending₂, hfold, hopts₂, hopen₂, hw₂, hflat₂⟩ := ih hw₁ hopen₁ (by
      rw [hflat, List.append_assoc]
      exact hsorted)
    refine ⟨w₂, blocks₂, pending₂, ?_, hopts₂.trans hopts, hopen₂, hw₂, ?_⟩
    · rw [List.foldlM_cons, hadd]
      exact hfold
    · rw [hflat₂, hflat, List.append_assoc, List.singleton_append]

end Written

/-- The entries are written in blocks that are not empty. What is left to say of the file is the
filter, which panics if its array is too small. -/
theorem writeTable_blocks (H : Hashes) (opts : TableOptions) {entries : List (Bytes × Entry)}
    (hsorted : entries.Pairwise fun a b => a.1 < b.1) :
    ∃ blocks, blocks.flatten = entries ∧ (∀ b ∈ blocks, b ≠ []) ∧
      writeTable H opts entries =
        match (entries.map Prod.fst).foldlM (BloomFilter.add H.fnv) (BloomFilter.new
          (opts.bloomParams entries.length).1 (opts.bloomParams entries.length).2) with
        | none => .error .panicked
        | some bf => .ok (tableFile H blocks bf (maxSeqOf entries)) := by
  have hnew : Written H { opts := opts.withDefaults } [] [] :=
    ⟨rfl, rfl, rfl, rfl, rfl, rfl, rfl, rfl, nofun⟩
  have hall : (([] : List (List (Bytes × Entry))).flatten ++ [] ++ entries).Pairwise
      fun a b : Bytes × Entry => a.1 < b.1 := hsorted
  obtain ⟨w, blocks, pending, hfold, hopts, hopen, hw, hflat⟩ := hnew.addAll rfl hall
  have hclosed : Written H { w with closed := true } blocks pending :=
    ⟨hw.written, hw.offset, hw.curBlock, hw.index, hw.keys, hw.lastKey, hw.numEntries, hw.maxSeq,
      hw.nonempty⟩
  obtain ⟨blocks', hw', hflat'⟩ := hclosed.flushBlock
  have hentries : blocks'.flatten = entries := hflat'.trans hflat
  have hopts' : ({ w with closed := true }.flushBlock H).opts.bloomParams = opts.bloomParams := by
    rw [(Written.flushBlock_opts _ _).1]
    show w.opts.bloomParams = _
    rw [hopts, TableOptions.withDefaults]
    split_ifs <;> rfl
  have hwrite : writeTable H opts entries = w.finish H := by rw [writeTable, hfold]; rfl
  refine ⟨blocks', hentries, hw'.nonempty, ?_⟩
  rw [hwrite, TableWriter.finish, if_neg (by rw [hopen]; decide)]
  generalize { w with closed := true }.flushBlock H = w' at hw' hopts' ⊢
  have hkeys : w'.keys = entries.map Prod.fst := by rw [hw'.keys, List.append_nil, hentries]
  simp only [hopts', hkeys, List.length_map]
  cases (entries.map Prod.fst).foldlM (BloomFilter.add H.fnv) (BloomFilter.new
    (opts.bloomParams entries.length).1 (opts.bloomParams entries.length).2) with
  | none => rfl
  | some bf =>
    simp only [TableWriter.writeChecksummed, hw'.offset, hw'.written, hw'.index, hw'.numEntries,
      hw'.maxSeq, List.append_nil, hentries]
    rw [tableFile, hentries, List.append_assoc, List.append_assoc]

/-- **What a table's file is**: the entries in blocks that are not empty, a filter that marks every
key, and the index and the footer for them. -/
theorem writeTable_eq (H : Hashes) (opts : TableOptions) {entries : List (Bytes × Entry)}
    (hsorted : entries.Pairwise fun a b => a.1 < b.1)
    (hbloom : (opts.bloomParams entries.length).1.toNat + 7 < 2 ^ 64 ∨
      (opts.bloomParams entries.length).2 = 0) :
    ∃ blocks bf, writeTable H opts entries = .ok (tableFile H blocks bf (maxSeqOf entries)) ∧
      blocks.flatten = entries ∧ (∀ b ∈ blocks, b ≠ []) ∧ bf.Sound ∧
        ∀ a ∈ entries, bf.Marked H.fnv a.1 := by
  obtain ⟨blocks, hflat, hne, hwrite⟩ := writeTable_blocks H opts hsorted
  obtain ⟨bf, hbf, hsound, -, -, hmarked, -⟩ :=
    (BloomFilter.sound_new hbloom).addAll H.fnv (entries.map Prod.fst)
  rw [hbf] at hwrite
  exact ⟨blocks, bf, hwrite, hflat, hne, hsound, fun a ha => hmarked a.1 (List.mem_map_of_mem ha)⟩

end KvStore.Sstable
