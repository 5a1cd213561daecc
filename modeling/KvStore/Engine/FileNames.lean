import Mathlib
import KvStore.Codec.Decimal
import KvStore.Engine.Recovery

/-!
# The names of a store's files

`engine.go` names a log or a table by its number with `Sprintf`, and finds it again with `Sscanf` of
the same pattern. The width of `%06d` is the least that is printed and the greatest that is scanned:
a name of seven digits is scanned as six of them, after which the literal part of the pattern does
not match, and the file is skipped.

* `sscanf_sprintf_iff`: a number is scanned as it was printed iff it has at most six digits.
* `mem_numbers`: the numbers that are found, among any other files of the directory.
* `file_names_found_iff`: files are found with their numbers, in order and below the next number,
  iff every number has at most six digits.
* `Listing.Of.discoverWALs`, `Listing.Of.discoverSSTables`: what the names of a directory's files
  give is what `Dir` says that `Open` finds.

Blanks before a number, which `Sscanf` skips, are left out: such a name is not one that `Sprintf`
prints, and the comparison with it refuses the name in either case.
-/

namespace KvStore

open Codec Layered

/-- An entry of a directory. -/
structure DirEntry where
  name : List Char
  isDir : Bool := false
  deriving DecidableEq, Repr

/-- What `os.ReadDir` returns: the entries, of which no two have one name. -/
structure Listing where
  entries : List DirEntry
  nodup : (entries.map DirEntry.name).Nodup := by decide

/-- The files that an engine numbers. -/
inductive FileKind
  | wal
  | sst
  deriving DecidableEq, Repr

namespace FileKind

/-- The literal part of `walFileNamePattern` and `sstableFileNamePattern`. -/
def suffix : FileKind → List Char
  | .wal => ".wal".toList
  | .sst => ".sst".toList

/-- `Sprintf` of the pattern. -/
def sprintf (k : FileKind) (n : ℤ) : List Char := printInt 6 n ++ k.suffix

/-- `Sscanf` with the pattern. What follows the literal part is not looked at. -/
def sscanf (k : FileKind) (name : List Char) : Option ℤ := do
  let (n, rest) ← scanInt 6 name
  if k.suffix <+: rest then return n else none

/-- One round of the loop of `discoverSSTables` and `discoverWALs`: the number of an entry that is
kept. -/
def accept (k : FileKind) (minValidSeq : ℤ) (e : DirEntry) : Option ℤ :=
  if e.isDir then none
  else do
    let n ← k.sscanf e.name
    if k.sprintf n ≠ e.name then none
    else if n < minValidSeq then none
    else return n

end FileKind

namespace Listing

/-- The numbers of the entries that are kept, after `sort.Ints`. -/
def numbers (L : Listing) (k : FileKind) (minValidSeq : ℤ) : List ℤ :=
  (L.entries.filterMap (k.accept minValidSeq)).insertionSort (· ≤ ·)

/-- `nums[len(nums)-1] + 1`, or 0 if there are none. -/
def nextNumber (nums : List ℤ) : ℤ := (nums.getLast?.map (· + 1)).getD 0

/-- `discoverWALs`: the files, the oldest first, and the next number. -/
def discoverWALs (L : Listing) (minValidSeq : ℤ) : List (ℤ × List Char) × ℤ :=
  ((L.numbers .wal minValidSeq).map fun n => (n, FileKind.wal.sprintf n),
    nextNumber (L.numbers .wal minValidSeq))

/-- The files that `discoverSSTables` opens, the newest first, and the next number. -/
def discoverSSTables (L : Listing) (minValidSeq : ℤ) : List (ℤ × List Char) × ℤ :=
  ((L.numbers .sst minValidSeq).reverse.map fun n => (n, FileKind.sst.sprintf n),
    nextNumber (L.numbers .sst minValidSeq))

end Listing

/-! ## One name -/

namespace FileKind

variable {k : FileKind}

theorem suffix_head (k : FileKind) : ∃ cs, k.suffix = '.' :: cs := by
  cases k with
  | wal => exact ⟨"wal".toList, rfl⟩
  | sst => exact ⟨"sst".toList, rfl⟩

theorem sscanf_sprintf (k : FileKind) (n : ℕ) :
    k.sscanf (k.sprintf n) = if k.suffix <+: (paddedDigits 6 n).drop 6 ++ k.suffix then
      some (decimalValue ((paddedDigits 6 n).take 6) : ℤ) else none := by
  have hlen : 6 ≤ (paddedDigits 6 n).length := by
    rw [length_paddedDigits]
    exact le_max_left ..
  have hscan :=
    scanInt_digits (fun c hc => isDigit_of_mem_paddedDigits hc) (by decide : 0 < 6) hlen k.suffix
  have hprint : k.sprintf n = paddedDigits 6 n ++ k.suffix := rfl
  rw [sscanf, hprint, hscan]
  rfl

/-- A number is scanned as it was printed iff it has at most six digits. -/
theorem sscanf_sprintf_iff (k : FileKind) (n : ℕ) :
    k.sscanf (k.sprintf n) = some (n : ℤ) ↔ n < Dir.fileLimit := by
  have hlimit : Dir.fileLimit = 10 ^ 6 := rfl
  rw [hlimit, ← length_paddedDigits_le_iff, sscanf_sprintf]
  constructor
  · intro h
    split_ifs at h with hsuffix
    by_contra hlong
    -- the seventh digit stands where the literal part should begin
    obtain ⟨cs, hcs⟩ := k.suffix_head
    obtain ⟨c, rest, hdrop⟩ :=
      List.exists_cons_of_ne_nil fun hnil : (paddedDigits 6 n).drop 6 = [] =>
      hlong (List.drop_eq_nil_iff.mp hnil)
    have hdigit : c.isDigit = true :=
      isDigit_of_mem_paddedDigits (List.mem_of_mem_drop (hdrop ▸ List.mem_cons_self))
    rw [hdrop, hcs, List.cons_append, List.cons_prefix_cons] at hsuffix
    exact absurd (hsuffix.1 ▸ hdigit) (by decide)
  · intro hle
    rw [List.drop_eq_nil_iff.mpr hle, List.take_of_length_le hle, decimalValue_paddedDigits,
      List.nil_append, if_pos (List.prefix_rfl)]

/-- The entries that are kept. -/
theorem accept_eq_some {m n : ℤ} {e : DirEntry} :
    k.accept m e = some n ↔ e = ⟨k.sprintf n, false⟩ ∧ k.sscanf (k.sprintf n) = some n ∧ m ≤ n := by
  obtain ⟨name, isDir⟩ := e
  cases isDir with
  | true => simp [accept]
  | false =>
    constructor
    · intro h
      rw [accept, if_neg Bool.false_ne_true] at h
      obtain ⟨n', hscan, h⟩ := Option.bind_eq_some_iff.mp h
      split_ifs at h with hname hmin
      cases Option.some.inj h
      rw [not_ne_iff] at hname
      exact ⟨by rw [hname], hname ▸ hscan, not_lt.mp hmin⟩
    · rintro ⟨he, hscan, hmin⟩
      cases he
      rw [accept, if_neg Bool.false_ne_true, hscan]
      simp [hmin]

end FileKind

/-! ## All names -/

namespace Listing

variable {L : Listing} {k : FileKind} {m : ℤ}

/-- The numbers that are found are those of the files whose name is scanned as it was printed. -/
theorem mem_numbers {n : ℤ} :
    n ∈ L.numbers k m ↔ ⟨k.sprintf n, false⟩ ∈ L.entries ∧ k.sscanf (k.sprintf n) = some n ∧
      m ≤ n := by
  rw [numbers, List.mem_insertionSort, List.mem_filterMap]
  constructor
  · rintro ⟨e, he, haccept⟩
    obtain ⟨rfl, hscan, hmin⟩ := FileKind.accept_eq_some.mp haccept
    exact ⟨he, hscan, hmin⟩
  · rintro ⟨he, hscan, hmin⟩
    exact ⟨_, he, FileKind.accept_eq_some.mpr ⟨rfl, hscan, hmin⟩⟩

/-- The numbers are in order, and each is there once. -/
theorem numbers_sorted (L : Listing) (k : FileKind) (m : ℤ) : (L.numbers k m).Pairwise (· < ·) := by
  have hle : (L.numbers k m).Pairwise (· ≤ ·) := List.pairwise_insertionSort _ _
  have hnodup : (L.numbers k m).Nodup := by
    rw [numbers, (List.perm_insertionSort _ _).nodup_iff]
    refine (List.Nodup.of_map _ L.nodup).filterMap fun e e' n he he' => ?_
    rw [(FileKind.accept_eq_some.mp he).1, (FileKind.accept_eq_some.mp he').1]
  exact hle.imp₂ (fun _ _ hab hne => lt_of_le_of_ne hab hne) hnodup

/-- The next number is greater than every one of a list in order. -/
theorem lt_nextNumber {nums : List ℤ} (hs : nums.Pairwise (· < ·)) {n : ℤ} (h : n ∈ nums) :
    n < nextNumber nums := by
  obtain ⟨l, b, rfl⟩ := List.eq_nil_or_concat nums |>.resolve_left (List.ne_nil_of_mem h)
  rw [List.concat_eq_append] at h hs ⊢
  rw [nextNumber, List.getLast?_concat, Option.map_some, Option.getD_some, Int.lt_add_one_iff]
  rcases List.mem_append.mp h with h | h
  · exact ((List.pairwise_append.mp hs).2.2 n h b (List.mem_singleton_self b)).le
  · exact (List.mem_singleton.mp h).le

/-- Files of the directory are all returned, and are below the next number, iff their numbers have
at most six digits. The numbers may be returned in any order. -/
theorem returned_iff {ns : List ℕ} (hm : ∀ n ∈ ns, m ≤ n)
    (hfiles : ∀ n ∈ ns, ⟨k.sprintf n, false⟩ ∈ L.entries) {nums : List ℤ}
    (hnums : ∀ n, n ∈ nums ↔ n ∈ L.numbers k m) :
    ((∀ n ∈ ns, ((n : ℤ), k.sprintf n) ∈ nums.map fun n => (n, k.sprintf n)) ∧
      ∀ n ∈ ns, (n : ℤ) < nextNumber (L.numbers k m)) ↔ ∀ n ∈ ns, n < Dir.fileLimit := by
  constructor
  · rintro ⟨hfound, -⟩ n hn
    obtain ⟨n', hn', heq⟩ := List.mem_map.mp (hfound n hn)
    rw [hnums, (Prod.mk.inj heq).1, mem_numbers] at hn'
    exact (k.sscanf_sprintf_iff n).mp hn'.2.1
  · intro hlimit
    have hmem : ∀ n ∈ ns, (n : ℤ) ∈ L.numbers k m := fun n hn =>
      mem_numbers.mpr ⟨hfiles n hn, (k.sscanf_sprintf_iff n).mpr (hlimit n hn), hm n hn⟩
    exact ⟨fun n hn => List.mem_map.mpr ⟨n, (hnums n).mpr (hmem n hn), rfl⟩,
      fun n hn => lt_nextNumber (L.numbers_sorted k m) (hmem n hn)⟩

end Listing

/-- **Files are found iff their numbers have at most six digits.** Of a directory that has the table
files with the numbers `ns`, all of them at or above the marker, `discoverSSTables` returns each of
them with its number, the newest first, and a next number above them iff every number is below a
million, whatever else the directory has. So does `discoverWALs` of the logs, the oldest first. -/
theorem file_names_found_iff (L : Listing) (m : ℕ) (ns : List ℕ) (hm : ∀ n ∈ ns, m ≤ n) :
    ((∀ n ∈ ns, ⟨FileKind.sst.sprintf n, false⟩ ∈ L.entries) →
      (((∀ n ∈ ns, ((n : ℤ), FileKind.sst.sprintf n) ∈ (L.discoverSSTables m).1) ∧
          (L.discoverSSTables m).1.Pairwise (fun a b => b.1 < a.1) ∧
          ∀ n ∈ ns, (n : ℤ) < (L.discoverSSTables m).2) ↔ ∀ n ∈ ns, n < Dir.fileLimit)) ∧
    ((∀ n ∈ ns, ⟨FileKind.wal.sprintf n, false⟩ ∈ L.entries) →
      (((∀ n ∈ ns, ((n : ℤ), FileKind.wal.sprintf n) ∈ (L.discoverWALs m).1) ∧
          (L.discoverWALs m).1.Pairwise (fun a b => a.1 < b.1) ∧
          ∀ n ∈ ns, (n : ℤ) < (L.discoverWALs m).2) ↔ ∀ n ∈ ns, n < Dir.fileLimit)) := by
  have hm' : ∀ n ∈ ns, (m : ℤ) ≤ n := fun n hn => Int.ofNat_le.mpr (hm n hn)
  constructor
  · intro hfiles
    have horder : (L.discoverSSTables m).1.Pairwise fun a b => b.1 < a.1 :=
      List.pairwise_map.mpr (List.pairwise_reverse.mpr (L.numbers_sorted .sst m))
    rw [and_iff_right horder]
    exact Listing.returned_iff hm' hfiles fun n => List.mem_reverse
  · intro hfiles
    have horder : (L.discoverWALs m).1.Pairwise fun a b => a.1 < b.1 :=
      List.pairwise_map.mpr (L.numbers_sorted .wal m)
    rw [and_iff_right horder]
    exact Listing.returned_iff hm' hfiles fun n => Iff.rfl

/-- A directory with two logs, a copy of one and a marker. -/
def smallListing : Listing :=
  ⟨[⟨"000003.wal".toList, false⟩, ⟨"000012.wal".toList, false⟩, ⟨"000012.wal.bak".toList, false⟩,
    ⟨"RESTORE_MARKER".toList, false⟩], by decide⟩

theorem file_names_found_iff_small :
    (∀ n ∈ ([3, 12] : List ℕ), ((n : ℤ), FileKind.wal.sprintf n) ∈
      (smallListing.discoverWALs (2 : ℕ)).1) ∧
    (smallListing.discoverWALs (2 : ℕ)).1.Pairwise (fun a b => a.1 < b.1) ∧
      ∀ n ∈ ([3, 12] : List ℕ), (n : ℤ) < (smallListing.discoverWALs (2 : ℕ)).2 :=
  ((file_names_found_iff smallListing 2 [3, 12] (by decide)).2 (by decide +kernel)).mpr (by decide)

/-- The table file with the number 1000000 is not found, and the next number is 0. -/
theorem seven_digits_not_found :
    Listing.discoverSSTables ⟨[⟨FileKind.sst.sprintf 1000000, false⟩], by simp⟩ 0 = ([], 0) := by
  decide +kernel

/-! ## The files of a directory -/

namespace Listing

/-- The listing shows the files of the directory under their names, and any others. -/
structure Of (L : Listing) (d : Dir) : Prop where
  wals : ∀ n : ℕ, ⟨FileKind.wal.sprintf n, false⟩ ∈ L.entries ↔ ∃ b, (n, b) ∈ d.wals.entries
  ssts : ∀ n : ℕ, ⟨FileKind.sst.sprintf n, false⟩ ∈ L.entries ↔ ∃ o, (n, o) ∈ d.ssts.entries

variable {L : Listing} {d : Dir} {k : FileKind} {α : Type} {files : SortedMap ℕ α}

/-- The numbers that are found are those of the valid files. -/
theorem numbers_eq_within (h : ∀ n : ℕ, ⟨k.sprintf n, false⟩ ∈ L.entries ↔
    ∃ a, (n, a) ∈ files.entries) : L.numbers k d.minValidSeq = (files.within d.Valid).map fun a =>
    (a.1 : ℤ) := by
  have hs := L.numbers_sorted k d.minValidSeq
  have hs' : ((files.within d.Valid).map fun a => (a.1 : ℤ)).Pairwise (· < ·) :=
    List.pairwise_map.mpr ((files.within_sorted d.Valid).imp fun hab => Int.ofNat_lt.mpr hab)
  refine List.Perm.eq_of_pairwise' hs hs' ?_
  refine (List.perm_ext_iff_of_nodup hs.nodup hs'.nodup).mpr fun n => ?_
  rw [mem_numbers, List.mem_map]
  constructor
  · rintro ⟨hfile, hscan, hmin⟩
    obtain ⟨n, rfl⟩ := Int.eq_ofNat_of_zero_le ((Int.natCast_nonneg _).trans hmin)
    obtain ⟨a, ha⟩ := (h n).mp hfile
    have hvalid : d.Valid n := ⟨Int.ofNat_le.mp hmin, (k.sscanf_sprintf_iff n).mp hscan⟩
    exact ⟨(n, a), SortedMap.mem_within.mpr ⟨ha, hvalid⟩, rfl⟩
  · rintro ⟨⟨n, a⟩, ha, rfl⟩
    obtain ⟨hmem, hmin, hlimit⟩ := SortedMap.mem_within.mp ha
    exact ⟨(h n).mpr ⟨a, hmem⟩, (k.sscanf_sprintf_iff n).mpr hlimit, Int.ofNat_le.mpr hmin⟩

theorem nextNumber_map (l : List (ℕ × α)) :
    nextNumber (l.map fun a => (a.1 : ℤ)) = Dir.nextNumber l := by
  rw [nextNumber, Dir.nextNumber, List.getLast?_map]
  cases l.getLast? with
  | none => rfl
  | some a => rfl

/-- What the names of the logs give is what `Dir` finds. -/
theorem Of.discoverWALs (h : L.Of d) :
    (L.discoverWALs d.minValidSeq).1.map Prod.fst = d.discoverWALs.1.map (fun a => (a.1 : ℤ)) ∧
      (L.discoverWALs d.minValidSeq).2 = d.discoverWALs.2 := by
  have hnumbers := numbers_eq_within (d := d) h.wals
  refine ⟨?_, ?_⟩
  · rw [Listing.discoverWALs, hnumbers, List.map_map]
    exact (List.map_id' _)
  · rw [Listing.discoverWALs, hnumbers]
    exact nextNumber_map d.validWals

/-- What the names of the tables give is what `Dir` finds, if every table opens. -/
theorem Of.discoverSSTables (h : L.Of d) {tables : List (ℕ × Table)} {next : ℕ} {maxSeq : UInt64}
    (hopen : d.discoverSSTables = some (tables, next, maxSeq)) :
    (L.discoverSSTables d.minValidSeq).1.map Prod.fst = tables.map (fun a => (a.1 : ℤ)) ∧
      (L.discoverSSTables d.minValidSeq).2 = next := by
  have hnumbers := numbers_eq_within (d := d) h.ssts
  obtain ⟨tables', htables, hfound⟩ := Option.bind_eq_some_iff.mp hopen
  obtain ⟨rfl, hnext⟩ := Prod.mk.inj (Option.some.inj hfound)
  obtain ⟨rfl, -⟩ := Prod.mk.inj hnext
  refine ⟨?_, ?_⟩
  · rw [Listing.discoverSSTables, hnumbers, List.map_map, ← List.map_reverse, List.map_map]
    have hvalid : d.validSsts.reverse = tables'.map fun a => (a.1, some a.2) := mapM_tables htables
    rw [show (d.ssts.within d.Valid).reverse = _ from hvalid, List.map_map]
    rfl
  · rw [Listing.discoverSSTables, hnumbers]
    exact nextNumber_map d.validSsts

end Listing

end KvStore
