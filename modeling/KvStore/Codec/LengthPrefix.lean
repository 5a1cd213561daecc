import Mathlib

/-!
# Length-prefixed byte strings

A byte string is written as its length, in four bytes with the least significant first, followed by
its bytes. `readLenPrefixed` is the usual reader: it checks the declared length against what is
left, counted in 32 bits, and hands back the rest.

* `readLenPrefixed_write`: a string shorter than `2 ^ 32` is read back unless what follows wraps the
  length around.
-/

namespace KvStore.Codec

/-- A 32-bit number, least significant byte first. -/
def le32 (n : ℕ) : List UInt8 :=
  [UInt8.ofNat n, UInt8.ofNat (n / 256), UInt8.ofNat (n / 256 ^ 2), UInt8.ofNat (n / 256 ^ 3)]

/-- Read a 32-bit number from the front. -/
def readLe32 : List UInt8 → Option (ℕ × List UInt8)
  | a :: b :: c :: d :: rest =>
    some (a.toNat + 256 * b.toNat + 256 ^ 2 * c.toNat + 256 ^ 3 * d.toNat, rest)
  | _ => none

/-- The length, then the bytes. -/
def writeLenPrefixed (b : List UInt8) : List UInt8 := le32 b.length ++ b

/-- Read a length-prefixed string from the front. -/
def readLenPrefixed (data : List UInt8) : Option (List UInt8 × List UInt8) :=
  match readLe32 data with
  | none => none
  | some (n, rest) => if rest.length % 2 ^ 32 < n then none else some (rest.take n, rest.drop n)

theorem readLe32_le32 {n : ℕ} (h : n < 2 ^ 32) (rest : List UInt8) :
    readLe32 (le32 n ++ rest) = some (n, rest) := by
  simp only [le32, List.cons_append, List.nil_append, readLe32, UInt8.toNat_ofNat']
  congr 2
  omega

theorem readLe32_length {data rest : List UInt8} {n : ℕ} (h : readLe32 data = some (n, rest)) :
    data.length = rest.length + 4 := by
  match data, h with
  | _ :: _ :: _ :: _ :: _, h =>
    obtain ⟨-, rfl⟩ := Prod.mk.inj (Option.some.inj h)
    rfl

/-- What was written is read back unless what follows wraps the length around. -/
theorem readLenPrefixed_write {b : List UInt8} (h : b.length < 2 ^ 32) (rest : List UInt8) :
    readLenPrefixed (writeLenPrefixed b ++ rest) =
      if (b ++ rest).length % 2 ^ 32 < b.length then none else some (b, rest) := by
  rw [readLenPrefixed, writeLenPrefixed, List.append_assoc, readLe32_le32 h]
  dsimp only
  rw [List.take_left, List.drop_left]

theorem readLenPrefixed_append {b : List UInt8} (h : b.length < 2 ^ 32) (rest : List UInt8)
    (hrest : b.length ≤ (b ++ rest).length % 2 ^ 32) :
    readLenPrefixed (writeLenPrefixed b ++ rest) = some (b, rest) := by
  rw [readLenPrefixed_write h, if_neg (Nat.not_lt.mpr hrest)]

end KvStore.Codec
