import Mathlib

/-!
# Variable-length numbers

Numbers below `2 ^ 64` in base 128, the lowest digit first: a byte of 128 or more is a digit that
another one follows. Ten bytes are enough, and the tenth is at most one.

* `readUvarint_append`: what is written is read back, and what follows is left.
-/

namespace KvStore.Codec

/-- The digits of `x`, at most `more + 1`. -/
def uvarintFrom : ℕ → ℕ → List UInt8
  | 0, x => [UInt8.ofNat x]
  | more + 1, x =>
    if x < 128 then [UInt8.ofNat x] else UInt8.ofNat (x % 128 + 128) :: uvarintFrom more (x / 128)

/-- The number as at most ten bytes. -/
def uvarint (x : ℕ) : List UInt8 := uvarintFrom 9 x

/-- Read a number of at most `n` bytes. -/
def readUvarintFrom : ℕ → List UInt8 → Option (ℕ × List UInt8)
  | 0, _ => none
  | _ + 1, [] => none
  | n + 1, b :: data =>
    if b.toNat < 128 then
      if n = 0 ∧ 1 < b.toNat then none else some (b.toNat, data)
    else (readUvarintFrom n data).map fun p => (b.toNat % 128 + 128 * p.1, p.2)

/-- Read a number of at most ten bytes. -/
def readUvarint (data : List UInt8) : Option (ℕ × List UInt8) := readUvarintFrom 10 data

theorem readUvarintFrom_append {more x : ℕ} (h : x < 2 * 128 ^ more) (rest : List UInt8) :
    readUvarintFrom (more + 1) (uvarintFrom more x ++ rest) = some (x, rest) := by
  induction more generalizing x with
  | zero =>
    have hx : x = 0 ∨ x = 1 := by omega
    rcases hx with rfl | rfl <;> rfl
  | succ more ih =>
    rw [uvarintFrom]
    split_ifs with hlt
    · have hbyte : (UInt8.ofNat x).toNat = x :=
        UInt8.toNat_ofNat_of_lt' (by simp [UInt8.size]; omega)
      rw [List.cons_append, readUvarintFrom, hbyte, if_pos hlt, if_neg (by omega), List.nil_append]
    · have hbyte : (UInt8.ofNat (x % 128 + 128)).toNat = x % 128 + 128 :=
        UInt8.toNat_ofNat_of_lt' (by simp [UInt8.size]; omega)
      have hdiv : x / 128 < 2 * 128 ^ more := by
        rw [Nat.div_lt_iff_lt_mul (by decide), Nat.mul_assoc, ← pow_succ]
        exact h
      rw [List.cons_append, readUvarintFrom, hbyte, if_neg (by omega), ih hdiv, Option.map_some]
      congr 2
      omega

/-- Reading undoes writing. -/
theorem readUvarint_append {x : ℕ} (h : x < 2 ^ 64) (rest : List UInt8) :
    readUvarint (uvarint x ++ rest) = some (x, rest) := by
  have hdigits : x < 2 * 128 ^ 9 := by omega
  exact readUvarintFrom_append hdigits rest

theorem uvarint_ne_nil (x : ℕ) : uvarint x ≠ [] := by
  rw [uvarint, uvarintFrom]
  split_ifs <;> exact List.cons_ne_nil _ _

end KvStore.Codec
