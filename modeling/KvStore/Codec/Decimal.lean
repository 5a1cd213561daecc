import Mathlib

/-!
# Decimal numbers of a width

Printing and scanning with a width, as of a format `%06d`. The width is the least number of
characters that are printed, and the greatest number that are scanned.

* `decimalValue_paddedDigits`: the digits that are printed denote the number.
* `scanInt_digits`: of a text that starts with digits, the width's first ones are scanned and the
  rest is left.
-/

namespace KvStore.Codec

/-- The digits of a number, the highest first, with zeros before them up to the width. -/
def paddedDigits (width n : ℕ) : List Char :=
  (Nat.digits 10 n ++ List.replicate (width - (Nat.digits 10 n).length) 0).reverse.map Nat.digitChar

/-- The number that digits denote. -/
def decimalValue (digits : List Char) : ℕ :=
  digits.foldl (fun v c => c.toNat - '0'.toNat + 10 * v) 0

/-- Print with zeros up to the width, of which a minus takes one place. -/
def printInt (width : ℕ) : ℤ → List Char
  | .ofNat n => paddedDigits width n
  | .negSucc n => '-' :: paddedDigits (width - 1) (n + 1)

/-- A sign that may stand before the digits, and what follows it. -/
def acceptSign : List Char → ℤ × List Char
  | '-' :: text => (-1, text)
  | '+' :: text => (1, text)
  | text => (1, text)

/-- Scan a sign and digits of at most the width, and leave the rest. -/
def scanInt (width : ℕ) (text : List Char) : Option (ℤ × List Char) :=
  let (sign, window) := acceptSign (text.take width)
  let digits := window.takeWhile Char.isDigit
  if digits = [] then none
  else some (sign * decimalValue digits, window.dropWhile Char.isDigit ++ text.drop width)

variable {width n : ℕ}

theorem digitChar_spec {d : ℕ} (h : d < 10) :
    (Nat.digitChar d).isDigit = true ∧ (Nat.digitChar d).toNat - '0'.toNat = d := by
  have hall : ∀ e ∈ List.range 10, (Nat.digitChar e).isDigit = true ∧
      (Nat.digitChar e).toNat - '0'.toNat = e := by
    decide
  exact hall d (List.mem_range.mpr h)

theorem lt_ten_of_mem_padded {d : ℕ}
    (h : d ∈ Nat.digits 10 n ++ List.replicate (width - (Nat.digits 10 n).length) 0) : d < 10 := by
  rcases List.mem_append.mp h with h | h
  · exact Nat.digits_lt_base (by decide) h
  · rw [List.eq_of_mem_replicate h]
    decide

theorem isDigit_of_mem_paddedDigits {c : Char} (h : c ∈ paddedDigits width n) :
    c.isDigit = true := by
  obtain ⟨d, hd, rfl⟩ := List.mem_map.mp h
  exact (digitChar_spec (lt_ten_of_mem_padded (List.mem_reverse.mp hd))).1

theorem decimalValue_paddedDigits (width n : ℕ) : decimalValue (paddedDigits width n) = n := by
  have hfold : ∀ ds : List ℕ, (∀ d ∈ ds, d < 10) →
      (ds.map Nat.digitChar).foldr (fun c v => c.toNat - '0'.toNat + 10 * v) 0 =
        Nat.ofDigits 10 ds := by
    intro ds hds
    induction ds with
    | nil => rfl
    | cons d ds ih =>
      rw [List.map_cons, List.foldr_cons, ih fun e he => hds e (List.mem_cons_of_mem d he),
        (digitChar_spec (hds d List.mem_cons_self)).2, Nat.ofDigits_cons]
  rw [decimalValue, paddedDigits, List.map_reverse, List.foldl_reverse, hfold _ fun d =>
    lt_ten_of_mem_padded, Nat.ofDigits_append_replicate_zero, Nat.ofDigits_digits]

theorem length_paddedDigits (width n : ℕ) :
    (paddedDigits width n).length = max width (Nat.digits 10 n).length := by
  simp only [paddedDigits, List.length_map, List.length_reverse, List.length_append,
    List.length_replicate]
  omega

/-- No more digits are printed than the width iff the number has no more. -/
theorem length_paddedDigits_le_iff : (paddedDigits width n).length ≤ width ↔ n < 10 ^ width := by
  rw [length_paddedDigits, max_le_iff, Nat.digits_length_le_iff (by decide)]
  exact and_iff_right le_rfl

theorem acceptSign_of_isDigit {c : Char} (h : c.isDigit = true) (text : List Char) :
    acceptSign (c :: text) = (1, c :: text) := by
  unfold acceptSign
  split
  next heq => exact absurd ((List.cons.inj heq).1 ▸ h) (by decide)
  next heq => exact absurd ((List.cons.inj heq).1 ▸ h) (by decide)
  next => rfl

/-- Of a text that starts with digits, the width's first ones are scanned. -/
theorem scanInt_digits {digits : List Char} (hdigits : ∀ c ∈ digits, c.isDigit = true)
    (hpos : 0 < width) (hlen : width ≤ digits.length) (rest : List Char) :
    scanInt width (digits ++ rest) =
      some ((decimalValue (digits.take width) : ℤ), digits.drop width ++ rest) := by
  have hwindow : ∀ c ∈ digits.take width, c.isDigit = true :=
    fun c hc => hdigits c (List.mem_of_mem_take hc)
  have hall : (digits.take width).takeWhile Char.isDigit = digits.take width :=
    List.takeWhile_eq_self_iff.mpr hwindow
  have hnone : (digits.take width).dropWhile Char.isDigit = [] :=
    List.dropWhile_eq_nil_iff.mpr hwindow
  have hne : digits.take width ≠ [] := by
    intro hnil
    have := congrArg List.length hnil
    rw [List.length_take, List.length_nil] at this
    omega
  have hsign : acceptSign (digits.take width) = (1, digits.take width) := by
    obtain ⟨c, window, hw⟩ := List.exists_cons_of_ne_nil hne
    rw [hw]
    exact acceptSign_of_isDigit (hwindow c (hw ▸ List.mem_cons_self)) window
  rw [scanInt, List.take_append_of_le_length hlen, List.drop_append_of_le_length hlen, hsign]
  dsimp only
  rw [hall, hnone, if_neg hne, one_mul, List.nil_append]

end KvStore.Codec
