/-
  Decimal numerals: reading and writing whole numbers.

  An integer of the language has 32 bits. A numeral is read with an optional
  sign and any number of leading zeros, and refused when its value does not
  fit; it is written with no sign unless negative and with no leading zeros.
  `int32?_signed` says that what is written reads back.
-/

namespace BaseLang.Decimal

/-- The value of a run of decimal digits; `none` if it is empty or holds
anything else. -/
def natural? (cs : List Char) : Option Nat :=
  if cs.isEmpty || !cs.all Char.isDigit then none else some (Nat.ofDigitChars 10 cs 0)

/-- The 32-bit integer of that value, if there is one. -/
def fit? (v : Int) : Option Int32 :=
  if Int32.minValue.toInt ≤ v ∧ v ≤ Int32.maxValue.toInt then some (Int32.ofInt v) else none

/-- Reads a 32-bit integer: an optional sign, then at least one digit, with a
value in range. -/
def int32? : List Char → Option Int32
  | '-' :: digits => (natural? digits).bind fun n => fit? (-n)
  | '+' :: digits => (natural? digits).bind fun n => fit? n
  | digits => (natural? digits).bind fun n => fit? n

/-- The shortest numeral of a natural number. -/
def natural (n : Nat) : List Char := Nat.toDigits 10 n

/-- The shortest numeral of an integer, signed only when negative. -/
def signed (v : Int) : List Char :=
  if v < 0 then '-' :: natural v.natAbs else natural v.natAbs

/-- A numeral holds digits only. -/
theorem isDigit_of_mem_natural {n : Nat} {c : Char} (h : c ∈ natural n) : c.isDigit = true :=
  Nat.isDigit_of_mem_toDigits (by decide) (by decide) h

theorem natural_ne_nil (n : Nat) : natural n ≠ [] := by
  rw [natural, Nat.toDigits_eq_if (by decide)]
  split <;> simp

theorem natural?_natural (n : Nat) : natural? (natural n) = some n := by
  have hd : (natural n).all Char.isDigit = true :=
    List.all_eq_true.2 fun c hc => isDigit_of_mem_natural hc
  have hv : Nat.ofDigitChars 10 (natural n) 0 = n :=
    Nat.ofDigitChars_toDigits (by decide) (by decide)
  simp only [natural?, List.isEmpty_eq_false_iff.2 (natural_ne_nil n), hd, hv, Bool.not_true,
    Bool.or_false, Bool.false_eq_true, if_false]

theorem fit?_toInt (v : Int32) : fit? v.toInt = some v := by
  rw [fit?, if_pos ⟨v.minValue_le_toInt, v.toInt_le⟩, Int32.ofInt_toInt]

/-- A numeral of digits alone is read by its value. -/
theorem int32?_natural (n : Nat) : int32? (natural n) = fit? n := by
  unfold int32?
  split
  · next h => exact absurd (isDigit_of_mem_natural (n := n) (c := '-') (by simp [h])) (by decide)
  · next h => exact absurd (isDigit_of_mem_natural (n := n) (c := '+') (by simp [h])) (by decide)
  · simp [natural?_natural]

/-- Every 32-bit integer reads back from its written form. -/
theorem int32?_signed (v : Int32) : int32? (signed v.toInt) = some v := by
  unfold signed
  split
  · next h =>
    have : -((v.toInt.natAbs : Nat) : Int) = v.toInt := by omega
    rw [int32?, natural?_natural]
    show fit? (-((v.toInt.natAbs : Nat) : Int)) = some v
    rw [this, fit?_toInt]
  · next h =>
    have : ((v.toInt.natAbs : Nat) : Int) = v.toInt := by omega
    rw [int32?_natural, this, fit?_toInt]

end BaseLang.Decimal
