import BaseLang.Text.Decimal

/-
  The values of numerals.

  A run of digits with no sign is read by its value, however many zeros lead it:
  `int32?_digits`. It is read exactly when that value is no more than the greatest one of
  32 bits: `int32?_isSome_iff`.
-/

namespace BaseLang.Decimal

theorem natural?_digits {cs : List Char} (hne : cs ≠ []) (hdigits : cs.all Char.isDigit = true) :
    natural? cs = some (Nat.ofDigitChars 10 cs 0) := by
  rw [natural?, if_neg]
  simp [hne, hdigits]

theorem int32?_digits {cs : List Char} (hne : cs ≠ []) (hdigits : cs.all Char.isDigit = true) :
    int32? cs = fit? (Nat.ofDigitChars 10 cs 0 : Nat) := by
  unfold int32?
  split
  · exact absurd (List.all_eq_true.1 hdigits '-' List.mem_cons_self) (by decide)
  · exact absurd (List.all_eq_true.1 hdigits '+' List.mem_cons_self) (by decide)
  · rw [natural?_digits hne hdigits]
    rfl

theorem fit?_isSome_iff (n : Nat) : (fit? (n : Nat)).isSome ↔ n ≤ 2147483647 := by
  have hmin : Int32.minValue.toInt = -2147483648 := rfl
  have hmax : Int32.maxValue.toInt = 2147483647 := rfl
  rw [fit?, hmin, hmax]
  split
  · next h => exact ⟨fun _ => by omega, fun _ => rfl⟩
  · next h => exact ⟨fun hsome => absurd hsome Bool.false_ne_true, fun hle => absurd ⟨by omega, by omega⟩ h⟩

theorem int32?_isSome_iff {cs : List Char} (hne : cs ≠ []) (hdigits : cs.all Char.isDigit = true) :
    (int32? cs).isSome ↔ Nat.ofDigitChars 10 cs 0 ≤ 2147483647 := by
  rw [int32?_digits hne hdigits, fit?_isSome_iff]

end BaseLang.Decimal
