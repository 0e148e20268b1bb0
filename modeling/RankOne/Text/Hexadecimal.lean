/-! Numbers as a fixed count of lower-case hexadecimal digits. The digits read back
as the number wherever their count suffices for it. -/
namespace RankOne.Text.Hexadecimal

/-- The lowest `width` digits of a number, most significant first, with leading zeros kept. -/
def digits : Nat → Nat → List Char
  | 0, _ => []
  | width + 1, n => digits width (n / 16) ++ [Nat.digitChar (n % 16)]

/-- The value of a digit `0` to `9` or `a` to `f`. -/
def digitValue (c : Char) : Nat :=
  if c.isDigit then c.toNat - '0'.toNat else c.toNat - 'a'.toNat + 10

/-- The number that digits stand for, most significant first. -/
def value (text : List Char) : Nat := text.foldl (fun n c => 16 * n + digitValue c) 0

theorem length_digits (width n : Nat) : (digits width n).length = width := by
  induction width generalizing n with
  | zero => rfl
  | succ width ih => simp [digits, ih]

theorem digitValue_digitChar {d : Nat} (h : d < 16) : digitValue (Nat.digitChar d) = d := by
  have : ∀ d : Fin 16, digitValue (Nat.digitChar d) = d := by decide
  exact this ⟨d, h⟩

theorem value_digits {width n : Nat} (h : n < 1 <<< (4 * width)) : value (digits width n) = n := by
  induction width generalizing n with
  | zero =>
    have : n = 0 := by simpa using h
    simp [digits, value, this]
  | succ width ih =>
    have hq : n / 16 < 1 <<< (4 * width) := by
      rw [Nat.mul_succ, Nat.shiftLeft_add, Nat.shiftLeft_eq _ 4] at h
      omega
    have hv : value (digits (width + 1) n) =
        16 * value (digits width (n / 16)) + digitValue (Nat.digitChar (n % 16)) := by
      simp [digits, value]
    rw [hv, ih hq, digitValue_digitChar (Nat.mod_lt _ (by decide))]
    omega

end RankOne.Text.Hexadecimal
