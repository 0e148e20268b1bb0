import Mathlib.Order.Compare
import Mathlib.Order.Defs.LinearOrder
import RankOne.Proofs.Packing
import RankOne.Term.Order

/-! The canonical order of terms read off their words. The fields of a word stand in the order in
which the values of terms are compared, the most significant one on top; only visibilities run
the other way. So terms are ordered as the numbers that their words are once the bits of the
visibility are complemented, and the order is total. -/
namespace RankOne.Term

/-! ## Words as numbers -/

/-- The word of a term with the three bits of its visibility complemented. -/
def orderWord (t : Term) : UInt64 := t.word ^^^ (7 : UInt64) <<< 61

/-- Numbers of two digits are compared by the higher digit first. -/
theorem compare_twoDigits {base low low' : Nat} (h : low < base) (h' : low' < base)
    (high high' : Nat) :
    compare (low + base * high) (low' + base * high') =
      (compare high high').then (compare low low') := by
  rcases Nat.lt_trichotomy high high' with hlt | rfl | hgt
  · have hstep : base * high + base ≤ base * high' := Nat.mul_le_mul_left base hlt
    rw [Nat.compare_eq_lt.mpr hlt, Nat.compare_eq_lt.mpr (by omega)]
    rfl
  · have hlow : compare (low + base * high) (low' + base * high) = compare low low' := by
      simp only [Nat.compare_eq_ite_lt, Nat.add_lt_add_iff_right]
    rw [hlow, Nat.compare_eq_eq.mpr rfl]
    rfl
  · have hstep : base * high' + base ≤ base * high := Nat.mul_le_mul_left base hgt
    rw [Nat.compare_eq_gt.mpr hgt, Nat.compare_eq_gt.mpr (by omega)]
    rfl

/-- Counting from above turns a comparison around. -/
theorem compare_sub {bound m n : Nat} (hm : m ≤ bound) (hn : n ≤ bound) :
    compare (bound - m) (bound - n) = compare n m := by
  rcases Nat.lt_trichotomy n m with hlt | rfl | hgt
  · rw [Nat.compare_eq_lt.mpr hlt, Nat.compare_eq_lt.mpr (by omega)]
  · rw [Nat.compare_eq_eq.mpr rfl, Nat.compare_eq_eq.mpr rfl]
  · rw [Nat.compare_eq_gt.mpr hgt, Nat.compare_eq_gt.mpr (by omega)]

/-- Complementing the highest three bits keeps the others, and counts the highest from above. -/
theorem toNat_xor_highBits (word : UInt64) :
    (word ^^^ (7 : UInt64) <<< 61).toNat = word.toNat % 2 ^ 61 + 2 ^ 61 * (7 - word.toNat / 2 ^ 61) := by
  have hmask : ((7 : UInt64) <<< 61).toNat = 7 * 2 ^ 61 := by decide
  have hlow : (word.toNat ^^^ 7 * 2 ^ 61) % 2 ^ 61 = word.toNat % 2 ^ 61 := by
    rw [Nat.xor_mod_two_pow, Nat.mul_mod_left, Nat.xor_zero]
  have hcomplement : ∀ high < 8, high ^^^ 7 = 7 - high := by decide +kernel
  have hhigh : (word.toNat ^^^ 7 * 2 ^ 61) / 2 ^ 61 = 7 - word.toNat / 2 ^ 61 := by
    rw [Nat.xor_div_two_pow, Nat.mul_div_cancel _ (Nat.two_pow_pos 61)]
    exact hcomplement _ (by have := word.toNat_lt; omega)
  rw [UInt64.toNat_xor, hmask, ← Nat.mod_add_div (word.toNat ^^^ 7 * 2 ^ 61) (2 ^ 61), hlow, hhigh]

theorem toNat_orderWord (t : Term) :
    t.orderWord.toNat =
      t.coefficientId + 2 ^ 30 * (t.variableId + 2 ^ 31 * (7 - t.visibility.tag)) := by
  have hc : t.coefficientId ≤ 2 ^ 30 - 1 := t.coefficientId_le
  have hv : t.variableId ≤ 2 ^ 31 - 1 := t.variableId_le
  have hword := t.toNat_word
  rw [orderWord, toNat_xor_highBits]
  omega

/-- Terms are ordered as their words are, once the bits of the visibility are complemented. -/
theorem compare_eq_compare_orderWord (a b : Term) :
    compare a b = compare a.orderWord b.orderWord := by
  have hvisibility : compare b.visibility a.visibility =
      compare (7 - a.visibility.tag) (7 - b.visibility.tag) :=
    (compare_sub (a.visibility.tag_le_four.trans (by decide))
      (b.visibility.tag_le_four.trans (by decide))).symm
  have hcoefficient (t : Term) : t.coefficientId < 2 ^ 30 :=
    Nat.lt_of_le_of_lt t.coefficientId_le (by decide)
  have hvariable (t : Term) : t.variableId < 2 ^ 31 :=
    Nat.lt_of_le_of_lt t.variableId_le (by decide)
  calc compare a b
      = (compare b.visibility a.visibility).then
          ((compare a.variableId b.variableId).then
            (compare a.coefficientId b.coefficientId)) := compare_eq_then a b
    _ = (compare (a.variableId + 2 ^ 31 * (7 - a.visibility.tag))
          (b.variableId + 2 ^ 31 * (7 - b.visibility.tag))).then
            (compare a.coefficientId b.coefficientId) := by
        rw [compare_twoDigits (hvariable a) (hvariable b), hvisibility, Ordering.then_assoc]
    _ = compare a.orderWord b.orderWord := by
        rw [UInt64.compare_eq_toNat_compare_toNat, toNat_orderWord, toNat_orderWord,
          compare_twoDigits (hcoefficient a) (hcoefficient b)]

/-! ## A total order -/

theorem lt_def {a b : Term} : a < b ↔ compare a b = .lt := Iff.rfl

theorem lt_iff_le_not_ge (a b : Term) : a < b ↔ a ≤ b ∧ ¬ b ≤ a := by
  have hswap : compare b a = (compare a b).swap := Std.OrientedCmp.eq_swap
  rw [lt_def, le_def, le_def, hswap]
  cases compare a b <;> decide

theorem compare_eq_eq_iff {a b : Term} : compare a b = .eq ↔ a = b :=
  Std.LawfulEqCmp.compare_eq_iff_eq

instance : LinearOrder Term where
  le_refl := le_refl
  le_trans _ _ _ := le_trans
  le_antisymm _ _ := le_antisymm
  le_total := le_total
  lt_iff_le_not_ge := lt_iff_le_not_ge
  toDecidableLE := inferInstance
  toDecidableEq := inferInstance
  toDecidableLT := inferInstance
  compare_eq_compareOfLessAndEq a b := by
    unfold compareOfLessAndEq
    split
    next hlt => exact lt_def.mp hlt
    next hnot =>
      split
      next heq => exact compare_eq_eq_iff.mpr heq
      next hne =>
        cases h : compare a b with
        | lt => exact absurd h hnot
        | eq => exact absurd (compare_eq_eq_iff.mp h) hne
        | gt => rfl

theorem le_iff_compare_ne_gt {a b : Term} : a ≤ b ↔ compare a b ≠ .gt := by
  rw [le_def]
  cases compare a b <;> decide

theorem partialCompare_eq_some_iff {a b : Term} {o : Ordering} :
    partialCompare a b = some o ↔ o.Compares a b := by
  rw [← compare_iff, partialCompare, Option.some.injEq]

theorem min_eq_ite_compare (a b : Term) : min a b = if compare a b = .gt then b else a := by
  rw [min_def]
  by_cases h : compare a b = .gt <;> simp [le_iff_compare_ne_gt, h]

theorem max_eq_ite_compare (a b : Term) : max a b = if compare a b = .gt then a else b := by
  rw [max_def]
  by_cases h : compare a b = .gt <;> simp [le_iff_compare_ne_gt, h]

/-- The canonical order is the order of the words as unsigned numbers, once their highest three
bits are complemented. So it is total, only equal words tie, and the other ways to compare two
terms all agree with it. -/
theorem compare_agrees_with_words :
    (∀ a b : Term,
      compare a b = compare (a.word ^^^ (7 : UInt64) <<< 61) (b.word ^^^ (7 : UInt64) <<< 61)) ∧
    (∀ a b : Term,
      (compare a b = .eq ↔ a.word = b.word) ∧ compare b a = (compare a b).swap ∧
      (a ≠ b → compare a b = .lt ∨ compare b a = .lt)) ∧
    (∀ a b c : Term,
      (compare a b ≠ .gt → compare b c ≠ .gt → compare a c ≠ .gt) ∧
      (compare a b = .lt → compare b c = .lt → compare a c = .lt)) ∧
    (∀ (a b : Term) (o : Ordering),
      (compare a b = o ↔ o.Compares a b) ∧ (partialCompare a b = some o ↔ o.Compares a b)) ∧
    (∀ a b : Term,
      ((a == b) = true ↔ compare a b = .eq) ∧ (a ≤ b ↔ compare a b ≠ .gt) ∧
      min a b = (if compare a b = .gt then b else a) ∧
      max a b = (if compare a b = .gt then a else b)) := by
  refine ⟨compare_eq_compare_orderWord, fun a b => ⟨?_, Std.OrientedCmp.eq_swap, ?_⟩,
    fun a b c => ⟨?_, ?_⟩, fun a b o => ⟨compare_iff a b, partialCompare_eq_some_iff⟩,
    fun a b => ⟨?_, le_iff_compare_ne_gt, min_eq_ite_compare a b, max_eq_ite_compare a b⟩⟩
  · rw [compare_eq_eq_iff]
    exact ⟨congrArg word, Term.ext⟩
  · intro hne
    exact lt_or_gt_of_ne hne
  · intro hab hbc
    rw [← le_iff_compare_ne_gt] at hab hbc ⊢
    exact le_trans hab hbc
  · intro hab hbc
    exact lt_trans (lt_def.mpr hab) (lt_def.mpr hbc)
  · rw [beq_iff_eq, compare_eq_eq_iff]

/-- A public, a secret and an internal term, in this order although the ids of their variables
and coefficients run the other way. -/
theorem compare_agrees_with_words_sample :
    let a : Term := .ofValues 9 8 .public (by decide) (by decide)
    let b : Term := .ofValues 5 4 .secret (by decide) (by decide)
    let c : Term := .ofValues 1 0 .internal (by decide) (by decide)
    a ≠ c ∧ compare a b = .lt ∧ compare b c = .lt ∧ compare a c = .lt := by
  intro a b c
  have hne : a ≠ c := by decide
  have hab : compare a b = .lt := by decide
  have hbc : compare b c = .lt := by decide
  exact ⟨hne, hab, hbc, (compare_agrees_with_words.2.2.1 a b c).2 hab hbc⟩

end RankOne.Term
