import RankOne.Term.Basic

/-! The canonical order of terms: visibilities of high priority first, then lower
variable ids, then lower coefficient ids. It is a total order in which only equal
terms tie. -/
namespace RankOne

namespace Visibility

instance : Std.TransOrd Visibility :=
  inferInstanceAs (Std.TransCmp (compareOn tag))

instance : Std.LawfulEqOrd Visibility where
  eq_of_compare h := tag_injective (Nat.compare_eq_eq.1 h)

end Visibility

namespace Term

instance : Ord Term where
  compare a b :=
    (compare b.visibility a.visibility).then
      ((compare a.variableId b.variableId).then (compare a.coefficientId b.coefficientId))

/-- Comparison where terms might be incomparable, which they never are. -/
def partialCompare (a b : Term) : Option Ordering := some (compare a b)

instance : LE Term := leOfOrd
instance : LT Term := ltOfOrd
instance : Min Term := minOfLe
instance : Max Term := maxOfLe

instance : Std.TransOrd Term :=
  have : Std.TransCmp fun a b : Term => compareOn visibility b a := Std.TransCmp.opposite
  inferInstanceAs (Std.TransCmp (compareLex (fun a b : Term => compareOn visibility b a)
    (compareLex (compareOn variableId) (compareOn coefficientId))))

instance : Std.LawfulEqOrd Term where
  eq_of_compare {a b} h := by
    obtain ⟨hw, h⟩ := Ordering.then_eq_eq.1 h
    obtain ⟨hv, hc⟩ := Ordering.then_eq_eq.1 h
    exact eq_of_values (Nat.compare_eq_eq.1 hc) (Nat.compare_eq_eq.1 hv)
      (Std.LawfulEqOrd.eq_of_compare hw).symm

theorem compare_eq_then (a b : Term) :
    compare a b = (compare b.visibility a.visibility).then
      ((compare a.variableId b.variableId).then (compare a.coefficientId b.coefficientId)) := rfl

theorem le_def {a b : Term} : a ≤ b ↔ (compare a b).isLE = true := Iff.rfl

theorem le_refl (a : Term) : a ≤ a := Std.ReflCmp.isLE_rfl

theorem le_trans {a b c : Term} (hab : a ≤ b) (hbc : b ≤ c) : a ≤ c :=
  Std.TransCmp.isLE_trans hab hbc

theorem le_antisymm {a b : Term} (hab : a ≤ b) (hba : b ≤ a) : a = b :=
  Std.LawfulEqOrd.eq_of_compare (Std.OrientedCmp.isLE_antisymm hab hba)

theorem le_total (a b : Term) : a ≤ b ∨ b ≤ a := by
  have h : compare a b = (compare b a).swap := Std.OrientedCmp.eq_swap
  rw [le_def, le_def, h]
  cases compare b a <;> simp

end Term
end RankOne
