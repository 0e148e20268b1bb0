import Mathlib.Data.Bool.AllAny
import RankOne.Hint
import RankOne.Proofs.TermOrder

/-! Hexadecimal texts of one width. Since leading zeros are kept and the characters of the digits
ascend with their values, such texts are ordered as the numbers that they stand for. So are the
texts of hint ids, which all have eight digits behind the same mark. -/
namespace RankOne

/-- A common beginning does not decide the order of two lists. -/
theorem compareLex_append_left {α : Type} {cmp : α → α → Ordering} [Std.ReflCmp cmp]
    (common xs ys : List α) :
    List.compareLex cmp (common ++ xs) (common ++ ys) = List.compareLex cmp xs ys := by
  induction common with
  | nil => rfl
  | cons c common ih =>
    have hself : cmp c c = .eq := Std.ReflCmp.compare_self
    rw [List.cons_append, List.cons_append, List.compareLex_cons_cons, hself, ih]
    rfl

namespace Text.Hexadecimal

/-- The digits, from the least to the greatest. -/
def alphabet : List Char :=
  ['0', '1', '2', '3', '4', '5', '6', '7', '8', '9', 'a', 'b', 'c', 'd', 'e', 'f']

/-- The number with one more digit behind its own ones. -/
def appendDigit (n : Nat) (c : Char) : Nat := 16 * n + digitValue c

theorem value_eq_foldl (text : List Char) : value text = text.foldl appendDigit 0 := rfl

theorem digitChar_mem_alphabet {d : Nat} (h : d < 16) : Nat.digitChar d ∈ alphabet := by
  have hall : ∀ d : Fin 16, Nat.digitChar d ∈ alphabet := by decide
  exact hall ⟨d, h⟩

theorem mem_alphabet_of_mem_digits {width n : Nat} {c : Char} (h : c ∈ digits width n) :
    c ∈ alphabet := by
  induction width generalizing n with
  | zero => cases h
  | succ width ih =>
    rcases List.mem_append.mp h with h | h
    · exact ih h
    · rw [List.mem_singleton.mp h]
      exact digitChar_mem_alphabet (Nat.mod_lt n (by decide))

/-! ## Order -/

/-- The characters of the digits ascend with their values, with one gap between `9` and `a`. -/
theorem toNat_of_mem_alphabet {c : Char} (h : c ∈ alphabet) :
    digitValue c < 10 ∧ c.toNat = digitValue c + 48 ∨
      10 ≤ digitValue c ∧ digitValue c < 16 ∧ c.toNat = digitValue c + 87 := by
  have hall : ∀ c ∈ alphabet, digitValue c < 10 ∧ c.toNat = digitValue c + 48 ∨
      10 ≤ digitValue c ∧ digitValue c < 16 ∧ c.toNat = digitValue c + 87 :=
    List.all_iff_forall_prop.mp (by decide)
  exact hall c h

theorem digitValue_lt {c : Char} (h : c ∈ alphabet) : digitValue c < 16 := by
  have hc := toNat_of_mem_alphabet h
  omega

theorem compare_digitValue {c d : Char} (hc : c ∈ alphabet) (hd : d ∈ alphabet) :
    compare (digitValue c) (digitValue d) = compare c.toNat d.toNat := by
  have hcharC := toNat_of_mem_alphabet hc
  have hcharD := toNat_of_mem_alphabet hd
  have hlt : digitValue c < digitValue d ↔ c.toNat < d.toNat := by omega
  have hgt : digitValue d < digitValue c ↔ d.toNat < c.toNat := by omega
  simp only [Nat.compare_eq_ite_lt, hlt, hgt]

/-- The last digits decide only between numbers that are equal without them. -/
theorem compare_appendDigit {c d : Char} (hc : c ∈ alphabet) (hd : d ∈ alphabet) (m n : Nat) :
    compare (appendDigit m c) (appendDigit n d) =
      (compare m n).then (compare c.toNat d.toNat) := by
  rw [appendDigit, appendDigit, Nat.add_comm (16 * m), Nat.add_comm (16 * n),
    Term.compare_twoDigits (digitValue_lt hc) (digitValue_lt hd), compare_digitValue hc hd]

/-- Digits that are read behind others decide only between numbers that are equal so far. -/
theorem compare_foldl_appendDigit {xs ys : List Char} (hlength : xs.length = ys.length)
    (hxs : ∀ c ∈ xs, c ∈ alphabet) (hys : ∀ d ∈ ys, d ∈ alphabet) (m n : Nat) :
    compare (xs.foldl appendDigit m) (ys.foldl appendDigit n) =
      (compare m n).then (List.compareLex (compareOn Char.toNat) xs ys) := by
  -- What was read so far is arbitrary, so that the next digits can be moved into it.
  induction xs generalizing ys m n with
  | nil =>
    obtain rfl := List.eq_nil_of_length_eq_zero hlength.symm
    exact Ordering.then_eq.symm
  | cons c xs ih =>
    cases ys with
    | nil => simp at hlength
    | cons d ys =>
      obtain ⟨hc, hxs⟩ := List.forall_mem_cons.mp hxs
      obtain ⟨hd, hys⟩ := List.forall_mem_cons.mp hys
      calc compare ((c :: xs).foldl appendDigit m) ((d :: ys).foldl appendDigit n)
          = (compare (appendDigit m c) (appendDigit n d)).then
              (List.compareLex (compareOn Char.toNat) xs ys) :=
            ih (Nat.succ.inj hlength) hxs hys _ _
        _ = ((compare m n).then (compare c.toNat d.toNat)).then
              (List.compareLex (compareOn Char.toNat) xs ys) := by
            rw [compare_appendDigit hc hd]
        _ = (compare m n).then (List.compareLex (compareOn Char.toNat) (c :: xs) (d :: ys)) := by
            rw [Ordering.then_assoc, List.compareLex_cons_cons, compareOn]

/-- Texts of one width are ordered as their values. -/
theorem compareLex_eq_compare_value {xs ys : List Char} (hlength : xs.length = ys.length)
    (hxs : ∀ c ∈ xs, c ∈ alphabet) (hys : ∀ d ∈ ys, d ∈ alphabet) :
    List.compareLex (compareOn Char.toNat) xs ys = compare (value xs) (value ys) := by
  rw [value_eq_foldl, value_eq_foldl, compare_foldl_appendDigit hlength hxs hys]
  rfl

end Text.Hexadecimal

/-! ## Texts of hint ids -/

namespace HintId

open Text.Hexadecimal

theorem toList_text (id : HintId) :
    id.text.toList = "hint#".toList ++ digits 8 id.code.toNat := by
  simp [text]

/-- Eight digits suffice for every id. -/
theorem value_digits_code (id : HintId) : value (digits 8 id.code.toNat) = id.code.toNat :=
  value_digits id.code.toNat_lt

theorem compare_eq_compare_toNat (a b : HintId) :
    compare a b = compare a.code.toNat b.code.toNat :=
  UInt32.compare_eq_toNat_compare_toNat a.code b.code

theorem compareLex_text (a b : HintId) :
    List.compareLex (compareOn Char.toNat) a.text.toList b.text.toList = compare a b := by
  have hlength : (digits 8 a.code.toNat).length = (digits 8 b.code.toNat).length := by
    rw [length_digits, length_digits]
  rw [toList_text, toList_text, compareLex_append_left,
    compareLex_eq_compare_value hlength (fun _ => mem_alphabet_of_mem_digits)
      (fun _ => mem_alphabet_of_mem_digits),
    value_digits_code, value_digits_code, compare_eq_compare_toNat]

theorem text_injective {a b : HintId} (h : a.text = b.text) : a = b := by
  have hdigits : digits 8 a.code.toNat = digits 8 b.code.toNat := by
    have hlist := congrArg String.toList h
    rw [toList_text, toList_text] at hlist
    exact List.append_cancel_left hlist
  have hcode : a.code.toNat = b.code.toNat := by
    rw [← value_digits_code a, hdigits, value_digits_code]
  exact HintId.ext (UInt32.toNat_inj.mp hcode)

/-- The text of an id has exactly eight digits, which stand for the id. So the texts are ordered
as the ids, and different ids have different texts. -/
theorem text_orders_ids :
    (∀ id : HintId, ∃ number : List Char,
      id.text = "hint#" ++ String.ofList number ∧ number.length = 8 ∧
        (∀ c ∈ number, c ∈ alphabet) ∧ value number = id.code.toNat) ∧
    (∀ a b : HintId,
      List.compareLex (compareOn Char.toNat) a.text.toList b.text.toList = compare a b) ∧
    (∀ a b : HintId, a.text = b.text ↔ a = b) := by
  refine ⟨fun id => ?_, compareLex_text, fun a b => ⟨text_injective, congrArg HintId.text⟩⟩
  exact ⟨digits 8 id.code.toNat, rfl, length_digits 8 _, fun _ => mem_alphabet_of_mem_digits,
    value_digits_code id⟩

end HintId
end RankOne
