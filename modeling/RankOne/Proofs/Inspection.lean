import RankOne.Constraint
import RankOne.Hint
import RankOne.Proofs.BufferedText
import RankOne.Text.Decimal

/-! Inspecting a value writes down all of it. At every level of nesting the text of a value shows by
itself where it ends, so a text can be taken apart into the texts that it was put together from, and
different values have different texts. -/
namespace RankOne

/-- No text begins the text of another value, so what follows a text cannot be taken for a part
of it. -/
def PrefixFree {α : Type} (write : α → String) : Prop :=
  ∀ ⦃x y : α⦄ ⦃rest rest' : List Char⦄,
    (write x).toList ++ rest = (write y).toList ++ rest' → x = y ∧ rest = rest'

theorem PrefixFree.text_eq_iff {α : Type} {write : α → String} (h : PrefixFree write) (x y : α) :
    write x = write y ↔ x = y := by
  constructor
  · intro htext
    have happend : (write x).toList ++ [] = (write y).toList ++ [] := by rw [htext]
    exact (h happend).1
  · rintro rfl
    rfl

/-! ## Numbers and lists -/

/-- A number ends where a character that is no digit follows. -/
theorem natural_append_inj {m n : Nat} {stop : Char} {rest rest' : List Char}
    (hstop : stop.isDigit = false)
    (h : (toString m).toList ++ stop :: rest = (toString n).toList ++ stop :: rest') :
    m = n ∧ rest = rest' := by
  -- Both numbers are the longest run of digits that the same text begins with.
  have hdigits (k : Nat) (tail : List Char) :
      ((toString k).toList ++ stop :: tail).takeWhile Char.isDigit = (toString k).toList := by
    have hall : ∀ c ∈ (toString k).toList, c.isDigit = true :=
      fun _ => Text.Decimal.isDigit_of_mem_repr
    rw [List.takeWhile_append_of_pos hall, List.takeWhile_cons_of_neg (by simp [hstop]),
      List.append_nil]
  have htext : (toString m).toList = (toString n).toList := by
    rw [← hdigits m rest, h, hdigits]
  obtain rfl : m = n := Option.some.inj <| calc
    some m = Text.Decimal.natural? (toString m).toList := (Text.Decimal.natural?_repr m).symm
    _ = Text.Decimal.natural? (toString n).toList := by rw [htext]
    _ = some n := Text.Decimal.natural?_repr n
  exact ⟨rfl, (List.cons.inj (List.append_cancel_left h)).2⟩

section

variable {α : Type} {write : α → String}

theorem toList_intercalate_cons (x : α) (xs : List α) :
    (", ".intercalate ((x :: xs).map write)).toList =
      (write x).toList ++ xs.flatMap fun y => ", ".toList ++ (write y).toList := by
  rw [List.map_cons, intercalate_cons_eq_append_join, String.toList_append, String.toList_join,
    List.map_map, List.flatMap_map]
  simp only [Function.comp_apply, String.toList_append]

/-- Elements with a comma in front of each are over where a bracket follows. -/
theorem PrefixFree.followers_append_inj (h : PrefixFree write) {xs ys : List α}
    {rest rest' : List Char}
    (heq : (xs.flatMap fun x => ", ".toList ++ (write x).toList) ++ ']' :: rest =
      (ys.flatMap fun y => ", ".toList ++ (write y).toList) ++ ']' :: rest') :
    xs = ys ∧ rest = rest' := by
  induction xs generalizing ys with
  | nil =>
    cases ys with
    | nil => exact ⟨rfl, (List.cons.inj heq).2⟩
    | cons y ys => simp at heq -- a comma is not the bracket
  | cons x xs ih =>
    cases ys with
    | nil => simp at heq
    | cons y ys =>
      simp only [List.flatMap_cons, List.append_assoc] at heq
      obtain ⟨rfl, htail⟩ := h (List.append_cancel_left heq)
      obtain ⟨rfl, hrest⟩ := ih htail
      exact ⟨rfl, hrest⟩

/-- A list is over at the closing bracket. No element begins with one, so the empty list is not
mistaken for another. -/
theorem PrefixFree.intercalate_append_inj (h : PrefixFree write) {first : Char}
    (hfirst : ∀ x, (write x).toList.head? = some first) (hne : first ≠ ']') {xs ys : List α}
    {rest rest' : List Char}
    (heq : (", ".intercalate (xs.map write)).toList ++ ']' :: rest =
      (", ".intercalate (ys.map write)).toList ++ ']' :: rest') :
    xs = ys ∧ rest = rest' := by
  have hopen (x : α) (tail tail' : List Char) : (write x).toList ++ tail ≠ ']' :: tail' := by
    intro htail
    have hhead := congrArg List.head? htail
    rw [List.head?_append, hfirst x] at hhead
    exact hne (Option.some.inj hhead)
  cases xs with
  | nil =>
    cases ys with
    | nil => exact ⟨rfl, (List.cons.inj heq).2⟩
    | cons y ys =>
      rw [toList_intercalate_cons, List.append_assoc] at heq
      exact absurd heq.symm (hopen y _ _)
  | cons x xs =>
    cases ys with
    | nil =>
      rw [toList_intercalate_cons, List.append_assoc] at heq
      exact absurd heq (hopen x _ _)
    | cons y ys =>
      simp only [toList_intercalate_cons, List.append_assoc] at heq
      obtain ⟨rfl, htail⟩ := h heq
      obtain ⟨rfl, hrest⟩ := h.followers_append_inj htail
      exact ⟨rfl, hrest⟩

end

/-! ## Terms and combinations -/

theorem Term.toList_inspect (t : Term) :
    t.inspect.toList = "Term(c".toList ++ ((toString t.coefficientId).toList ++
      '*' :: t.visibility.letter :: ((toString t.variableId).toList ++ [')'])) := by
  unfold inspect
  simp

theorem Term.prefixFree_inspect : PrefixFree Term.inspect := by
  intro s t rest rest' h
  simp only [toList_inspect, List.append_assoc, List.cons_append] at h
  obtain ⟨hcoefficient, h⟩ := natural_append_inj (by decide) (List.append_cancel_left h)
  obtain ⟨hletter, h⟩ := List.cons.inj h
  obtain ⟨hvariable, h⟩ := natural_append_inj (by decide) h
  exact ⟨eq_of_values hcoefficient hvariable (Visibility.letter_injective hletter), h⟩

theorem LinearCombination.toList_inspect (x : LinearCombination) :
    x.inspect.toList = "LinearExpression([".toList ++
      ((", ".intercalate (x.terms.map Term.inspect)).toList ++ [']', ')']) := by
  unfold inspect
  simp

theorem LinearCombination.prefixFree_inspect : PrefixFree LinearCombination.inspect := by
  intro x y rest rest' h
  have hfirst (t : Term) : t.inspect.toList.head? = some 'T' := by simp [Term.toList_inspect]
  simp only [toList_inspect, List.append_assoc, List.cons_append] at h
  obtain ⟨hterms, h⟩ := Term.prefixFree_inspect.intercalate_append_inj hfirst (by decide)
    (List.append_cancel_left h)
  exact ⟨LinearCombination.ext hterms, (List.cons.inj h).2⟩

/-! ## Constraints and hints -/

theorem Constraint.toList_inspect (c : Constraint) :
    c.inspect.toList = "R1C \x7b l: ".toList ++ (c.left.inspect.toList ++ (", r: ".toList ++
      (c.right.inspect.toList ++ (", o: ".toList ++ (c.output.inspect.toList ++
        " \x7d".toList))))) := by
  unfold inspect
  simp only [String.toList_append, List.append_assoc]

theorem Constraint.prefixFree_inspect : PrefixFree Constraint.inspect := by
  intro c d rest rest' h
  simp only [toList_inspect, List.append_assoc] at h
  obtain ⟨hleft, h⟩ := LinearCombination.prefixFree_inspect (List.append_cancel_left h)
  obtain ⟨hright, h⟩ := LinearCombination.prefixFree_inspect (List.append_cancel_left h)
  obtain ⟨houtput, h⟩ := LinearCombination.prefixFree_inspect (List.append_cancel_left h)
  exact ⟨Constraint.ext hleft hright houtput, List.append_cancel_left h⟩

theorem HintId.toList_inspect (id : HintId) :
    id.inspect.toList = "HintId(".toList ++ ((toString id.code.toNat).toList ++ [')']) := by
  unfold inspect
  simp

theorem HintId.prefixFree_inspect : PrefixFree HintId.inspect := by
  intro a b rest rest' h
  simp only [toList_inspect, List.append_assoc, List.cons_append] at h
  obtain ⟨hcode, h⟩ := natural_append_inj (by decide) (List.append_cancel_left h)
  exact ⟨HintId.ext (UInt32.toNat_inj.mp hcode), h⟩

theorem Hint.toList_inspect (h : Hint) :
    h.inspect.toList = "Hint \x7b wire_id: ".toList ++ ((toString h.wire).toList ++
      ',' :: (" id: ".toList ++ (h.id.inspect.toList ++ (", inputs: [".toList ++
        ((", ".intercalate (h.inputs.map LinearCombination.inspect)).toList ++
          ']' :: " \x7d".toList))))) := by
  unfold inspect
  simp

theorem Hint.prefixFree_inspect : PrefixFree Hint.inspect := by
  intro g h rest rest' heq
  have hfirst (x : LinearCombination) : x.inspect.toList.head? = some 'L' := by
    simp [LinearCombination.toList_inspect]
  simp only [toList_inspect, List.append_assoc, List.cons_append] at heq
  obtain ⟨hwire, heq⟩ := natural_append_inj (by decide) (List.append_cancel_left heq)
  obtain ⟨hid, heq⟩ := HintId.prefixFree_inspect (List.append_cancel_left heq)
  obtain ⟨hinputs, heq⟩ := LinearCombination.prefixFree_inspect.intercalate_append_inj hfirst
    (by decide) (List.append_cancel_left heq)
  exact ⟨Hint.ext hwire hid hinputs, List.append_cancel_left heq⟩

/-- Inspection shows the three values of a term, and terms, combinations, constraints and hints
are the same exactly when they look the same. -/
theorem inspect_identifies_values :
    (∀ (c v : Nat) (w : Visibility) (t : Term), Term.pack c v w = .ok t →
      t.inspect = "Term(c" ++ toString c ++ "*" ++ w.letter.toString ++ toString v ++ ")") ∧
    (∀ s t : Term, s.inspect = t.inspect ↔ s = t) ∧
    (∀ x y : LinearCombination, x.inspect = y.inspect ↔ x = y) ∧
    (∀ c d : Constraint, c.inspect = d.inspect ↔ c = d) ∧
    (∀ g h : Hint, g.inspect = h.inspect ↔ g = h) := by
  refine ⟨?_, Term.prefixFree_inspect.text_eq_iff, LinearCombination.prefixFree_inspect.text_eq_iff,
    Constraint.prefixFree_inspect.text_eq_iff, Hint.prefixFree_inspect.text_eq_iff⟩
  intro c v w t ht
  obtain ⟨rfl, rfl, rfl⟩ := Term.pack_eq_ok_iff.mp ht
  rfl

/-- A term whose ids have one digit and two. -/
theorem inspect_identifies_values_sample :
    let t : Term := .ofValues 4 11 .internal (by decide) (by decide)
    Term.pack 4 11 .internal = .ok t ∧ t.inspect = "Term(c4*i11)" := by
  intro t
  have ht : Term.pack 4 11 .internal = .ok t := rfl
  exact ⟨ht, inspect_identifies_values.1 4 11 .internal t ht⟩

end RankOne
