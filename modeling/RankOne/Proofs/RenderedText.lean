import RankOne.Proofs.Traversal
import RankOne.System.Rendering
import RankOne.Text.Decimal

/-! What a rendered text is made of: the pieces that it joins, and the characters that
the pieces can hold. No piece holds a character that separates it from the next. -/
namespace RankOne

theorem lookupCoefficient_eq_ok_iff {coefficients : Array Int} {id : Nat} {value : Int} :
    lookupCoefficient coefficients id = .ok value ↔ coefficients[id]? = some value := by
  unfold lookupCoefficient
  cases coefficients[id]? <;> simp

/-! ## Pieces -/

theorem Term.render_eq_ok_iff {t : Term} {coefficients : Array Int} {text : String} :
    t.render coefficients = .ok text ↔
      ∃ value, coefficients[t.coefficientId]? = some value ∧
        text = toString value ++ "*" ++ t.visibility.letter.toString ++ toString t.variableId := by
  simp only [render, bind_eq_ok_iff, pure_eq_ok_iff, lookupCoefficient_eq_ok_iff]

theorem LinearCombination.render_eq_ok_iff {x : LinearCombination} {coefficients : Array Int}
    {text : String} :
    x.render coefficients = .ok text ↔
      ∃ summands, List.Forall₂ (fun t summand => t.render coefficients = .ok summand)
        x.terms summands ∧ text = " + ".intercalate summands := by
  simp only [render, bind_eq_ok_iff, pure_eq_ok_iff, mapM_eq_ok_iff]

theorem Constraint.render_eq_ok_iff {c : Constraint} {coefficients : Array Int} {text : String} :
    c.render coefficients = .ok text ↔
      ∃ left right output, c.left.render coefficients = .ok left ∧
        c.right.render coefficients = .ok right ∧ c.output.render coefficients = .ok output ∧
        text = "L[" ++ left ++ "] * R[" ++ right ++ "] = O[" ++ output ++ "]" := by
  simp only [render, bind_eq_ok_iff, pure_eq_ok_iff]
  constructor
  · intro h
    obtain ⟨left, hl, right, hr, output, ho, rfl⟩ := h
    exact ⟨left, right, output, hl, hr, ho, rfl⟩
  · intro h
    obtain ⟨left, right, output, hl, hr, ho, rfl⟩ := h
    exact ⟨left, hl, right, hr, output, ho, rfl⟩

theorem System.renderLine_eq_ok_iff {coefficients : Array Int} {index : Nat} {c : Constraint}
    {line : String} :
    renderLine coefficients index c = .ok line ↔
      ∃ text, c.render coefficients = .ok text ∧
        line = "R1C[" ++ toString index ++ "]: " ++ text := by
  simp only [renderLine, bind_eq_ok_iff, pure_eq_ok_iff]

theorem System.render_eq_ok_iff {s : System} {text : String} :
    s.render = .ok text ↔
      ∃ lines, List.Forall₂
        (fun x line => renderLine s.coefficients.values x.2 x.1 = .ok line)
        s.indexedConstraints lines ∧ text = "\n".intercalate lines := by
  simp only [render, bind_eq_ok_iff, pure_eq_ok_iff, mapM_eq_ok_iff]

/-! ## Characters -/

theorem mem_intercalate {separator : List Char} {pieces : List (List Char)} {c : Char}
    (h : c ∈ separator.intercalate pieces) : c ∈ separator ∨ ∃ piece ∈ pieces, c ∈ piece := by
  induction pieces with
  | nil => simp at h
  | cons piece rest ih =>
    cases rest with
    | nil => exact .inr ⟨piece, by simp, by simpa using h⟩
    | cons next rest =>
      rw [List.intercalate_cons_cons, List.mem_append, List.mem_append] at h
      rcases h with (h | h) | h
      · exact .inr ⟨piece, by simp, h⟩
      · exact .inl h
      · rcases ih h with h | ⟨p, hp, hc⟩
        · exact .inl h
        · exact .inr ⟨p, List.mem_cons_of_mem _ hp, hc⟩

/-- A character that the text of a term can hold. -/
def isTermCharacter (c : Char) : Bool := c.isAlphanum || c = '-' || c = '*'

theorem isTermCharacter_of_isDigit {c : Char} (h : c.isDigit = true) :
    isTermCharacter c = true := by
  simp [isTermCharacter, Char.isAlphanum, h]

theorem isTermCharacter_of_mem_natural {n : Nat} {c : Char} (h : c ∈ (toString n).toList) :
    isTermCharacter c = true :=
  isTermCharacter_of_isDigit (Text.Decimal.isDigit_of_mem_repr h)

theorem isDigit_or_eq_minus_of_mem_integer {n : Int} {c : Char} (h : c ∈ (toString n).toList) :
    c.isDigit = true ∨ c = '-' := by
  cases n with
  | ofNat n => exact .inl (Text.Decimal.isDigit_of_mem_repr (n := n) h)
  | negSucc n =>
    have hs : (toString (Int.negSucc n)).toList = '-' :: (n + 1).repr.toList := by
      change (Int.negSucc n).repr.toList = '-' :: (n + 1).repr.toList
      simp [Int.repr]
    rw [hs] at h
    rcases List.mem_cons.mp h with rfl | h
    · exact .inr rfl
    · exact .inl (Text.Decimal.isDigit_of_mem_repr h)

theorem isTermCharacter_of_mem_integer {n : Int} {c : Char} (h : c ∈ (toString n).toList) :
    isTermCharacter c = true := by
  rcases isDigit_or_eq_minus_of_mem_integer h with h | rfl
  · exact isTermCharacter_of_isDigit h
  · decide

theorem Visibility.isTermCharacter_letter (v : Visibility) : isTermCharacter v.letter = true := by
  cases v <;> decide

theorem Term.isTermCharacter_of_render {t : Term} {coefficients : Array Int} {text : String}
    (h : t.render coefficients = .ok text) {c : Char} (hc : c ∈ text.toList) :
    isTermCharacter c = true := by
  obtain ⟨value, _, rfl⟩ := render_eq_ok_iff.mp h
  simp only [String.toList_append, List.mem_append] at hc
  rcases hc with ((hc | hc) | hc) | hc
  · exact isTermCharacter_of_mem_integer hc
  · rcases List.mem_singleton.mp hc with rfl
    decide
  · have hletter : c = t.visibility.letter := by simpa using hc
    exact hletter ▸ t.visibility.isTermCharacter_letter
  · exact isTermCharacter_of_mem_natural hc

theorem LinearCombination.isTermCharacter_of_mem_summands {x : LinearCombination}
    {coefficients : Array Int} {summands : List String}
    (hs : List.Forall₂ (fun t summand => t.render coefficients = .ok summand) x.terms summands) :
    ∀ summand ∈ summands, ∀ c ∈ summand.toList, isTermCharacter c = true := by
  intro summand hmem c hc
  obtain ⟨t, _, ht⟩ := exists_of_mem_right hs hmem
  exact t.isTermCharacter_of_render ht hc

/-- Between its brackets, a side holds only terms and what joins them. -/
theorem LinearCombination.mem_render {x : LinearCombination} {coefficients : Array Int}
    {text : String} (h : x.render coefficients = .ok text) {c : Char} (hc : c ∈ text.toList) :
    isTermCharacter c = true ∨ c = ' ' ∨ c = '+' := by
  obtain ⟨summands, hs, rfl⟩ := render_eq_ok_iff.mp h
  rw [String.toList_intercalate] at hc
  rcases mem_intercalate hc with hc | ⟨summand, hmem, hc⟩
  · have hsep : c ∈ [' ', '+', ' '] := hc
    simp only [List.mem_cons, List.not_mem_nil, or_false] at hsep
    rcases hsep with rfl | rfl | rfl <;> simp
  · obtain ⟨own, hown, rfl⟩ := List.mem_map.mp hmem
    exact .inl (isTermCharacter_of_mem_summands hs own hown c hc)

/-- The text of a constraint holds no line break. -/
theorem Constraint.newline_notMem_render {c : Constraint} {coefficients : Array Int}
    {text : String} (h : c.render coefficients = .ok text) : '\n' ∉ text.toList := by
  obtain ⟨left, right, output, hl, hr, ho, rfl⟩ := render_eq_ok_iff.mp h
  have hside : ∀ {x : LinearCombination} {side : String}, x.render coefficients = .ok side →
      '\n' ∉ side.toList := by
    intro x side hx hc
    rcases x.mem_render hx hc with hc | hc | hc <;> revert hc <;> decide
  simp [hside hl, hside hr, hside ho]

theorem System.newline_notMem_renderLine {coefficients : Array Int} {index : Nat}
    {c : Constraint} {line : String} (h : renderLine coefficients index c = .ok line) :
    '\n' ∉ line.toList := by
  obtain ⟨text, ht, rfl⟩ := renderLine_eq_ok_iff.mp h
  have hindex : '\n' ∉ (toString index).toList := fun hc =>
    absurd (isTermCharacter_of_mem_natural hc) (by decide)
  simp only [String.toList_append, List.mem_append, not_or]
  exact ⟨⟨⟨by decide, hindex⟩, by decide⟩, c.newline_notMem_render ht⟩

end RankOne
