import RankOne.Fault
import RankOne.Term.Layout

/-! A term `coefficient * variable`, packed into one word. The word of a term
always holds the tag of a visibility, so a term can be read without failing; it is
built from its three values, from an accepted word, or by changing one value of
another term. -/
namespace RankOne

/-- A packed term: the id of a coefficient, the id of a variable, and its visibility. -/
@[ext] structure Term where
  word : UInt64
  tag_le_four : Term.Layout.visibility.read word ≤ 4
  deriving DecidableEq

namespace Term

def maxCoefficientId : Nat := Layout.coefficient.maxValue

def maxVariableId : Nat := Layout.variableId.maxValue

def coefficientId (t : Term) : Nat := Layout.coefficient.read t.word

def variableId (t : Term) : Nat := Layout.variableId.read t.word

def tag (t : Term) : Nat := Layout.visibility.read t.word

def visibility (t : Term) : Visibility :=
  (Visibility.ofTag? t.tag).get (Visibility.isSome_ofTag?_iff.2 t.tag_le_four)

def unpack (t : Term) : Nat × Nat × Visibility := (t.coefficientId, t.variableId, t.visibility)

theorem tag_le_maxValue (v : Visibility) : v.tag ≤ Layout.visibility.maxValue := by
  cases v <;> decide

/-- The term with the three given values, whose ids fit their fields. -/
def ofValues (coefficientId variableId : Nat) (visibility : Visibility)
    (hc : coefficientId ≤ maxCoefficientId) (hv : variableId ≤ maxVariableId) : Term where
  word := Layout.assemble coefficientId variableId visibility.tag
  tag_le_four := by
    rw [Layout.read_visibility_assemble hc hv (tag_le_maxValue visibility)]
    exact visibility.tag_le_four

/-- Packs three values. The id of the coefficient is checked before that of the variable. -/
def pack (coefficientId variableId : Nat) (visibility : Visibility) : Except Fault Term :=
  if hc : coefficientId ≤ maxCoefficientId then
    if hv : variableId ≤ maxVariableId then
      .ok (ofValues coefficientId variableId visibility hc hv)
    else .error (.oversizedId .variableId variableId maxVariableId)
  else .error (.oversizedId .coefficientId coefficientId maxCoefficientId)

/-- The term that a word holds; a word without a visibility is refused with the tag it holds. -/
def ofWord (word : UInt64) : Except Fault Term :=
  if h : Layout.visibility.read word ≤ 4 then .ok ⟨word, h⟩
  else .error (.undefinedVisibility (Layout.visibility.read word))

def withCoefficientId (t : Term) (coefficientId : Nat) : Except Fault Term :=
  pack coefficientId t.variableId t.visibility

def withVariableId (t : Term) (variableId : Nat) : Except Fault Term :=
  pack t.coefficientId variableId t.visibility

/-- The term with another visibility: only the bits of the tag change. -/
def withVisibility (t : Term) (visibility : Visibility) : Term where
  word := Layout.visibility.write t.word visibility.tag
  tag_le_four := by
    rw [BitField.read_write_same (tag_le_maxValue visibility)]
    exact visibility.tag_le_four

def inspect (t : Term) : String :=
  "Term(c" ++ toString t.coefficientId ++ "*" ++ t.visibility.letter.toString ++
    toString t.variableId ++ ")"

/-! ## Values and words -/

theorem coefficientId_le (t : Term) : t.coefficientId ≤ maxCoefficientId :=
  BitField.read_le_maxValue _ _

theorem variableId_le (t : Term) : t.variableId ≤ maxVariableId :=
  BitField.read_le_maxValue _ _

@[simp] theorem tag_visibility (t : Term) : t.visibility.tag = t.tag :=
  (Visibility.ofTag?_eq_some_iff.1 (Option.some_get _).symm).symm

theorem visibility_eq_iff {t : Term} {v : Visibility} : t.visibility = v ↔ t.tag = v.tag :=
  ⟨fun h => h ▸ (tag_visibility t).symm, fun h => Visibility.tag_injective (by simp [h])⟩

section

variable {c v : Nat} {w : Visibility} (hc : c ≤ maxCoefficientId) (hv : v ≤ maxVariableId)

@[simp] theorem coefficientId_ofValues : (ofValues c v w hc hv).coefficientId = c :=
  Layout.read_coefficient_assemble hc hv (tag_le_maxValue w)

@[simp] theorem variableId_ofValues : (ofValues c v w hc hv).variableId = v :=
  Layout.read_variableId_assemble hc hv (tag_le_maxValue w)

@[simp] theorem visibility_ofValues : (ofValues c v w hc hv).visibility = w :=
  visibility_eq_iff.2 (Layout.read_visibility_assemble hc hv (tag_le_maxValue w))

end

/-- A term is determined by its three values. -/
theorem eq_of_values {s t : Term} (hc : s.coefficientId = t.coefficientId)
    (hv : s.variableId = t.variableId) (hw : s.visibility = t.visibility) : s = t := by
  have ht : s.tag = t.tag := by simpa using congrArg Visibility.tag hw
  exact Term.ext (Layout.eq_of_reads hc hv ht)

@[simp] theorem ofValues_values (t : Term) :
    ofValues t.coefficientId t.variableId t.visibility t.coefficientId_le t.variableId_le = t :=
  eq_of_values (by simp) (by simp) (by simp)

@[simp] theorem pack_values (t : Term) :
    pack t.coefficientId t.variableId t.visibility = .ok t := by
  simp [pack, t.coefficientId_le, t.variableId_le]

theorem pack_eq_ok_iff {c v : Nat} {w : Visibility} {t : Term} :
    pack c v w = .ok t ↔ t.coefficientId = c ∧ t.variableId = v ∧ t.visibility = w := by
  constructor
  · intro h
    unfold pack at h
    split at h
    · split at h
      · cases h
        simp
      · cases h
    · cases h
  · rintro ⟨rfl, rfl, rfl⟩
    exact pack_values t

@[simp] theorem ofWord_word (t : Term) : ofWord t.word = .ok t :=
  dif_pos t.tag_le_four

/-- Changing the tag in place is packing with another visibility. -/
theorem pack_withVisibility (t : Term) (w : Visibility) :
    pack t.coefficientId t.variableId w = .ok (t.withVisibility w) := by
  have hw := tag_le_maxValue w
  refine pack_eq_ok_iff.2 ⟨?_, ?_, visibility_eq_iff.2 (BitField.read_write_same hw _)⟩
  · exact BitField.read_write_disjoint (by decide) hw _
  · exact BitField.read_write_disjoint (by decide) hw _

end Term
end RankOne
