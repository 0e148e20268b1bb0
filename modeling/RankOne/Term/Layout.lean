import RankOne.BitField

/-! The three bit fields of a packed term. From the lowest bit upwards they hold
the coefficient id, the variable id and the tag of the visibility, and together
they fill the word. -/
namespace RankOne.Term.Layout

def coefficient : BitField where
  offset := 0
  width := 30

def variableId : BitField where
  offset := 30
  width := 31

def visibility : BitField where
  offset := 61
  width := 3

def assemble (coefficientValue variableValue tag : Nat) : UInt64 :=
  coefficient.place coefficientValue ||| variableId.place variableValue ||| visibility.place tag

section

variable {c v t : Nat} (hc : c ≤ coefficient.maxValue) (hv : v ≤ variableId.maxValue)
  (ht : t ≤ visibility.maxValue)

include hc hv ht

theorem read_coefficient_assemble : coefficient.read (assemble c v t) = c := by
  have h₁ : coefficient.read (variableId.place v) = 0 := BitField.read_place_disjoint (by decide) hv
  have h₂ : coefficient.read (visibility.place t) = 0 := BitField.read_place_disjoint (by decide) ht
  simp [assemble, BitField.read_or, BitField.read_place_same hc, h₁, h₂]

theorem read_variableId_assemble : variableId.read (assemble c v t) = v := by
  have h₁ : variableId.read (coefficient.place c) = 0 := BitField.read_place_disjoint (by decide) hc
  have h₂ : variableId.read (visibility.place t) = 0 := BitField.read_place_disjoint (by decide) ht
  simp [assemble, BitField.read_or, BitField.read_place_same hv, h₁, h₂]

theorem read_visibility_assemble : visibility.read (assemble c v t) = t := by
  have h₁ : visibility.read (coefficient.place c) = 0 := BitField.read_place_disjoint (by decide) hc
  have h₂ : visibility.read (variableId.place v) = 0 := BitField.read_place_disjoint (by decide) hv
  simp [assemble, BitField.read_or, BitField.read_place_same ht, h₁, h₂]

end

/-- The three fields make up the whole word. -/
theorem toNat_eq_reads (word : UInt64) :
    word.toNat =
      coefficient.read word + variableId.read word <<< 30 + visibility.read word <<< 61 := by
  have := word.toNat_lt
  simp only [BitField.read_eq, coefficient, variableId, visibility, Nat.shiftLeft_eq,
    Nat.shiftRight_eq_div_pow]
  omega

theorem eq_of_reads {w x : UInt64} (hc : coefficient.read w = coefficient.read x)
    (hv : variableId.read w = variableId.read x) (ht : visibility.read w = visibility.read x) :
    w = x := by
  rw [← UInt64.toNat_inj, toNat_eq_reads w, toNat_eq_reads x, hc, hv, ht]

end RankOne.Term.Layout
