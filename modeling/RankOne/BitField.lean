/-! Bit fields of a 64-bit word. A field is read by shifting and masking and
written by clearing its bits and setting the new ones; both are described bit
by bit, so that fields which do not overlap leave each other alone. -/
namespace RankOne

/-- A run of `width` adjacent bits that starts `offset` bits above the lowest. -/
structure BitField where
  offset : Nat
  width : Nat
  offset_lt : offset < 64 := by decide
  offset_add_width_le : offset + width ≤ 64 := by decide

namespace BitField

def maxValue (f : BitField) : Nat := (1 <<< f.width) - 1

/-- The bits of the field, moved down to the lowest position. -/
def mask (f : BitField) : UInt64 := f.maxValue.toUInt64

/-- The word that holds `value` in the field and zeros elsewhere. -/
def place (f : BitField) (value : Nat) : UInt64 := value.toUInt64 <<< f.offset.toUInt64

def read (f : BitField) (word : UInt64) : Nat := ((word >>> f.offset.toUInt64) &&& f.mask).toNat

def write (f : BitField) (word : UInt64) (value : Nat) : UInt64 :=
  (word &&& ~~~(f.mask <<< f.offset.toUInt64)) ||| f.place value

def Disjoint (f g : BitField) : Prop := f.offset + f.width ≤ g.offset ∨ g.offset + g.width ≤ f.offset

instance (f g : BitField) : Decidable (f.Disjoint g) := by
  unfold Disjoint
  infer_instance

theorem le_maxValue_iff {f : BitField} {value : Nat} : value ≤ f.maxValue ↔ value < 1 <<< f.width := by
  have := Nat.two_pow_pos f.width
  rw [maxValue, Nat.one_shiftLeft]
  omega

theorem toNat_mask (f : BitField) : f.mask.toNat = f.maxValue := by
  have h : 2 ^ f.width ≤ 2 ^ 64 :=
    Nat.pow_le_pow_right (by decide) (by have := f.offset_add_width_le; omega)
  have := Nat.two_pow_pos f.width
  simp only [mask, maxValue, Nat.one_shiftLeft, Nat.toUInt64, UInt64.toNat_ofNat']
  omega

theorem toNat_offset (f : BitField) : f.offset.toUInt64.toNat % 64 = f.offset := by
  have := f.offset_lt
  simp only [Nat.toUInt64, UInt64.toNat_ofNat']
  omega

/-- Reading drops the bits below the field, and reduces the rest to its width. -/
theorem read_eq (f : BitField) (word : UInt64) :
    f.read word = (word.toNat >>> f.offset) % (1 <<< f.width) := by
  simp only [read, UInt64.toNat_and, UInt64.toNat_shiftRight, toNat_mask, toNat_offset, maxValue,
    Nat.one_shiftLeft, Nat.and_two_pow_sub_one_eq_mod]

theorem read_le_maxValue (f : BitField) (word : UInt64) : f.read word ≤ f.maxValue := by
  rw [le_maxValue_iff, read_eq, Nat.one_shiftLeft]
  exact Nat.mod_lt _ (Nat.two_pow_pos _)

theorem testBit_read (f : BitField) (word : UInt64) (i : Nat) :
    (f.read word).testBit i = (decide (i < f.width) && word.toNat.testBit (f.offset + i)) := by
  rw [read_eq, Nat.one_shiftLeft, Nat.testBit_mod_two_pow, Nat.testBit_shiftRight]

theorem testBit_place {f : BitField} {value : Nat} (h : value ≤ f.maxValue) (i : Nat) :
    (f.place value).toNat.testBit i = (decide (f.offset ≤ i) && value.testBit (i - f.offset)) := by
  have hw : 2 ^ f.width ≤ 2 ^ 64 :=
    Nat.pow_le_pow_right (by decide) (by have := f.offset_add_width_le; omega)
  have hv : value < 2 ^ f.width := Nat.one_shiftLeft _ ▸ le_maxValue_iff.1 h
  have hs : value.toUInt64.toNat = value := by
    simp only [Nat.toUInt64, UInt64.toNat_ofNat']
    omega
  have ho := f.offset_add_width_le
  simp only [place, UInt64.toNat_shiftLeft, hs, toNat_offset, Nat.testBit_mod_two_pow,
    Nat.testBit_shiftLeft]
  by_cases hi : i < 64
  · simp [hi]
  · have hz : value.testBit (i - f.offset) = false :=
      Nat.testBit_lt_two_pow (Nat.lt_of_lt_of_le hv (Nat.pow_le_pow_right (by decide) (by omega)))
    simp [hz]

theorem testBit_shiftedMask (f : BitField) (i : Nat) :
    (f.mask <<< f.offset.toUInt64).toNat.testBit i =
      decide (f.offset ≤ i ∧ i < f.offset + f.width) := by
  have ho := f.offset_add_width_le
  simp only [UInt64.toNat_shiftLeft, toNat_mask, toNat_offset, maxValue, Nat.one_shiftLeft,
    Nat.testBit_mod_two_pow, Nat.testBit_shiftLeft, Nat.testBit_two_pow_sub_one]
  by_cases h₁ : f.offset ≤ i <;> by_cases h₂ : i < f.offset + f.width <;> simp [h₁, h₂] <;> omega

/-- Writing sets the bits of the field and keeps all others. -/
theorem testBit_write {f : BitField} {value : Nat} (h : value ≤ f.maxValue) (word : UInt64) (i : Nat) :
    (f.write word value).toNat.testBit i =
      if f.offset ≤ i ∧ i < f.offset + f.width then value.testBit (i - f.offset)
      else word.toNat.testBit i := by
  have hv : value < 2 ^ f.width := Nat.one_shiftLeft _ ▸ le_maxValue_iff.1 h
  have hc : (~~~(f.mask <<< f.offset.toUInt64)).toNat.testBit i =
      (decide (i < 64) && !decide (f.offset ≤ i ∧ i < f.offset + f.width)) := by
    rw [UInt64.toNat_not, show UInt64.size - 1 - (f.mask <<< f.offset.toUInt64).toNat =
        2 ^ 64 - ((f.mask <<< f.offset.toUInt64).toNat + 1) by simp only [UInt64.size]; omega,
      Nat.testBit_two_pow_sub_succ (UInt64.toNat_lt _), testBit_shiftedMask]
  simp only [write, UInt64.toNat_or, UInt64.toNat_and, Nat.testBit_or, Nat.testBit_and,
    testBit_place h, hc]
  split
  next hin => simp [hin]
  next hout =>
    have hp : (decide (f.offset ≤ i) && value.testBit (i - f.offset)) = false := by
      by_cases ho : f.offset ≤ i
      · have : value.testBit (i - f.offset) = false :=
          Nat.testBit_lt_two_pow (Nat.lt_of_lt_of_le hv (Nat.pow_le_pow_right (by decide) (by omega)))
        simp [this]
      · simp [ho]
    rw [hp]
    by_cases hi : i < 64
    · simp [hi, hout]
    · have : word.toNat.testBit i = false :=
        Nat.testBit_lt_two_pow (Nat.lt_of_lt_of_le (UInt64.toNat_lt word)
          (Nat.pow_le_pow_right (by decide) (by omega)))
      simp [this]

theorem read_write_same {f : BitField} {value : Nat} (h : value ≤ f.maxValue) (word : UInt64) :
    f.read (f.write word value) = value := by
  have hv : value < 2 ^ f.width := Nat.one_shiftLeft _ ▸ le_maxValue_iff.1 h
  refine Nat.eq_of_testBit_eq fun i => ?_
  rw [testBit_read, testBit_write h]
  by_cases hi : i < f.width
  · simp [hi]
  · have : value.testBit i = false :=
      Nat.testBit_lt_two_pow (Nat.lt_of_lt_of_le hv
        (Nat.pow_le_pow_right (by decide) (by omega)))
    simp [hi, this]

theorem read_write_disjoint {f g : BitField} (hfg : f.Disjoint g) {value : Nat}
    (h : value ≤ f.maxValue) (word : UInt64) : g.read (f.write word value) = g.read word := by
  refine Nat.eq_of_testBit_eq fun i => ?_
  rw [testBit_read, testBit_read, testBit_write h]
  by_cases hi : i < g.width
  · rw [if_neg (by unfold Disjoint at hfg; omega)]
  · simp [hi]

/-- Placing is writing into the empty word. -/
theorem place_eq_write (f : BitField) (value : Nat) : f.place value = f.write 0 value := by
  simp [write]

theorem read_zero (f : BitField) : f.read 0 = 0 := by
  simp [read_eq]

theorem read_or (f : BitField) (v w : UInt64) : f.read (v ||| w) = f.read v ||| f.read w := by
  refine Nat.eq_of_testBit_eq fun i => ?_
  simp only [testBit_read, Nat.testBit_or, UInt64.toNat_or, Bool.and_or_distrib_left]

theorem read_place_same {f : BitField} {value : Nat} (h : value ≤ f.maxValue) :
    f.read (f.place value) = value := by
  rw [place_eq_write, read_write_same h]

theorem read_place_disjoint {f g : BitField} (hfg : f.Disjoint g) {value : Nat}
    (h : value ≤ f.maxValue) : g.read (f.place value) = 0 := by
  rw [place_eq_write, read_write_disjoint hfg h, read_zero]

end BitField
end RankOne
