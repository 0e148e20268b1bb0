import Mathlib.Algebra.Group.Nat.Defs
import Mathlib.Data.Set.Function
import RankOne.Term.Basic

/-! Packing is one-to-one between the triples of values that fit their fields and the
words whose highest three bits hold the tag of a visibility. Values that do not fit and
words that hold no tag are refused, never truncated. -/
namespace RankOne.Term

/-! ## Packing values -/

theorem exists_pack_eq_ok_iff {c v : Nat} {w : Visibility} :
    (∃ t, pack c v w = .ok t) ↔ c ≤ maxCoefficientId ∧ v ≤ maxVariableId := by
  constructor
  · intro h
    obtain ⟨t, ht⟩ := h
    obtain ⟨rfl, rfl, _⟩ := pack_eq_ok_iff.mp ht
    exact ⟨t.coefficientId_le, t.variableId_le⟩
  · intro h
    obtain ⟨hc, hv⟩ := h
    exact ⟨ofValues c v w hc hv, by simp [pack, hc, hv]⟩

/-- The id of the coefficient is complained about first, even where both do not fit. -/
theorem pack_eq_error_iff {c v : Nat} {w : Visibility} {fault : Fault} :
    pack c v w = .error fault ↔
      (maxCoefficientId < c ∧ fault = .oversizedId .coefficientId c maxCoefficientId) ∨
      (c ≤ maxCoefficientId ∧ maxVariableId < v ∧
        fault = .oversizedId .variableId v maxVariableId) := by
  unfold pack
  by_cases hc : c ≤ maxCoefficientId
  · by_cases hv : v ≤ maxVariableId
    · simp [hc, hv, Nat.not_lt.mpr hc, Nat.not_lt.mpr hv]
    · simp [hc, hv, Nat.not_lt.mpr hc, Nat.not_le.mp hv, eq_comm]
  · simp [hc, Nat.not_le.mp hc, eq_comm]

/-- The word of a term is the sum of its three values, each with the weight of its field. -/
theorem toNat_word (t : Term) :
    t.word.toNat = t.coefficientId + 2 ^ 30 * t.variableId + 2 ^ 61 * t.visibility.tag := by
  have hreads := Layout.toNat_eq_reads t.word
  rw [Nat.shiftLeft_eq, Nat.shiftLeft_eq] at hreads
  rw [tag_visibility, coefficientId, variableId, tag]
  omega

/-! ## Accepting words -/

theorem toNat_highBits (word : UInt64) : (word >>> 61).toNat = word.toNat / 2 ^ 61 := by
  simp [UInt64.toNat_shiftRight, Nat.shiftRight_eq_div_pow]

theorem read_visibility_eq (word : UInt64) :
    Layout.visibility.read word = (word >>> 61).toNat := by
  have hlt := word.toNat_lt
  rw [BitField.read_eq, toNat_highBits]
  simp only [Layout.visibility, Nat.shiftRight_eq_div_pow, Nat.shiftLeft_eq]
  omega

theorem highBits_le_four_iff {word : UInt64} :
    (word >>> 61).toNat ≤ 4 ↔ word.toNat < 5 * 2 ^ 61 := by
  rw [toNat_highBits]
  omega

theorem ofWord_eq_ok_iff {word : UInt64} {t : Term} : ofWord word = .ok t ↔ t.word = word := by
  constructor
  · intro h
    unfold ofWord at h
    split at h
    · cases h
      rfl
    · cases h
  · rintro rfl
    exact ofWord_word t

theorem ofWord_eq_error_iff {word : UInt64} {fault : Fault} :
    ofWord word = .error fault ↔
      4 < (word >>> 61).toNat ∧ fault = .undefinedVisibility (word >>> 61).toNat := by
  rw [ofWord, ← read_visibility_eq]
  by_cases h : Layout.visibility.read word ≤ 4
  · simp [h, Nat.not_lt.mpr h]
  · simp [h, Nat.not_le.mp h, eq_comm]

theorem exists_ofWord_eq_ok_iff {word : UInt64} :
    (∃ t, ofWord word = .ok t) ↔ (word >>> 61).toNat ≤ 4 := by
  rw [← read_visibility_eq]
  constructor
  · intro h
    obtain ⟨t, ht⟩ := h
    exact ofWord_eq_ok_iff.mp ht ▸ t.tag_le_four
  · intro h
    exact ⟨⟨word, h⟩, dif_pos h⟩

/-! ## The correspondence -/

/-- Different triples are packed into different words, and every accepted word is reached. -/
theorem bijOn_word_pack :
    Set.BijOn (fun p : Nat × Nat × Visibility => (pack p.1 p.2.1 p.2.2).map word)
      {p | p.1 ≤ maxCoefficientId ∧ p.2.1 ≤ maxVariableId}
      (Except.ok '' {word | ∃ t, ofWord word = .ok t}) := by
  refine ⟨?_, ?_, ?_⟩
  · intro p hp
    obtain ⟨c, v, w⟩ := p
    obtain ⟨t, ht⟩ := exists_pack_eq_ok_iff (w := w).mpr hp
    exact ⟨t.word, ⟨t, ofWord_word t⟩, by simp [ht, Except.map]⟩
  · intro p hp q hq h
    obtain ⟨c, v, w⟩ := p
    obtain ⟨d, u, x⟩ := q
    obtain ⟨s, hs⟩ := exists_pack_eq_ok_iff (w := w).mpr hp
    obtain ⟨t, ht⟩ := exists_pack_eq_ok_iff (w := x).mpr hq
    have hst : s = t := Term.ext (by simpa [hs, ht, Except.map] using h)
    obtain ⟨rfl, rfl, rfl⟩ := pack_eq_ok_iff.mp hs
    obtain ⟨rfl, rfl, rfl⟩ := pack_eq_ok_iff.mp (hst ▸ ht)
    rfl
  · intro x hx
    obtain ⟨word, ⟨t, ht⟩, rfl⟩ := hx
    refine ⟨t.unpack, ⟨t.coefficientId_le, t.variableId_le⟩, ?_⟩
    simp [unpack, Except.map, ofWord_eq_ok_iff.mp ht]

/-- Packing and reading are inverse to each other, on exactly the triples whose ids have at
most 30 and 31 bits and the words whose highest three bits are at most four. -/
theorem pack_ofWord_correspondence :
    (∀ (c v : Nat) (w : Visibility),
      ((∃ t, pack c v w = .ok t) ↔ c ≤ 2 ^ 30 - 1 ∧ v ≤ 2 ^ 31 - 1) ∧
      (∀ fault, pack c v w = .error fault ↔
        (2 ^ 30 - 1 < c ∧ fault = .oversizedId .coefficientId c (2 ^ 30 - 1)) ∨
        (c ≤ 2 ^ 30 - 1 ∧ 2 ^ 31 - 1 < v ∧
          fault = .oversizedId .variableId v (2 ^ 31 - 1))) ∧
      (∀ t, pack c v w = .ok t ↔
        t.unpack = (c, v, w) ∧ t.word.toNat = c + 2 ^ 30 * v + 2 ^ 61 * w.tag ∧
          ofWord t.word = .ok t)) ∧
    (∀ word : UInt64,
      ((∃ t, ofWord word = .ok t) ↔ (word >>> 61).toNat ≤ 4) ∧
      ((word >>> 61).toNat ≤ 4 ↔ word.toNat < 5 * 2 ^ 61) ∧
      (∀ fault, ofWord word = .error fault ↔
        4 < (word >>> 61).toNat ∧ fault = .undefinedVisibility (word >>> 61).toNat) ∧
      (∀ t, ofWord word = .ok t ↔
        t.word = word ∧ pack t.coefficientId t.variableId t.visibility = .ok t)) ∧
    Set.BijOn (fun p : Nat × Nat × Visibility => (pack p.1 p.2.1 p.2.2).map word)
      {p | p.1 ≤ 2 ^ 30 - 1 ∧ p.2.1 ≤ 2 ^ 31 - 1}
      (Except.ok '' {word | ∃ t, ofWord word = .ok t}) := by
  refine ⟨fun c v w => ⟨exists_pack_eq_ok_iff, fun fault => pack_eq_error_iff, fun t => ?_⟩,
    fun word => ⟨exists_ofWord_eq_ok_iff, highBits_le_four_iff, fun fault => ofWord_eq_error_iff,
      fun t => ?_⟩, bijOn_word_pack⟩
  · constructor
    · intro h
      obtain ⟨rfl, rfl, rfl⟩ := pack_eq_ok_iff.mp h
      exact ⟨rfl, t.toNat_word, ofWord_word t⟩
    · intro h
      obtain ⟨hu, -, -⟩ := h
      cases hu
      exact pack_values t
  · constructor
    · intro h
      exact ⟨ofWord_eq_ok_iff.mp h, pack_values t⟩
    · intro h
      obtain ⟨h, -⟩ := h
      exact ofWord_eq_ok_iff.mpr h

end RankOne.Term
