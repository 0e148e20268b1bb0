import Mathlib.Data.List.Perm.Basic
import RankOne.Proofs.CanonicalForm

/-! The terms of a combination, visibility by visibility. Every term stands in the selection of its
own visibility and in no other, in the order of the combination. The canonical form is made of the
canonical forms of these selections, one after the other, so selecting and sorting commute. -/
namespace RankOne

/-! ## Visibilities in the order of terms -/

/-- A term of higher priority stands in front. -/
theorem Term.lt_of_tag_lt {s t : Term} (h : t.visibility.tag < s.visibility.tag) : s < t := by
  have hcompare : compare t.visibility s.visibility = .lt := Nat.compare_eq_lt.mpr h
  rw [Term.lt_def, compare_eq_then, hcompare]
  rfl

theorem isLE_compare_then_iff {m n : Nat} {next : Ordering} :
    ((compare m n).then next).isLE = true ↔ m ≤ n ∧ (m = n → next.isLE = true) := by
  rcases Nat.lt_trichotomy m n with hlt | rfl | hgt
  · rw [Nat.compare_eq_lt.mpr hlt]
    simp only [Ordering.then, Ordering.isLE, true_iff]
    omega
  · rw [Nat.compare_eq_eq.mpr rfl]
    simp only [Ordering.then, Nat.le_refl, true_and, true_implies]
  · rw [Nat.compare_eq_gt.mpr hgt]
    simp only [Ordering.then, Ordering.isLE, Bool.false_eq_true, false_iff]
    omega

theorem Term.le_iff_of_visibility_eq {s t : Term} (h : s.visibility = t.visibility) :
    s ≤ t ↔ s.variableId ≤ t.variableId ∧
      (s.variableId = t.variableId → s.coefficientId ≤ t.coefficientId) := by
  have hsame : compare t.visibility s.visibility = .eq := h ▸ Std.ReflCmp.compare_self
  rw [Term.le_def, compare_eq_then, hsame, Ordering.then, isLE_compare_then_iff, Nat.isLE_compare]

namespace LinearCombination

/-- The terms of one visibility, as a combination of their own. -/
def block (x : LinearCombination) (v : Visibility) : LinearCombination := ⟨x.ofVisibility v⟩

@[simp] theorem terms_block (x : LinearCombination) (v : Visibility) :
    (x.block v).terms = x.ofVisibility v := rfl

/-! ## Selecting by visibility -/

theorem mem_ofVisibility_iff {x : LinearCombination} {v : Visibility} {t : Term} :
    t ∈ x.ofVisibility v ↔ t ∈ x.terms ∧ t.visibility = v := by
  rw [ofVisibility, List.mem_filter, decide_eq_true_eq]

theorem count_ofVisibility (x : LinearCombination) (v : Visibility) (t : Term) :
    (x.ofVisibility v).count t = if t.visibility = v then x.terms.count t else 0 := by
  split
  next h => exact List.count_filter (decide_eq_true h)
  next h => exact List.count_eq_zero.mpr fun hmem => h (mem_ofVisibility_iff.mp hmem).2

/-- A term is selected as often as its visibility is asked for. -/
theorem count_flatMap_ofVisibility (x : LinearCombination) (vs : List Visibility) (t : Term) :
    (vs.flatMap x.ofVisibility).count t = vs.count t.visibility * x.terms.count t := by
  induction vs with
  | nil => simp
  | cons v vs ih =>
    rw [List.flatMap_cons, List.count_append, ih, count_ofVisibility, List.count_cons]
    by_cases h : t.visibility = v
    · rw [if_pos h, if_pos (beq_iff_eq.mpr h.symm), Nat.succ_mul, Nat.add_comm]
    · rw [if_neg h, if_neg fun heq => h (beq_iff_eq.mp heq).symm, Nat.zero_add, Nat.add_zero]

/-- Asking for every visibility once selects all terms. -/
theorem perm_flatMap_ofVisibility (x : LinearCombination) {vs : List Visibility}
    (h : ∀ v, vs.count v = 1) : (vs.flatMap x.ofVisibility).Perm x.terms := by
  rw [List.perm_iff_count]
  intro t
  rw [count_flatMap_ofVisibility, h, Nat.one_mul]

/-- The occurrence of a term at a place is selected behind those of the earlier terms that are
selected with it. -/
theorem getElem?_filter_countP {α : Type} {p : α → Bool} {xs : List α} {i : Nat} {a : α}
    (h : xs[i]? = some a) (hp : p a = true) :
    (xs.filter p)[(xs.take i).countP p]? = some a := by
  induction xs generalizing i with
  | nil => simp at h
  | cons b xs ih =>
    cases i with
    | zero =>
      obtain rfl : b = a := Option.some.inj h
      rw [List.take_zero, List.countP_nil, List.filter_cons_of_pos hp, List.getElem?_cons_zero]
    | succ i =>
      have hrest : (xs.filter p)[(xs.take i).countP p]? = some a := ih h
      rw [List.take_succ_cons]
      by_cases hb : p b = true
      · rw [List.countP_cons_of_pos hb, List.filter_cons_of_pos hb, List.getElem?_cons_succ]
        exact hrest
      · rw [List.countP_cons_of_neg hb, List.filter_cons_of_neg hb]
        exact hrest

/-! ## Selecting and sorting -/

/-- Sorting the selected terms gives what is selected from the sorted terms. -/
theorem ofVisibility_canonical (x : LinearCombination) (v : Visibility) :
    x.canonical.ofVisibility v = (x.block v).canonical.terms :=
  eq_terms_canonical_iff.mpr
    ⟨(perm_canonical x).filter _, (pairwise_canonical x).filter _⟩

theorem visibility_of_mem_canonical_block {x : LinearCombination} {v : Visibility} {t : Term}
    (h : t ∈ (x.block v).canonical.terms) : t.visibility = v :=
  (mem_ofVisibility_iff.mp (mem_terms_canonical.mp h)).2

/-- Blocks in the order of falling priority are in canonical order together. -/
theorem pairwise_flatMap_blocks (x : LinearCombination) {vs : List Visibility}
    (h : vs.Pairwise fun v w => w.tag < v.tag) :
    (vs.flatMap fun v => (x.block v).canonical.terms).Pairwise (· ≤ ·) := by
  refine List.pairwise_flatMap.mpr ⟨fun v _ => pairwise_canonical _, h.imp ?_⟩
  intro v w hlt s hs t ht
  have hsv := visibility_of_mem_canonical_block hs
  have htw := visibility_of_mem_canonical_block ht
  exact le_of_lt (Term.lt_of_tag_lt (by rw [hsv, htw]; exact hlt))

theorem perm_flatMap_blocks (x : LinearCombination) {vs : List Visibility}
    (h : ∀ v, vs.count v = 1) :
    (vs.flatMap fun v => (x.block v).canonical.terms).Perm x.terms :=
  (List.Perm.flatMap_left vs fun v _ => perm_canonical (x.block v)).trans
    (x.perm_flatMap_ofVisibility h)

/-- In a block, lower variables come first, and then lower coefficients of one variable. -/
theorem pairwise_canonical_block (x : LinearCombination) (v : Visibility) :
    (x.block v).canonical.terms.Pairwise fun s t =>
      s.variableId ≤ t.variableId ∧
        (s.variableId = t.variableId → s.coefficientId ≤ t.coefficientId) := by
  refine (pairwise_canonical (x.block v)).imp_of_mem fun {s t} hs ht hle => ?_
  have hsame : s.visibility = t.visibility :=
    (visibility_of_mem_canonical_block hs).trans (visibility_of_mem_canonical_block ht).symm
  exact (Term.le_iff_of_visibility_eq hsame).mp hle

/-- The canonical form of a combination is made of those of its visibilities, in falling
priority. Selecting a visibility keeps the order of the terms, the selections share out all
occurrences, and each is sorted by variables and then by coefficients. -/
theorem canonical_made_of_blocks :
    ∀ x : LinearCombination,
      x.canonical.terms =
        ([.virtual, .public, .secret, .internal, .unset] : List Visibility).flatMap
          (fun v => (x.block v).canonical.terms) ∧
      (∀ v, x.canonical.ofVisibility v = (x.block v).canonical.terms) ∧
      (∀ v, (x.ofVisibility v).Sublist x.terms) ∧
      (x.ofVisibility .virtual).length + (x.ofVisibility .public).length +
        (x.ofVisibility .secret).length + (x.ofVisibility .internal).length +
        (x.ofVisibility .unset).length = x.size ∧
      (∀ t v, (x.ofVisibility v).count t = if t.visibility = v then x.terms.count t else 0) ∧
      (∀ (i : Nat) (t : Term), x.terms[i]? = some t → ∀ v,
        (t ∈ x.ofVisibility v ↔ v = t.visibility) ∧
        (v = t.visibility →
          (x.ofVisibility v)[(x.terms.take i).countP fun u => u.visibility = v]? = some t)) ∧
      (∀ v, (x.block v).canonical.terms.Pairwise fun s t =>
        s.variableId ≤ t.variableId ∧
          (s.variableId = t.variableId → s.coefficientId ≤ t.coefficientId)) := by
  intro x
  have honce : ∀ v : Visibility,
      ([.virtual, .public, .secret, .internal, .unset] : List Visibility).count v = 1 := by
    intro v
    cases v <;> rfl
  refine ⟨?_, x.ofVisibility_canonical, fun v => List.filter_sublist, ?_,
    fun t v => x.count_ofVisibility v t, fun i t ht v => ⟨?_, ?_⟩, x.pairwise_canonical_block⟩
  · exact (eq_terms_canonical_iff.mpr
      ⟨x.perm_flatMap_blocks honce, x.pairwise_flatMap_blocks (by decide)⟩).symm
  · have hlength := (x.perm_flatMap_ofVisibility honce).length_eq
    simp only [List.flatMap_cons, List.flatMap_nil, List.length_append, List.length_nil] at hlength
    rw [size]
    omega
  · rw [mem_ofVisibility_iff, eq_comm]
    exact and_iff_right (List.mem_of_getElem? ht)
  · rintro rfl
    exact getElem?_filter_countP ht (decide_eq_true rfl)

/-- The second of two equal terms is the second one selected. -/
theorem canonical_made_of_blocks_sample :
    let p : Term := .ofValues 1 0 .public (by decide) (by decide)
    let q : Term := .ofValues 0 3 .internal (by decide) (by decide)
    let x : LinearCombination := ⟨[q, p, q]⟩
    x.terms[2]? = some q ∧ q ∈ x.ofVisibility .internal ∧ q ∉ x.ofVisibility .public ∧
      (x.ofVisibility .internal)[1]? = some q := by
  intro p q x
  have hplace : x.terms[2]? = some q := rfl
  have hvisibility : q.visibility = .internal := by decide
  obtain ⟨-, -, -, -, -, hplaces, -⟩ := canonical_made_of_blocks x
  obtain ⟨hmem, hselected⟩ := hplaces 2 q hplace .internal
  have hother : q ∉ x.ofVisibility .public := fun h =>
    Visibility.noConfusion (((hplaces 2 q hplace .public).1.mp h).trans hvisibility)
  have hearlier : ((x.terms.take 2).countP fun u => u.visibility = .internal) = 1 := by decide
  exact ⟨hplace, hmem.mpr hvisibility.symm, hother, hearlier ▸ hselected hvisibility.symm⟩

end LinearCombination
end RankOne
