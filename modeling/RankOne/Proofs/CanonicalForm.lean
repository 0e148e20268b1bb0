import Mathlib.Data.List.Chain
import Mathlib.Order.MinMax
import RankOne.LinearCombination.Canonical
import RankOne.Proofs.TermOrder

/-! What the canonical form of a linear combination tells: exactly which terms it holds, and
how often each. Terms can be sorted in one way only, so any way of sorting leads there. A
combination is in this form when no neighbours stand the wrong way round, and its least and
greatest terms are then at its ends. -/
namespace RankOne.LinearCombination

/-- The canonical form is the one sorted arrangement of the terms. -/
theorem eq_terms_canonical_iff {x : LinearCombination} {ts : List Term} :
    ts = x.canonical.terms ↔ ts.Perm x.terms ∧ ts.Pairwise (· ≤ ·) := by
  constructor
  · rintro rfl
    exact ⟨perm_canonical x, pairwise_canonical x⟩
  · intro h
    obtain ⟨hperm, hsorted⟩ := h
    exact eq_of_perm_of_pairwise (hperm.trans (perm_canonical x).symm) hsorted
      (pairwise_canonical x)

theorem canonical_eq_iff_count {x y : LinearCombination} :
    x.canonical = y.canonical ↔ ∀ t, x.terms.count t = y.terms.count t :=
  canonical_eq_iff_perm.trans List.perm_iff_count

theorem isCanonical_canonical (x : LinearCombination) : x.canonical.isCanonical = true :=
  isCanonical_iff_canonical_eq.mpr (canonical_canonical x)

/-- A way of sorting is correct exactly when it leads to the canonical form, whether or not it
keeps the order of terms that tie. -/
theorem sorts_iff_eq_canonical {sort : List Term → List Term} :
    (∀ ts, (sort ts).Perm ts ∧ (sort ts).Pairwise (· ≤ ·)) ↔
      ∀ x : LinearCombination, sort x.terms = x.canonical.terms := by
  constructor
  · intro h x
    exact eq_terms_canonical_iff.mpr (h x.terms)
  · intro h ts
    exact eq_terms_canonical_iff.mp (h ⟨ts⟩)

theorem canonical_extend_comm (x y : LinearCombination) :
    (x.extend y.terms).canonical = (y.extend x.terms).canonical :=
  canonical_eq_iff_perm.mpr List.perm_append_comm

/-- Sorting the parts first does not change the canonical form of the whole. -/
theorem canonical_extend_canonical (x y : LinearCombination) :
    (x.canonical.extend y.canonical.terms).canonical = (x.extend y.terms).canonical :=
  canonical_eq_iff_perm.mpr ((perm_canonical x).append (perm_canonical y))

/-- The canonical form names the multiset of the terms. -/
theorem canonical_complete_invariant :
    (∀ x y : LinearCombination,
      x.canonical = y.canonical ↔ ∀ t, x.terms.count t = y.terms.count t) ∧
    (∀ (x : LinearCombination) (ts : List Term),
      ts = x.canonical.terms ↔ ts.Perm x.terms ∧ ts.Pairwise (· ≤ ·)) ∧
    (∀ sort : List Term → List Term,
      (∀ ts, (sort ts).Perm ts ∧ (sort ts).Pairwise (· ≤ ·)) ↔
        ∀ x : LinearCombination, sort x.terms = x.canonical.terms) ∧
    (∀ x : LinearCombination, x.canonical.canonical = x.canonical) ∧
    (∀ x y : LinearCombination,
      (x.extend y.terms).canonical = (y.extend x.terms).canonical ∧
      (x.extend y.terms).canonical = (x.canonical.extend y.canonical.terms).canonical) :=
  ⟨fun _ _ => canonical_eq_iff_count, fun _ _ => eq_terms_canonical_iff,
    fun _ => sorts_iff_eq_canonical, canonical_canonical,
    fun x y => ⟨canonical_extend_comm x y, (canonical_extend_canonical x y).symm⟩⟩

/-! ## Neighbours -/

theorem ascending_iff_isChain {ts : List Term} :
    ascending ts = true ↔ ts.IsChain fun a b => compare a b ≠ .gt := by
  induction ts with
  | nil => simp [ascending]
  | cons a rest ih =>
    cases rest with
    | nil => simp [ascending]
    | cons b rest =>
      rw [ascending, Bool.and_eq_true, decide_eq_true_eq, ih, List.isChain_cons_cons,
        Term.le_iff_compare_ne_gt]

theorem isCanonical_iff_pairwise {x : LinearCombination} :
    x.isCanonical = true ↔ x.terms.Pairwise fun a b => compare a b ≠ .gt := by
  rw [isCanonical, ascending_iff_pairwise]
  simp only [Term.le_iff_compare_ne_gt]

/-! ## Ends -/

/-- Where every earlier element is related to every later one, the first is the one that is
related to all. -/
theorem head?_eq_some_iff_forall {α : Type} {R : α → α → Prop} {xs : List α}
    (h : xs.Pairwise R) (hrefl : ∀ a, R a a) (hantisymm : ∀ a b, R a b → R b a → a = b) {a : α} :
    xs.head? = some a ↔ a ∈ xs ∧ ∀ b ∈ xs, R a b := by
  cases xs with
  | nil => simp
  | cons first rest =>
    obtain ⟨hfirst, -⟩ := List.pairwise_cons.mp h
    have hall : ∀ b ∈ first :: rest, R first b := by
      intro b hb
      rcases List.mem_cons.mp hb with rfl | hb
      · exact hrefl b
      · exact hfirst b hb
    constructor
    · intro heq
      cases heq
      exact ⟨List.mem_cons_self, hall⟩
    · intro hleast
      obtain ⟨hmem, hle⟩ := hleast
      exact congrArg some (hantisymm first a (hall a hmem) (hle first List.mem_cons_self))

theorem least?_eq_some_iff {x : LinearCombination} {t : Term} :
    x.least? = some t ↔ t ∈ x.terms ∧ ∀ u ∈ x.terms, t ≤ u :=
  List.min?_eq_some_iff

theorem greatest?_eq_some_iff {x : LinearCombination} {t : Term} :
    x.greatest? = some t ↔ t ∈ x.terms ∧ ∀ u ∈ x.terms, u ≤ t :=
  List.max?_eq_some_iff

theorem least?_eq_head?_canonical (x : LinearCombination) :
    x.least? = x.canonical.terms.head? := by
  refine Option.ext fun t => ?_
  rw [least?_eq_some_iff, head?_eq_some_iff_forall (pairwise_canonical x) Term.le_refl
    fun _ _ => Term.le_antisymm]
  simp only [mem_terms_canonical]

theorem greatest?_eq_getLast?_canonical (x : LinearCombination) :
    x.greatest? = x.canonical.terms.getLast? := by
  -- Read backwards, the terms are in the opposite order and the last one is the first.
  have hreverse : x.canonical.terms.reverse.Pairwise fun a b => b ≤ a :=
    List.pairwise_reverse.mpr (pairwise_canonical x)
  refine Option.ext fun t => ?_
  rw [greatest?_eq_some_iff, ← List.head?_reverse, head?_eq_some_iff_forall hreverse Term.le_refl
    fun _ _ hba hab => Term.le_antisymm hab hba]
  simp only [List.mem_reverse, mem_terms_canonical]

/-- Comparing neighbours decides whether all terms stand in order, that is, whether sorting
changes nothing. The ends of the canonical form are the least and the greatest term. -/
theorem isCanonical_decides_order :
    ∀ x : LinearCombination,
      (x.isCanonical = true ↔ x.terms.IsChain fun a b => compare a b ≠ .gt) ∧
      (x.isCanonical = true ↔ x.terms.Pairwise fun a b => compare a b ≠ .gt) ∧
      (x.isCanonical = true ↔ x.canonical = x) ∧
      (∀ t, (x.least? = some t ↔ t ∈ x.terms ∧ ∀ u ∈ x.terms, compare t u ≠ .gt) ∧
        (x.greatest? = some t ↔ t ∈ x.terms ∧ ∀ u ∈ x.terms, compare u t ≠ .gt)) ∧
      (x.terms ≠ [] → ∃ s t, x.least? = some s ∧ x.greatest? = some t ∧
        x.canonical.terms.head? = some s ∧ x.canonical.terms.getLast? = some t ∧
        (x.isCanonical = true → x.terms.head? = some s ∧ x.terms.getLast? = some t)) := by
  intro x
  refine ⟨ascending_iff_isChain, isCanonical_iff_pairwise, isCanonical_iff_canonical_eq,
    fun t => ⟨?_, ?_⟩, fun hne => ?_⟩
  · simp only [least?_eq_some_iff, Term.le_iff_compare_ne_gt]
  · simp only [greatest?_eq_some_iff, Term.le_iff_compare_ne_gt]
  · have hcanonical : x.canonical.terms ≠ [] := by
      rw [ne_eq, ← List.length_eq_zero_iff, length_terms_canonical, List.length_eq_zero_iff]
      exact hne
    have hhead := List.head?_eq_some_head hcanonical
    have hlast := List.getLast?_eq_some_getLast hcanonical
    refine ⟨_, _, x.least?_eq_head?_canonical.trans hhead,
      x.greatest?_eq_getLast?_canonical.trans hlast, hhead, hlast, fun hsorted => ?_⟩
    have hterms : x.canonical.terms = x.terms :=
      congrArg terms (isCanonical_iff_canonical_eq.mp hsorted)
    rw [← hterms]
    exact ⟨hhead, hlast⟩

/-- Equal neighbours stand in order. -/
theorem isCanonical_decides_order_sample :
    let p : Term := .ofValues 1 0 .public (by decide) (by decide)
    let q : Term := .ofValues 0 3 .internal (by decide) (by decide)
    let x : LinearCombination := ⟨[p, q, q]⟩
    x.terms ≠ [] ∧ x.isCanonical = true ∧
      ∃ s t, x.least? = some s ∧ x.greatest? = some t ∧ x.canonical.terms.head? = some s ∧
        x.canonical.terms.getLast? = some t ∧ x.terms.head? = some s ∧
        x.terms.getLast? = some t := by
  intro p q x
  have hne : x.terms ≠ [] := List.cons_ne_nil _ _
  have hsorted : x.isCanonical = true := by decide
  obtain ⟨-, -, -, -, hends⟩ := isCanonical_decides_order x
  obtain ⟨s, t, hs, ht, hhead, hlast, hsame⟩ := hends hne
  exact ⟨hne, hsorted, s, t, hs, ht, hhead, hlast, hsame hsorted⟩

end RankOne.LinearCombination
