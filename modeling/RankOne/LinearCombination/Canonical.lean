import RankOne.LinearCombination.Basic

/-! The canonical form of a linear combination: its terms, sorted into the canonical
order with repetitions kept. Two combinations have the same canonical form exactly
when they hold the same terms equally often. -/
namespace RankOne.LinearCombination

def canonical (x : LinearCombination) : LinearCombination := ⟨x.terms.mergeSort⟩

/-- Whether no term is followed by one that comes before it. -/
def ascending : List Term → Bool
  | a :: b :: rest => a ≤ b && ascending (b :: rest)
  | _ => true

/-- Whether the terms already stand in canonical order; only neighbours are compared. -/
def isCanonical (x : LinearCombination) : Bool := ascending x.terms

theorem perm_canonical (x : LinearCombination) : x.canonical.terms.Perm x.terms :=
  List.mergeSort_perm _ _

theorem pairwise_canonical (x : LinearCombination) : x.canonical.terms.Pairwise (· ≤ ·) := by
  have h := @List.pairwise_mergeSort Term (fun a b => decide (a ≤ b))
    (fun a b c hab hbc => by simpa using Term.le_trans (by simpa using hab) (by simpa using hbc))
    (fun a b => by simpa using Term.le_total a b) x.terms
  exact h.imp fun hab => by simpa using hab

/-- Terms can be sorted in one way only. -/
theorem eq_of_perm_of_pairwise {xs ys : List Term} (hp : xs.Perm ys)
    (hx : xs.Pairwise (· ≤ ·)) (hy : ys.Pairwise (· ≤ ·)) : xs = ys :=
  hp.eq_of_pairwise (fun _ _ _ _ => Term.le_antisymm) hx hy

theorem canonical_eq_iff_perm {x y : LinearCombination} :
    x.canonical = y.canonical ↔ x.terms.Perm y.terms := by
  constructor
  · intro h
    exact (perm_canonical x).symm.trans (h ▸ perm_canonical y)
  · intro h
    exact LinearCombination.ext (eq_of_perm_of_pairwise
      (((perm_canonical x).trans h).trans (perm_canonical y).symm)
      (pairwise_canonical x) (pairwise_canonical y))

@[simp] theorem canonical_canonical (x : LinearCombination) : x.canonical.canonical = x.canonical :=
  canonical_eq_iff_perm.2 (perm_canonical x)

@[simp] theorem mem_terms_canonical {x : LinearCombination} {t : Term} :
    t ∈ x.canonical.terms ↔ t ∈ x.terms :=
  (perm_canonical x).mem_iff

@[simp] theorem length_terms_canonical (x : LinearCombination) :
    x.canonical.terms.length = x.terms.length :=
  (perm_canonical x).length_eq

theorem ascending_iff_pairwise {ts : List Term} : ascending ts = true ↔ ts.Pairwise (· ≤ ·) := by
  induction ts with
  | nil => simp [ascending]
  | cons a rest ih =>
    cases rest with
    | nil => simp [ascending]
    | cons b rest =>
      simp only [ascending, Bool.and_eq_true, decide_eq_true_eq, ih, List.pairwise_cons,
        List.mem_cons, forall_eq_or_imp]
      constructor
      · rintro ⟨hab, hb, hrest⟩
        exact ⟨⟨hab, fun c hc => Term.le_trans hab (hb c hc)⟩, hb, hrest⟩
      · rintro ⟨⟨hab, _⟩, hb, hrest⟩
        exact ⟨hab, hb, hrest⟩

theorem isCanonical_iff_canonical_eq {x : LinearCombination} :
    x.isCanonical = true ↔ x.canonical = x := by
  rw [isCanonical, ascending_iff_pairwise]
  constructor
  · intro h
    exact LinearCombination.ext (eq_of_perm_of_pairwise (perm_canonical x) (pairwise_canonical x) h)
  · intro h
    exact h ▸ pairwise_canonical x

theorem canonical_eq_of_perm {x y : LinearCombination} (hp : x.terms.Perm y.terms)
    (hy : y.isCanonical = true) : x.canonical = y :=
  (canonical_eq_iff_perm.2 hp).trans (isCanonical_iff_canonical_eq.1 hy)

@[simp] theorem canonical_empty : empty.canonical = empty := isCanonical_iff_canonical_eq.1 rfl

@[simp] theorem canonical_single (t : Term) : (single t).canonical = single t :=
  isCanonical_iff_canonical_eq.1 rfl

end RankOne.LinearCombination
