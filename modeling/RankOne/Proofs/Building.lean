import RankOne.LinearCombination.Edit
import RankOne.Proofs.CanonicalForm

/-! Linear combinations that grow step by step, with sorting in between. Nothing that is supplied
gets lost, and where it was sorted does not show in the canonical form. What was supplied up to the
last sort stands in canonical order, and behind it all else as it came. -/
namespace RankOne.LinearCombination

/-- All terms that a combination begins with or is given by a sequence of steps, in this order. -/
def suppliedBy (x : LinearCombination) (es : List Edit) : List Term :=
  x.terms ++ es.flatMap Edit.supplied

/-! ## One step -/

theorem perm_edit (x : LinearCombination) (e : Edit) :
    (x.edit e).terms.Perm (x.terms ++ e.supplied) := by
  cases e with
  | push t => exact .refl _
  | extend ts => exact .refl _
  | sort =>
    rw [edit, Edit.supplied, List.append_nil]
    exact perm_canonical x

theorem terms_edit_of_ne_sort (x : LinearCombination) {e : Edit} (he : e ≠ .sort) :
    (x.edit e).terms = x.terms ++ e.supplied := by
  cases e with
  | push t => rfl
  | extend ts => rfl
  | sort => exact absurd rfl he

/-! ## All steps -/

theorem edits_cons (x : LinearCombination) (e : Edit) (es : List Edit) :
    x.edits (e :: es) = (x.edit e).edits es := rfl

theorem edits_append (x : LinearCombination) (es fs : List Edit) :
    x.edits (es ++ fs) = (x.edits es).edits fs :=
  List.foldl_append

theorem suppliedBy_cons (x : LinearCombination) (e : Edit) (es : List Edit) :
    x.suppliedBy (e :: es) = x.terms ++ e.supplied ++ es.flatMap Edit.supplied := by
  rw [suppliedBy, List.flatMap_cons, List.append_assoc]

/-- No step loses a term or makes one up. -/
theorem perm_edits (x : LinearCombination) (es : List Edit) :
    (x.edits es).terms.Perm (x.suppliedBy es) := by
  induction es generalizing x with
  | nil => simp [edits, suppliedBy]
  | cons e es ih =>
    rw [edits_cons, suppliedBy_cons]
    exact (ih (x.edit e)).trans ((perm_edit x e).append_right _)

theorem terms_edits_of_notMem_sort (x : LinearCombination) {es : List Edit} (h : .sort ∉ es) :
    (x.edits es).terms = x.suppliedBy es := by
  induction es generalizing x with
  | nil => simp [edits, suppliedBy]
  | cons e es ih =>
    rw [List.mem_cons, not_or] at h
    obtain ⟨he, hes⟩ := h
    rw [edits_cons, ih (x.edit e) hes, suppliedBy_cons, suppliedBy,
      terms_edit_of_ne_sort x (Ne.symm he)]

theorem canonical_edits (x : LinearCombination) (es : List Edit) :
    (x.edits es).canonical = canonical ⟨x.suppliedBy es⟩ :=
  canonical_eq_iff_perm.mpr (perm_edits x es)

/-- The last sort settles the order of what was supplied before it, and of nothing else. -/
theorem terms_edits_of_last_sort (x : LinearCombination) (before : List Edit) {after : List Edit}
    (h : .sort ∉ after) :
    (x.edits (before ++ .sort :: after)).terms =
      (canonical ⟨x.suppliedBy before⟩).terms ++ after.flatMap Edit.supplied := by
  calc (x.edits (before ++ .sort :: after)).terms
      = ((x.edits before).canonical.edits after).terms := by rw [edits_append, edits_cons, edit]
    _ = (x.edits before).canonical.suppliedBy after := terms_edits_of_notMem_sort _ h
    _ = (canonical ⟨x.suppliedBy before⟩).terms ++ after.flatMap Edit.supplied := by
      rw [canonical_edits, suppliedBy]

theorem exists_last_sort {es : List Edit} (h : .sort ∈ es) :
    ∃ before after, es = before ++ .sort :: after ∧ .sort ∉ after := by
  obtain ⟨after, before, hes, hafter⟩ := List.eq_append_cons_of_mem (List.mem_reverse.mpr h)
  refine ⟨before.reverse, after.reverse, ?_, by simpa using hafter⟩
  rw [← List.reverse_reverse es, hes]
  simp

/-- A combination that grows from any beginning holds exactly the terms supplied to it, and it has
their canonical form, however often it was sorted. What was supplied up to the last sort is in
canonical order, followed by all that came later in the order of supply. -/
theorem edits_hold_supplied (x : LinearCombination) (es : List Edit) :
    (∀ t, (x.edits es).terms.count t = (x.terms ++ es.flatMap Edit.supplied).count t) ∧
    (x.edits es).canonical = canonical ⟨x.terms ++ es.flatMap Edit.supplied⟩ ∧
    (.sort ∉ es → (x.edits es).terms = x.terms ++ es.flatMap Edit.supplied) ∧
    (.sort ∈ es → ∃ before after, es = before ++ .sort :: after ∧ .sort ∉ after) ∧
    (∀ before after, es = before ++ .sort :: after → .sort ∉ after →
      (x.edits es).terms =
        (canonical ⟨x.terms ++ before.flatMap Edit.supplied⟩).terms ++
          after.flatMap Edit.supplied) := by
  refine ⟨fun t => (perm_edits x es).count_eq t, canonical_edits x es,
    terms_edits_of_notMem_sort x, exists_last_sort, ?_⟩
  rintro before after rfl hafter
  exact terms_edits_of_last_sort x before hafter

/-- Sorted once, between the second and the third step. -/
theorem edits_hold_supplied_sample :
    let p : Term := .ofValues 1 0 .public (by decide) (by decide)
    let q : Term := .ofValues 0 3 .internal (by decide) (by decide)
    let before : List Edit := [.push q, .extend [p]]
    let after : List Edit := [.push q, .push p]
    let x := single q
    Edit.sort ∈ before ++ .sort :: after ∧ .sort ∉ after ∧ .sort ∉ before ∧
      (x.edits before).terms = [q, q, p] ∧
      (x.edits (before ++ .sort :: after)).terms = (canonical ⟨[q, q, p]⟩).terms ++ [q, p] ∧
      ∃ b a, before ++ .sort :: after = b ++ .sort :: a ∧ .sort ∉ a := by
  intro p q before after x
  have hmem : Edit.sort ∈ before ++ .sort :: after := by decide
  have hafter : Edit.sort ∉ after := by decide
  have hbefore : Edit.sort ∉ before := by decide
  obtain ⟨-, -, -, hlast, hsorted⟩ := edits_hold_supplied x (before ++ .sort :: after)
  exact ⟨hmem, hafter, hbefore, (edits_hold_supplied x before).2.2.1 hbefore,
    hsorted before after rfl hafter, hlast hmem⟩

end RankOne.LinearCombination
