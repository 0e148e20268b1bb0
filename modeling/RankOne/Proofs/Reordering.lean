import Mathlib.Data.List.Forall2
import RankOne.System.Basic

/-! Systems that differ only in the order of terms within their linear combinations. No term
moves from one combination to another, and nothing but terms moves; putting a system into
canonical order is such a reordering. -/
namespace RankOne

/-! ## Related elements -/

section

variable {α β : Type} {γ : Type*} {R : α → β → Prop} {S : β → α → Prop}
  {f : α → γ} {g : β → γ}

theorem exists_getElem?_of_forall₂ {xs : List α} {ys : List β} (h : List.Forall₂ R xs ys)
    {i : Nat} {x : α} (hx : xs[i]? = some x) : ∃ y, ys[i]? = some y ∧ R x y := by
  induction h generalizing i with
  | nil => simp at hx
  | @cons a b as bs hab _ ih =>
    cases i with
    | zero =>
      obtain rfl : a = x := by simpa using hx
      exact ⟨b, rfl, hab⟩
    | succ i => exact ih hx

theorem exists_eq_some_of_rel {a : Option α} {b : Option β} (h : Option.Rel R a b) {x : α}
    (hx : a = some x) : ∃ y, b = some y ∧ R x y := by
  cases h with
  | none => cases hx
  | some hab =>
    cases hx
    exact ⟨_, rfl, hab⟩

theorem rel_swap (hswap : ∀ x y, R x y → S y x) {a : Option α} {b : Option β}
    (h : Option.Rel R a b) : Option.Rel S b a := by
  cases h with
  | none => exact .none
  | some hab => exact .some (hswap _ _ hab)

theorem map_eq_map_of_forall₂ {xs : List α} {ys : List β} (h : List.Forall₂ R xs ys)
    (hfg : ∀ x y, R x y → f x = g y) : xs.map f = ys.map g := by
  rw [← List.forall₂_eq_eq_eq, List.forall₂_map_left_iff, List.forall₂_map_right_iff]
  exact h.imp hfg

theorem map_eq_map_of_rel {a : Option α} {b : Option β} (h : Option.Rel R a b)
    (hfg : ∀ x y, R x y → f x = g y) : a.map f = b.map g := by
  cases h with
  | none => rfl
  | some hab => rw [Option.map_some, Option.map_some, hfg _ _ hab]

end

/-! ## Reorderings -/

/-- The same terms, each equally often. -/
def LinearCombination.Reordered (x y : LinearCombination) : Prop := x.terms.Perm y.terms

/-- Side by side, the same terms. -/
def Constraint.Reordered (c d : Constraint) : Prop :=
  ∀ operand, (c.operand operand).Reordered (d.operand operand)

/-- Input by input, the same terms. -/
structure Hint.Reordered (h k : Hint) : Prop where
  wire : h.wire = k.wire
  id : h.id = k.id
  inputs : List.Forall₂ LinearCombination.Reordered h.inputs k.inputs

/-- Constraint by constraint and hint by hint, the same terms, and all else unchanged. -/
structure System.Reordered (s t : System) : Prop where
  counts : s.counts = t.counts
  coefficients : s.coefficients = t.coefficients
  constraints : List.Forall₂ Constraint.Reordered s.constraints.toList t.constraints.toList
  hints : ∀ wire : Nat, Option.Rel Hint.Reordered s.hints[wire]? t.hints[wire]?
  logs : s.logs = t.logs
  debugMessages : s.debugMessages = t.debugMessages
  debugLinks : s.debugLinks = t.debugLinks

theorem LinearCombination.Reordered.symm {x y : LinearCombination} (h : x.Reordered y) :
    y.Reordered x :=
  List.Perm.symm h

theorem Constraint.Reordered.symm {c d : Constraint} (h : c.Reordered d) : d.Reordered c :=
  fun operand => (h operand).symm

theorem Hint.Reordered.symm {h k : Hint} (hk : h.Reordered k) : k.Reordered h where
  wire := hk.wire.symm
  id := hk.id.symm
  inputs := List.Forall₂.flip (hk.inputs.imp fun _ _ hxy => hxy.symm)

theorem System.Reordered.symm {s t : System} (h : s.Reordered t) : t.Reordered s where
  counts := h.counts.symm
  coefficients := h.coefficients.symm
  constraints := List.Forall₂.flip (h.constraints.imp fun _ _ hcd => hcd.symm)
  hints := fun wire => rel_swap (fun _ _ => .symm) (h.hints wire)
  logs := h.logs.symm
  debugMessages := h.debugMessages.symm
  debugLinks := h.debugLinks.symm

/-- A term of one combination is found in a reordering, at some position. -/
theorem LinearCombination.Reordered.exists_getElem? {x y : LinearCombination}
    (h : x.Reordered y) {position : Nat} {t : Term} (ht : x.terms[position]? = some t) :
    ∃ position' : Nat, y.terms[position']? = some t :=
  List.mem_iff_getElem?.mp (h.mem_iff.mp (List.mem_of_getElem? ht))

theorem System.Reordered.exists_constraint {s t : System} (h : s.Reordered t) {index : Nat}
    {c : Constraint} (hc : s.constraints[index]? = some c) :
    ∃ d, t.constraints[index]? = some d ∧ c.Reordered d := by
  rw [← Array.getElem?_toList] at hc ⊢
  exact exists_getElem?_of_forall₂ h.constraints hc

theorem System.Reordered.exists_hint {s t : System} (h : s.Reordered t) {wire : Nat} {hint : Hint}
    (hget : s.hints[wire]? = some hint) :
    ∃ other, t.hints[wire]? = some other ∧ hint.Reordered other :=
  exists_eq_some_of_rel (h.hints wire) hget

theorem System.Reordered.mem_hints {s t : System} (h : s.Reordered t) {wire : Nat}
    (hw : wire ∈ s.hints) : wire ∈ t.hints := by
  rw [← Std.ExtTreeMap.isSome_getElem?_iff_mem, Option.isSome_iff_exists] at hw ⊢
  obtain ⟨hint, hget⟩ := hw
  obtain ⟨other, hother, -⟩ := h.exists_hint hget
  exact ⟨other, hother⟩

/-! ## Canonical order -/

theorem LinearCombination.reordered_canonical (x : LinearCombination) :
    x.Reordered x.canonical :=
  (perm_canonical x).symm

theorem Constraint.reordered_canonical (c : Constraint) : c.Reordered c.canonical := by
  intro operand
  rw [operand_canonical]
  exact LinearCombination.reordered_canonical _

theorem Hint.reordered_canonical (h : Hint) : h.Reordered h.canonical where
  wire := rfl
  id := rfl
  inputs := List.forall₂_map_right_iff.mpr
    (List.forall₂_same.mpr fun x _ => x.reordered_canonical)

/-- Putting a system into canonical order only reorders terms. -/
theorem System.reordered_canonicalize (s : System) : s.Reordered s.canonicalize where
  counts := rfl
  coefficients := rfl
  constraints := by
    rw [canonicalize, Array.toList_map]
    exact List.forall₂_map_right_iff.mpr
      (List.forall₂_same.mpr fun c _ => c.reordered_canonical)
  hints := by
    intro wire
    have hget := s.hint?_canonicalize wire
    rw [hint?, hint?] at hget
    rw [hget]
    cases s.hints[wire]? with
    | none => exact .none
    | some h => exact .some h.reordered_canonical
  logs := rfl
  debugMessages := rfl
  debugLinks := rfl

end RankOne
