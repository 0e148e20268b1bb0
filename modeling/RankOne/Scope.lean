import RankOne.LinearCombination.Basic

/-! What a term may refer to: the coefficients of a table and the declared variables
of each visibility. Virtual variables need no declaration. -/
namespace RankOne

structure Counts where
  publics : Nat
  secrets : Nat
  internals : Nat
  deriving DecidableEq, Repr

namespace Counts

def total (n : Counts) : Nat := n.publics + n.secrets + n.internals

/-- How many variables a visibility has, where it is limited. -/
def limit? (n : Counts) : Visibility → Option Nat
  | .public => some n.publics
  | .secret => some n.secrets
  | .internal => some n.internals
  | .unset | .virtual => none

end Counts

structure Scope where
  counts : Counts
  tableSize : Nat
  deriving DecidableEq, Repr

namespace Scope

/-- What is wrong with a term at a site: its coefficient is looked at before its visibility,
and that before its variable. -/
def termFault (scope : Scope) (site : Site) (t : Term) : Option Fault :=
  if scope.tableSize ≤ t.coefficientId then
    some (.unknownCoefficient t.coefficientId scope.tableSize)
  else if t.visibility = .unset then some (.unsetVisibility site)
  else
    match scope.counts.limit? t.visibility with
    | some limit =>
      if limit ≤ t.variableId then
        some (.undeclaredVariable site t.visibility t.variableId limit)
      else none
    | none => none

def fault (scope : Scope) (site : Site) (x : LinearCombination) : Option Fault :=
  x.terms.findSome? (scope.termFault site)

/-- A term that refers to a known coefficient and, unless it is virtual, to a declared variable. -/
structure Admits (scope : Scope) (t : Term) : Prop where
  coefficient_lt : t.coefficientId < scope.tableSize
  visibility_ne : t.visibility ≠ .unset
  public_lt : t.visibility = .public → t.variableId < scope.counts.publics
  secret_lt : t.visibility = .secret → t.variableId < scope.counts.secrets
  internal_lt : t.visibility = .internal → t.variableId < scope.counts.internals

theorem termFault_eq_none_iff {scope : Scope} {site : Site} {t : Term} :
    scope.termFault site t = none ↔ scope.Admits t := by
  have h : scope.termFault site t = none ↔ t.coefficientId < scope.tableSize ∧
      t.visibility ≠ .unset ∧
      ∀ limit, scope.counts.limit? t.visibility = some limit → t.variableId < limit := by
    unfold termFault
    grind
  rw [h]
  constructor
  · rintro ⟨hc, hu, hv⟩
    exact ⟨hc, hu, fun hw => hv _ (by rw [hw]; rfl), fun hw => hv _ (by rw [hw]; rfl),
      fun hw => hv _ (by rw [hw]; rfl)⟩
  · rintro ⟨hc, hu, hp, hs, hi⟩
    refine ⟨hc, hu, fun limit hl => ?_⟩
    unfold Counts.limit? at hl
    grind

theorem fault_eq_none_iff {scope : Scope} {site : Site} {x : LinearCombination} :
    scope.fault site x = none ↔ ∀ t ∈ x.terms, scope.Admits t := by
  simp only [fault, List.findSome?_eq_none_iff, termFault_eq_none_iff]

end Scope
end RankOne
