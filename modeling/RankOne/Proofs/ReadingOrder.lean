import RankOne.Proofs.Earliest
import RankOne.Proofs.WellFormedness

/-! Which fault validation reports where several coexist. Every check of a system has a
place in the order of reading; the reported fault is that of the first check that fails. -/
namespace RankOne

/-! ## Checks and their order -/

/-- The checks of a term, in the order in which they are made. -/
inductive TermCheck where
  | coefficient
  | visibility
  | variableId
  deriving DecidableEq, Repr

def TermCheck.rank : TermCheck → Nat
  | coefficient => 0
  | visibility => 1
  | variableId => 2

def Operand.rank : Operand → Nat
  | left => 0
  | right => 1
  | output => 2

/-- The checks of a system: of a term in a side of a constraint, of the wire of a hint, of a
term in an input of a hint, and of the output of a constraint as a whole. -/
inductive Check where
  | term (index : Nat) (operand : Operand) (position : Nat) (check : TermCheck)
  | wire (wire : Nat)
  | input (wire : Nat) (input position : Nat) (check : TermCheck)
  | output (index : Nat)
  deriving DecidableEq, Repr

/-- Checks are made in the lexicographic order of their places: those of the constraints, then
those of the hints by their wires, then those of the outputs. -/
def Check.place : Check → List Nat
  | term index operand position check => [0, index, operand.rank, position, check.rank]
  | wire w => [1, w, 0]
  | input w i position check => [1, w, 1, i, position, check.rank]
  | output index => [2, index]

/-- A check that fails for a term at a site, with the fault that describes it. -/
inductive Scope.Violates (scope : Scope) (site : Site) (t : Term) : TermCheck → Fault → Prop
  | coefficient (h : scope.tableSize ≤ t.coefficientId) :
      Violates scope site t .coefficient (.unknownCoefficient t.coefficientId scope.tableSize)
  | visibility (h : t.visibility = .unset) :
      Violates scope site t .visibility (.unsetVisibility site)
  | publicId (hv : t.visibility = .public) (h : scope.counts.publics ≤ t.variableId) :
      Violates scope site t .variableId
        (.undeclaredVariable site .public t.variableId scope.counts.publics)
  | secretId (hv : t.visibility = .secret) (h : scope.counts.secrets ≤ t.variableId) :
      Violates scope site t .variableId
        (.undeclaredVariable site .secret t.variableId scope.counts.secrets)
  | internalId (hv : t.visibility = .internal) (h : scope.counts.internals ≤ t.variableId) :
      Violates scope site t .variableId
        (.undeclaredVariable site .internal t.variableId scope.counts.internals)

/-- A check that fails in a system, with the fault that describes it. -/
inductive System.Fails (s : System) : Check → Fault → Prop
  | term {index : Nat} {c : Constraint} {operand : Operand} {position : Nat} {t : Term}
      {check : TermCheck} {fault : Fault} (hc : s.constraints[index]? = some c)
      (ht : (c.operand operand).terms[position]? = some t)
      (h : s.scope.Violates (.constraint index operand) t check fault) :
      Fails s (.term index operand position check) fault
  | wire {wire : Nat} (hw : wire ∈ s.hints) (h : s.counts.internals ≤ wire) :
      Fails s (.wire wire) (.undeclaredHintWire wire s.counts.internals)
  | input {wire : Nat} {hint : Hint} {input : Nat} {x : LinearCombination} {position : Nat}
      {t : Term} {check : TermCheck} {fault : Fault} (hw : s.hints[wire]? = some hint)
      (hx : hint.inputs[input]? = some x) (ht : x.terms[position]? = some t)
      (h : s.scope.Violates (.hint wire) t check fault) :
      Fails s (.input wire input position check) fault
  | output {index : Nat} {c : Constraint} {t : Term} (hc : s.constraints[index]? = some c)
      (ho : c.output.terms = [t]) (hv : t.visibility = .internal) (h : t.variableId ∈ s.hints) :
      Fails s (.output index) (.constrainedHintWire t.variableId index)

theorem Operand.rank_injective {a b : Operand} (h : a.rank = b.rank) : a = b := by
  cases a <;> cases b <;> first | rfl | cases h

theorem Constraint.pairwise_rank_operands (c : Constraint) :
    c.operands.Pairwise fun x y => x.1.rank < y.1.rank := by
  simp [operands, Operand.all, Operand.rank]

theorem TermCheck.rank_injective {a b : TermCheck} (h : a.rank = b.rank) : a = b := by
  cases a <;> cases b <;> first | rfl | cases h

theorem Check.place_injective {a b : Check} (h : a.place = b.place) : a = b := by
  cases a <;> cases b <;> simp [place] at h
  case term.term =>
    obtain ⟨rfl, ho, rfl, hk⟩ := h
    rw [Operand.rank_injective ho, TermCheck.rank_injective hk]
  case wire.wire => rw [h]
  case input.input =>
    obtain ⟨rfl, rfl, rfl, hk⟩ := h
    rw [TermCheck.rank_injective hk]
  case output.output => rw [h]

/-- A check of a term fails in one way only. -/
theorem Scope.Violates.fault_unique {scope : Scope} {site : Site} {t : Term} {check : TermCheck}
    {f g : Fault} (hf : scope.Violates site t check f) (hg : scope.Violates site t check g) :
    f = g := by
  cases hf <;> cases hg <;> simp_all

theorem System.Fails.fault_unique {s : System} {check : Check} {f g : Fault}
    (hf : s.Fails check f) (hg : s.Fails check g) : f = g := by
  cases hf with
  | term hc ht h =>
    cases hg with
    | term hc' ht' h' =>
      obtain rfl := Option.some.inj (hc.symm.trans hc')
      obtain rfl := Option.some.inj (ht.symm.trans ht')
      exact h.fault_unique h'
  | wire => cases hg; rfl
  | input hw hx ht h =>
    cases hg with
    | input hw' hx' ht' h' =>
      obtain rfl := Option.some.inj (hw.symm.trans hw')
      obtain rfl := Option.some.inj (hx.symm.trans hx')
      obtain rfl := Option.some.inj (ht.symm.trans ht')
      exact h.fault_unique h'
  | output hc ho =>
    cases hg with
    | output hc' ho' =>
      obtain rfl := Option.some.inj (hc.symm.trans hc')
      obtain ⟨rfl, -⟩ := List.cons.inj (ho.symm.trans ho')
      rfl

/-! ## One term -/

theorem Scope.violates_variableId_iff {scope : Scope} {site : Site} {t : Term} {fault : Fault} :
    scope.Violates site t .variableId fault ↔
      ∃ limit, scope.counts.limit? t.visibility = some limit ∧ limit ≤ t.variableId ∧
        fault = .undeclaredVariable site t.visibility t.variableId limit := by
  constructor
  · intro h
    cases h with
    | publicId hv h => exact ⟨scope.counts.publics, by rw [hv]; rfl, h, by rw [hv]⟩
    | secretId hv h => exact ⟨scope.counts.secrets, by rw [hv]; rfl, h, by rw [hv]⟩
    | internalId hv h => exact ⟨scope.counts.internals, by rw [hv]; rfl, h, by rw [hv]⟩
  · intro hfound
    rcases hfound with ⟨limit, hlimit, hle, rfl⟩
    cases hv : t.visibility <;> rw [hv] at hlimit <;> cases hlimit
    · exact .internalId hv hle
    · exact .secretId hv hle
    · exact .publicId hv hle

theorem Scope.earliest_termFault (scope : Scope) (site : Site) (t : Term) :
    Earliest (fun p f => ∃ check : TermCheck, p = [check.rank] ∧ scope.Violates site t check f)
      (scope.termFault site t) := by
  unfold termFault
  split
  next hc =>
    refine .first ⟨.coefficient, rfl, .coefficient hc⟩ ?_
    intro p g hfound
    rcases hfound with ⟨check, rfl, -⟩
    cases check <;> decide
  next hc =>
    split
    next hu =>
      refine .first ⟨.visibility, rfl, .visibility hu⟩ ?_
      intro p g hfound
      rcases hfound with ⟨check, rfl, hviolates⟩
      cases check with
      | coefficient =>
        cases hviolates with
        | coefficient h => exact absurd h hc
      | visibility => decide
      | variableId => decide
    next hu =>
      -- From here on only the variable can be at fault.
      have honly : ∀ {check : TermCheck} {g : Fault}, scope.Violates site t check g →
          check = .variableId := by
        intro check g h
        cases h with
        | coefficient h => exact absurd h hc
        | visibility h => exact absurd h hu
        | publicId | secretId | internalId => rfl
      split
      next limit hlimit =>
        split
        next hle =>
          refine .first ⟨.variableId, rfl, violates_variableId_iff.mpr ⟨limit, hlimit, hle, rfl⟩⟩ ?_
          intro p g hfound
          rcases hfound with ⟨check, rfl, hviolates⟩
          obtain rfl := honly hviolates
          exact le_refl _
        next hle =>
          refine .nothing ?_
          intro p g hfound
          rcases hfound with ⟨check, rfl, hviolates⟩
          obtain rfl := honly hviolates
          obtain ⟨limit', hlimit', hle', _⟩ := violates_variableId_iff.mp hviolates
          obtain rfl := Option.some.inj (hlimit.symm.trans hlimit')
          exact hle hle'
      next hlimit =>
        refine .nothing ?_
        intro p g hfound
        rcases hfound with ⟨check, rfl, hviolates⟩
        obtain rfl := honly hviolates
        obtain ⟨limit, hlimit', _⟩ := violates_variableId_iff.mp hviolates
        exact absurd (hlimit.symm.trans hlimit') (by simp)

/-! ## The scans of a system -/

theorem Scope.earliest_fault (scope : Scope) (site : Site) (x : LinearCombination) :
    Earliest (fun p f => ∃ (position : Nat) (t : Term) (check : TermCheck),
        x.terms[position]? = some t ∧ p = [position, check.rank] ∧
          scope.Violates site t check f)
      (scope.fault site x) := by
  refine (Earliest.findSome?_index (scope.earliest_termFault site)).congr fun p f => ?_
  constructor
  · intro hfound
    rcases hfound with ⟨position, t, _, ht, rfl, check, rfl, h⟩
    exact ⟨position, t, check, ht, rfl, h⟩
  · intro hfound
    rcases hfound with ⟨position, t, check, ht, rfl, h⟩
    exact ⟨position, t, [check.rank], ht, rfl, check, rfl, h⟩

namespace System

theorem earliest_constraintFault (scope : Scope) (index : Nat) (c : Constraint) :
    Earliest (fun p f => ∃ (operand : Operand) (position : Nat) (t : Term) (check : TermCheck),
        (c.operand operand).terms[position]? = some t ∧
          p = [operand.rank, position, check.rank] ∧
          scope.Violates (.constraint index operand) t check f)
      (constraintFault scope index c) := by
  have hsides := Earliest.findSome? c.pairwise_rank_operands fun x _ =>
    scope.earliest_fault (.constraint index x.1) x.2
  refine hsides.congr fun p f => ?_
  constructor
  · intro hfound
    rcases hfound with ⟨⟨operand, x⟩, hx, _, rfl, position, t, check, ht, rfl, h⟩
    obtain rfl := mem_operands_iff.mp hx
    exact ⟨operand, position, t, check, ht, rfl, h⟩
  · intro hfound
    rcases hfound with ⟨operand, position, t, check, ht, rfl, h⟩
    exact ⟨(operand, c.operand operand), mem_operands_iff.mpr rfl, [position, check.rank], rfl,
      position, t, check, ht, rfl, h⟩

theorem earliest_firstConstraintFault (s : System) :
    Earliest (fun p f => ∃ (index : Nat) (operand : Operand) (position : Nat) (check : TermCheck),
        p = [index, operand.rank, position, check.rank] ∧
          s.Fails (.term index operand position check) f)
      s.firstConstraintFault := by
  unfold firstConstraintFault indexedConstraints
  have hconstraint : ∀ (c : Constraint) (index : Nat), s.constraints.toList[index]? = some c →
      Earliest _ (constraintFault s.scope index c) :=
    fun c index _ => earliest_constraintFault s.scope index c
  refine (Earliest.findSome?_zipIdx hconstraint).congr fun p f => ?_
  simp only [Array.getElem?_toList]
  constructor
  · intro hfound
    rcases hfound with ⟨index, c, _, hc, rfl, operand, position, t, check, ht, rfl, h⟩
    exact ⟨index, operand, position, check, rfl, .term hc ht h⟩
  · intro hfound
    rcases hfound with ⟨index, operand, position, check, rfl, h⟩
    cases h with
    | @term _ c _ _ t _ _ hc ht h =>
      exact ⟨index, c, _, hc, rfl, operand, position, t, check, ht, rfl, h⟩

theorem earliest_hintFault (scope : Scope) (wire : Nat) (hint : Hint) :
    Earliest (fun p f =>
        (p = [0] ∧ scope.counts.internals ≤ wire ∧
          f = .undeclaredHintWire wire scope.counts.internals) ∨
        ∃ (input : Nat) (x : LinearCombination) (position : Nat) (t : Term) (check : TermCheck),
          hint.inputs[input]? = some x ∧ x.terms[position]? = some t ∧
            p = [1, input, position, check.rank] ∧ scope.Violates (.hint wire) t check f)
      (hintFault scope wire hint) := by
  unfold hintFault
  split
  next hw =>
    refine .first (.inl ⟨rfl, hw, rfl⟩) ?_
    intro p g hfound
    rcases hfound with ⟨rfl, -⟩ | ⟨input, x, position, t, check, -, -, rfl, -⟩
    · exact le_refl _
    · exact cons_le_cons_of_lt (by decide) _ _
  next hw =>
    have hinputs : Earliest _ (hint.inputs.findSome? (scope.fault (.hint wire))) :=
      .findSome?_index (scope.earliest_fault (.hint wire))
    refine (hinputs.cons 1).congr fun p f => ?_
    constructor
    · intro hfound
      rcases hfound with ⟨_, rfl, input, x, _, hx, rfl, position, t, check, ht, rfl, h⟩
      exact .inr ⟨input, x, position, t, check, hx, ht, rfl, h⟩
    · intro hfound
      rcases hfound with ⟨-, hw', -⟩ | ⟨input, x, position, t, check, hx, ht, rfl, h⟩
      · exact absurd hw' hw
      · exact ⟨_, rfl, input, x, _, hx, rfl, position, t, check, ht, rfl, h⟩

theorem earliest_firstHintFault (s : System) :
    Earliest (fun p f =>
        (∃ wire, p = [wire, 0] ∧ s.Fails (.wire wire) f) ∨
        ∃ (wire input position : Nat) (check : TermCheck),
          p = [wire, 1, input, position, check.rank] ∧
            s.Fails (.input wire input position check) f)
      s.firstHintFault := by
  have horder : s.hints.toList.Pairwise fun x y => x.1 < y.1 :=
    Std.ExtTreeMap.ordered_keys_toList.imp fun h => Nat.compare_eq_lt.mp h
  have hhints := Earliest.findSome? horder fun x _ => earliest_hintFault s.scope x.1 x.2
  refine hhints.congr fun p f => ?_
  constructor
  · intro hfound
    rcases hfound with ⟨⟨wire, hint⟩, hmem, _, rfl, hfound⟩
    rcases hfound with ⟨rfl, hle, rfl⟩ | ⟨input, x, position, t, check, hx, ht, rfl, h⟩
    · have hw : wire ∈ s.hints := Std.ExtTreeMap.isSome_getElem?_iff_mem.mp
        (by simp [Std.ExtTreeMap.mem_toList_iff_getElem?_eq_some.mp hmem])
      exact .inl ⟨wire, rfl, .wire hw hle⟩
    · have hw := Std.ExtTreeMap.mem_toList_iff_getElem?_eq_some.mp hmem
      exact .inr ⟨wire, input, position, check, rfl, .input hw hx ht h⟩
  · intro hfound
    rcases hfound with ⟨wire, rfl, h⟩ | ⟨wire, input, position, check, rfl, h⟩
    · cases h with
      | wire hw hle =>
        obtain ⟨hint, hget⟩ := Option.isSome_iff_exists.mp
          (Std.ExtTreeMap.isSome_getElem?_iff_mem.mpr hw)
        exact ⟨(wire, hint), Std.ExtTreeMap.mem_toList_iff_getElem?_eq_some.mpr hget, [0], rfl,
          .inl ⟨rfl, hle, rfl⟩⟩
    · cases h with
      | @input _ hint _ x _ t _ _ hw hx ht h =>
        exact ⟨(wire, hint), Std.ExtTreeMap.mem_toList_iff_getElem?_eq_some.mpr hw, _, rfl,
          .inr ⟨input, x, position, t, check, hx, ht, rfl, h⟩⟩

theorem earliest_firstOutputFault (s : System) :
    Earliest (fun p f => ∃ index, p = [index] ∧ s.Fails (.output index) f)
      s.firstOutputFault := by
  have houtput : ∀ (c : Constraint) (index : Nat),
      Earliest (fun p f => p = [] ∧ s.outputFault index c = some f) (s.outputFault index c) := by
    intro c index
    cases s.outputFault index c with
    | none => exact .nothing fun p f h => by cases h.2
    | some f => exact .first ⟨rfl, rfl⟩ fun q g h => h.1 ▸ le_refl _
  unfold firstOutputFault indexedConstraints
  have hconstraint : ∀ (c : Constraint) (index : Nat), s.constraints.toList[index]? = some c →
      Earliest _ (s.outputFault index c) :=
    fun c index _ => houtput c index
  refine (Earliest.findSome?_zipIdx hconstraint).congr fun p f => ?_
  simp only [Array.getElem?_toList, outputFault_eq_some_iff]
  constructor
  · intro hfound
    rcases hfound with ⟨index, c, _, hc, rfl, rfl, t, ho, hv, hmem, rfl⟩
    exact ⟨index, rfl, .output hc ho hv hmem⟩
  · intro hfound
    rcases hfound with ⟨index, rfl, h⟩
    cases h with
    | @output _ c t hc ho hv hmem =>
      exact ⟨index, c, [], hc, rfl, rfl, t, ho, hv, hmem, rfl⟩

/-! ## The first fault -/

theorem earliest_fault? (s : System) :
    Earliest (fun p f => ∃ check : Check, p = check.place ∧ s.Fails check f) s.fault? := by
  have hconstraints := s.earliest_firstConstraintFault.cons 0
  have hhints := s.earliest_firstHintFault.cons 1
  have houtputs := s.earliest_firstOutputFault.cons 2
  have hterms := hconstraints.or hhints (by
    intro p f q g hp hq
    obtain ⟨p, rfl, -⟩ := hp
    obtain ⟨q, rfl, -⟩ := hq
    exact cons_le_cons_of_lt (by decide) p q)
  have hall := hterms.or houtputs (by
    intro p f q g hp hq
    obtain ⟨q, rfl, -⟩ := hq
    rcases hp with ⟨p, rfl, -⟩ | ⟨p, rfl, -⟩
    · exact cons_le_cons_of_lt (by decide) p q
    · exact cons_le_cons_of_lt (by decide) p q)
  refine hall.congr fun p f => ?_
  constructor
  · intro hfound
    rcases hfound with (⟨_, rfl, hfound⟩ | ⟨_, rfl, hfound⟩) | ⟨_, rfl, index, rfl, h⟩
    · rcases hfound with ⟨index, operand, position, check, rfl, h⟩
      exact ⟨.term index operand position check, rfl, h⟩
    · rcases hfound with ⟨wire, rfl, h⟩ | ⟨wire, input, position, check, rfl, h⟩
      · exact ⟨.wire wire, rfl, h⟩
      · exact ⟨.input wire input position check, rfl, h⟩
    · exact ⟨.output index, rfl, h⟩
  · intro hfound
    rcases hfound with ⟨check, rfl, h⟩
    cases check with
    | term index operand position check =>
      exact .inl (.inl ⟨_, rfl, index, operand, position, check, rfl, h⟩)
    | wire wire => exact .inl (.inr ⟨_, rfl, .inl ⟨wire, rfl, h⟩⟩)
    | input wire input position check =>
      exact .inl (.inr ⟨_, rfl, .inr ⟨wire, input, position, check, rfl, h⟩⟩)
    | output index => exact .inr ⟨_, rfl, index, rfl, h⟩

theorem fault?_eq_some_iff {s : System} {fault : Fault} :
    s.fault? = some fault ↔
      ∃ check, s.Fails check fault ∧
        ∀ other g, s.Fails other g → check.place ≤ other.place := by
  have hunique : ∀ p f g, (∃ check : Check, p = check.place ∧ s.Fails check f) →
      (∃ check : Check, p = check.place ∧ s.Fails check g) → f = g := by
    intro p f g hf hg
    obtain ⟨check, rfl, hf⟩ := hf
    obtain ⟨other, hplace, hg⟩ := hg
    obtain rfl := Check.place_injective hplace
    exact hf.fault_unique hg
  rw [s.earliest_fault?.eq_some_iff hunique]
  constructor
  · intro hfirst
    obtain ⟨_, ⟨check, rfl, hcheck⟩, hleast⟩ := hfirst
    exact ⟨check, hcheck, fun other g hg => hleast _ g ⟨other, rfl, hg⟩⟩
  · intro hfirst
    obtain ⟨check, hcheck, hleast⟩ := hfirst
    refine ⟨check.place, ⟨check, rfl, hcheck⟩, ?_⟩
    intro q g hother
    obtain ⟨other, rfl, hg⟩ := hother
    exact hleast other g hg

/-- An unset term, an undeclared variable, a hint on an undeclared wire and a constrained hint
wire coexist here, and the unset term is read first. -/
example :
    let unset : Term := .ofValues 1 0 .unset (by decide) (by decide)
    let virtual : Term := .ofValues 1 3 .virtual (by decide) (by decide)
    let wire : Term := .ofValues 1 0 .internal (by decide) (by decide)
    let s : System :=
      { System.empty ⟨0, 0, 0⟩ .seeded with
        constraints :=
          #[⟨.single virtual, .empty, ⟨[virtual, unset]⟩⟩, ⟨.empty, .empty, .single wire⟩]
        hints := (∅ : Std.ExtTreeMap Nat Hint).insert 0 ⟨0, ⟨7⟩, []⟩ }
    s.fault? = some (.unsetVisibility (.constraint 0 .output)) :=
  rfl

/-- Validation reports the fault of the first check that fails in reading order. -/
theorem validate_reports_earliest_fault (s : System) (fault : Fault) :
    s.validate = .error fault ↔
      ∃ check, s.Fails check fault ∧
        ∀ other g, s.Fails other g → check.place ≤ other.place :=
  validate_eq_error_iff.trans fault?_eq_some_iff

end System
end RankOne
