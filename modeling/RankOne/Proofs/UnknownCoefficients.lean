import RankOne.Proofs.FaultSubject
import RankOne.Proofs.Traversal
import RankOne.System.Rendering

/-! A text is refused for an unknown coefficient and for nothing else, and the coefficient is that
of the first such term in reading order. Validation reads the same terms in the same order but asks
more of each, so where there is no text, validation stops at that term or at one before it. -/
namespace RankOne

/-! ## Terms in reading order -/

/-- The term at a place of a combination: its position. -/
def LinearCombination.TermAt (x : LinearCombination) (place : List Nat) (t : Term) : Prop :=
  ∃ position : Nat, place = [position] ∧ x.terms[position]? = some t

/-- The term at a place of a constraint: the side, then the place in its combination. -/
def Constraint.TermAt (c : Constraint) (place : List Nat) (t : Term) : Prop :=
  ∃ (operand : Operand) (rest : List Nat), place = operand.rank :: rest ∧
    (c.operand operand).TermAt rest t

/-- The term at a place of a system: the index of a constraint, then the place in it. -/
def System.TermAt (s : System) (place : List Nat) (t : Term) : Prop :=
  ∃ (index : Nat) (rest : List Nat) (c : Constraint), place = index :: rest ∧
    s.constraints[index]? = some c ∧ c.TermAt rest t

/-- The fault of the term at a place, if its coefficient is not in a table of the given size. -/
def UnknownAt (termAt : List Nat → Term → Prop) (tableSize : Nat) (place : List Nat)
    (fault : Fault) : Prop :=
  ∃ t, termAt place t ∧ tableSize ≤ t.coefficientId ∧
    fault = .unknownCoefficient t.coefficientId tableSize

/-- The coefficient of the term at the place is not in a table of the given size, and those of all
terms at earlier places are. -/
structure FirstUnknown (termAt : List Nat → Term → Prop) (tableSize : Nat) (place : List Nat)
    (t : Term) : Prop where
  stands : termAt place t
  unknown : tableSize ≤ t.coefficientId
  first : ∀ other u, termAt other u → tableSize ≤ u.coefficientId → place ≤ other

/-- There is a text where all coefficients are known, and otherwise the first unknown one is
reported. -/
structure RefusedForUnknown (termAt : List Nat → Term → Prop) (tableSize : Nat)
    (text : Except Fault String) : Prop where
  ok_iff : (∃ rendered, text = .ok rendered) ↔
    ∀ place t, termAt place t → t.coefficientId < tableSize
  error_iff : ∀ fault, text = .error fault ↔
    ∃ place t, FirstUnknown termAt tableSize place t ∧
      fault = .unknownCoefficient t.coefficientId tableSize

theorem LinearCombination.TermAt.unique {x : LinearCombination} {place : List Nat} {t u : Term}
    (ht : x.TermAt place t) (hu : x.TermAt place u) : t = u := by
  obtain ⟨position, rfl, ht⟩ := ht
  obtain ⟨other, heq, hu⟩ := hu
  cases heq
  exact Option.some.inj (ht.symm.trans hu)

theorem Constraint.TermAt.unique {c : Constraint} {place : List Nat} {t u : Term}
    (ht : c.TermAt place t) (hu : c.TermAt place u) : t = u := by
  obtain ⟨operand, rest, rfl, ht⟩ := ht
  obtain ⟨other, otherRest, heq, hu⟩ := hu
  obtain ⟨hrank, rfl⟩ := List.cons.inj heq
  obtain rfl := Operand.rank_injective hrank
  exact ht.unique hu

theorem System.TermAt.unique {s : System} {place : List Nat} {t u : Term}
    (ht : s.TermAt place t) (hu : s.TermAt place u) : t = u := by
  obtain ⟨index, rest, c, rfl, hc, ht⟩ := ht
  obtain ⟨other, otherRest, d, heq, hd, hu⟩ := hu
  obtain ⟨rfl, rfl⟩ := List.cons.inj heq
  obtain rfl := Option.some.inj (hc.symm.trans hd)
  exact ht.unique hu

/-! ## Refused texts -/

theorem foundFirst_unknownAt_iff {termAt : List Nat → Term → Prop} {tableSize : Nat}
    {fault : Fault} :
    FoundFirst (UnknownAt termAt tableSize) fault ↔
      ∃ place t, FirstUnknown termAt tableSize place t ∧
        fault = .unknownCoefficient t.coefficientId tableSize := by
  constructor
  · intro hfirst
    obtain ⟨place, ⟨t, ht, hle, rfl⟩, hleast⟩ := hfirst
    exact ⟨place, t, ⟨ht, hle, fun other u hu hunknown => hleast other _ ⟨u, hu, hunknown, rfl⟩⟩,
      rfl⟩
  · intro hfirst
    obtain ⟨place, t, hfirst, rfl⟩ := hfirst
    refine ⟨place, ⟨t, hfirst.stands, hfirst.unknown, rfl⟩, ?_⟩
    intro other g hother
    obtain ⟨u, hu, hunknown, -⟩ := hother
    exact hfirst.first other u hu hunknown

/-- A text that is refused for what a search through the terms finds first. -/
theorem refusedForUnknown_of_earliest {termAt : List Nat → Term → Prop} {tableSize : Nat}
    {text : Except Fault String}
    (hunique : ∀ place t u, termAt place t → termAt place u → t = u)
    (h : Earliest (UnknownAt termAt tableSize) (refusal? text)) :
    RefusedForUnknown termAt tableSize text := by
  have hfault : ∀ place f g, UnknownAt termAt tableSize place f →
      UnknownAt termAt tableSize place g → f = g := by
    intro place f g hf hg
    obtain ⟨t, ht, -, rfl⟩ := hf
    obtain ⟨u, hu, -, rfl⟩ := hg
    rw [hunique place t u ht hu]
  constructor
  · rw [← refusal?_eq_none_iff, h.eq_none_iff]
    constructor
    · intro hnone place t ht
      by_contra hle
      exact hnone place _ ⟨t, ht, Nat.le_of_not_lt hle, rfl⟩
    · intro hknown place fault hunknown
      obtain ⟨t, ht, hle, -⟩ := hunknown
      exact absurd (hknown place t ht) (Nat.not_lt_of_le hle)
  · intro fault
    rw [← refusal?_eq_some_iff, h.eq_some_iff hfault, foundFirst_unknownAt_iff]

theorem Term.refusal?_render (t : Term) (coefficients : Array Int) :
    refusal? (t.render coefficients) =
      if coefficients.size ≤ t.coefficientId then
        some (.unknownCoefficient t.coefficientId coefficients.size)
      else none := by
  unfold render
  rw [refusal?_bind_pure]
  unfold lookupCoefficient
  split
  next value hget =>
    have hlt := (Array.getElem?_eq_some_iff.mp hget).1
    rw [if_neg (Nat.not_le_of_lt hlt)]
    rfl
  next hget =>
    rw [if_pos (Array.getElem?_eq_none_iff.mp hget)]
    rfl

theorem LinearCombination.earliest_render (x : LinearCombination) (coefficients : Array Int) :
    Earliest (UnknownAt x.TermAt coefficients.size) (refusal? (x.render coefficients)) := by
  have hterm : ∀ t : Term, Earliest (fun place fault => place = [] ∧
      coefficients.size ≤ t.coefficientId ∧
        fault = .unknownCoefficient t.coefficientId coefficients.size)
      (refusal? (t.render coefficients)) := by
    intro t
    rw [t.refusal?_render]
    split
    next hle => exact .first ⟨rfl, hle, rfl⟩ fun _ _ hother => hother.1 ▸ le_refl _
    next hlt => exact .nothing fun _ _ hfound => hlt hfound.2.1
  unfold render
  rw [refusal?_bind_pure, refusal?_mapM]
  refine (Earliest.findSome?_index hterm).congr fun place fault => ?_
  constructor
  · intro hfound
    obtain ⟨position, t, _, ht, rfl, rfl, hle, rfl⟩ := hfound
    exact ⟨t, ⟨position, rfl, ht⟩, hle, rfl⟩
  · intro hfound
    obtain ⟨t, ⟨position, rfl, ht⟩, hle, rfl⟩ := hfound
    exact ⟨position, t, [], ht, rfl, rfl, hle, rfl⟩

theorem Constraint.refusal?_render (c : Constraint) (coefficients : Array Int) :
    refusal? (c.render coefficients) =
      c.operands.findSome? fun x => refusal? (x.2.render coefficients) := by
  unfold render
  rw [refusal?_bind fun _ => refusal?_bind fun _ => refusal?_bind_pure]
  simp only [operands, Operand.all, operand, List.map_cons, List.map_nil, List.findSome?_cons,
    List.findSome?_nil]
  cases refusal? (c.left.render coefficients) <;>
    cases refusal? (c.right.render coefficients) <;>
      cases refusal? (c.output.render coefficients) <;> rfl

theorem Constraint.earliest_render (c : Constraint) (coefficients : Array Int) :
    Earliest (UnknownAt c.TermAt coefficients.size) (refusal? (c.render coefficients)) := by
  have hsides := Earliest.findSome? c.pairwise_rank_operands fun x _ =>
    x.2.earliest_render coefficients
  rw [c.refusal?_render]
  refine hsides.congr fun place fault => ?_
  constructor
  · intro hfound
    obtain ⟨⟨operand, x⟩, hx, rest, rfl, t, ht, hunknown⟩ := hfound
    obtain rfl := System.mem_operands_iff.mp hx
    exact ⟨t, ⟨operand, rest, rfl, ht⟩, hunknown⟩
  · intro hfound
    obtain ⟨t, ⟨operand, rest, rfl, ht⟩, hunknown⟩ := hfound
    exact ⟨(operand, c.operand operand), System.mem_operands_iff.mpr rfl, rest, rfl, t, ht,
      hunknown⟩

theorem System.earliest_render (s : System) :
    Earliest (UnknownAt s.TermAt s.coefficients.size) (refusal? s.render) := by
  have hline : ∀ (c : Constraint) (index : Nat), s.constraints.toList[index]? = some c →
      Earliest (UnknownAt c.TermAt s.coefficients.size)
        (refusal? (renderLine s.coefficients.values index c)) := by
    intro c index _
    unfold renderLine
    rw [refusal?_bind_pure]
    exact c.earliest_render s.coefficients.values
  unfold render
  rw [refusal?_bind_pure, refusal?_mapM]
  refine (Earliest.findSome?_zipIdx hline).congr fun place fault => ?_
  simp only [Array.getElem?_toList]
  constructor
  · intro hfound
    obtain ⟨index, c, rest, hc, rfl, t, ht, hunknown⟩ := hfound
    exact ⟨t, ⟨index, rest, c, rfl, hc, ht⟩, hunknown⟩
  · intro hfound
    obtain ⟨t, ⟨index, rest, c, rfl, hc, ht⟩, hunknown⟩ := hfound
    exact ⟨index, c, rest, hc, rfl, t, ht, hunknown⟩

theorem LinearCombination.refusedForUnknown_render (x : LinearCombination)
    (coefficients : Array Int) :
    RefusedForUnknown x.TermAt coefficients.size (x.render coefficients) :=
  refusedForUnknown_of_earliest (fun _ _ _ ht hu => ht.unique hu) (x.earliest_render coefficients)

theorem Constraint.refusedForUnknown_render (c : Constraint) (coefficients : Array Int) :
    RefusedForUnknown c.TermAt coefficients.size (c.render coefficients) :=
  refusedForUnknown_of_earliest (fun _ _ _ ht hu => ht.unique hu) (c.earliest_render coefficients)

theorem System.refusedForUnknown_render (s : System) :
    RefusedForUnknown s.TermAt s.coefficients.size s.render :=
  refusedForUnknown_of_earliest (fun _ _ _ ht hu => ht.unique hu) s.earliest_render

/-! ## Texts and validation -/

/-- Validation reports an unset term, or an undeclared variable, that stands before the place. -/
def System.StopsBefore (s : System) (place : List Nat) : Prop :=
  ∃ (index : Nat) (operand : Operand) (position : Nat) (u : Term),
    s.TermAt [index, operand.rank, position] u ∧ [index, operand.rank, position] < place ∧
      (u.visibility = .unset ∧ s.validate = .error (.unsetVisibility (.constraint index operand)) ∨
        ∃ limit, s.counts.limit? u.visibility = some limit ∧ limit ≤ u.variableId ∧
          s.validate = .error
            (.undeclaredVariable (.constraint index operand) u.visibility u.variableId limit))

/-- A check of a term that is made before the coefficient of another term is looked at belongs to an
earlier term, or is that very check. -/
theorem Check.lt_or_eq_of_place_le {i index p position : Nat} {o operand : Operand} {k : TermCheck}
    (h : (term i o p k).place ≤ (term index operand position .coefficient).place) :
    [i, o.rank, p] < [index, operand.rank, position] ∨
      [i, o.rank, p] = [index, operand.rank, position] ∧ k = .coefficient := by
  simp only [place, cons_le_cons_iff, List.cons_lt_cons_iff, List.cons.injEq] at h ⊢
  cases k <;> simp [TermCheck.rank] at h ⊢ <;> omega

section

variable {s : System} {place : List Nat} {t : Term} {check : Check} {fault : Fault}

theorem System.termAt_iff : s.TermAt place t ↔
    ∃ (index : Nat) (operand : Operand) (position : Nat) (c : Constraint),
      place = [index, operand.rank, position] ∧ s.constraints[index]? = some c ∧
        (c.operand operand).terms[position]? = some t := by
  constructor
  · intro h
    obtain ⟨index, _, c, rfl, hc, operand, _, rfl, position, rfl, ht⟩ := h
    exact ⟨index, operand, position, c, rfl, hc, ht⟩
  · intro h
    obtain ⟨index, operand, position, c, rfl, hc, ht⟩ := h
    exact ⟨index, _, c, rfl, hc, operand, _, rfl, position, rfl, ht⟩

/-- An unknown coefficient fails the first check of its term. -/
theorem FirstUnknown.exists_fails (h : FirstUnknown s.TermAt s.coefficients.size place t) :
    ∃ (index : Nat) (operand : Operand) (position : Nat), place = [index, operand.rank, position] ∧
      s.Fails (.term index operand position .coefficient)
        (.unknownCoefficient t.coefficientId s.coefficients.size) := by
  obtain ⟨index, operand, position, c, rfl, hc, ht⟩ := System.termAt_iff.mp h.stands
  exact ⟨index, operand, position, rfl, .term hc ht (.coefficient h.unknown)⟩

theorem FirstUnknown.stopsAt_term (h : FirstUnknown s.TermAt s.coefficients.size place t)
    (hstops : s.StopsAt check fault) :
    ∃ (index : Nat) (operand : Operand) (position : Nat) (k : TermCheck),
      check = .term index operand position k := by
  obtain ⟨index, operand, position, -, hfails⟩ := h.exists_fails
  have hle := hstops.first _ _ hfails
  cases check with
  | term index operand position k => exact ⟨index, operand, position, k, rfl⟩
  | wire | input | output => simp [Check.place, cons_le_cons_iff] at hle

/-- Where validation does not stop at the first term with an unknown coefficient, it stops at an
earlier term. -/
theorem FirstUnknown.validate_eq (h : FirstUnknown s.TermAt s.coefficients.size place t) :
    s.validate = .error (.unknownCoefficient t.coefficientId s.coefficients.size) ∨
      s.StopsBefore place := by
  obtain ⟨index, operand, position, rfl, hunknown⟩ := h.exists_fails
  obtain ⟨check, fault, hstops⟩ := System.exists_stopsAt_of_fails hunknown
  obtain ⟨i, o, p, k, rfl⟩ := h.stopsAt_term hstops
  have hplace := Check.lt_or_eq_of_place_le (hstops.first _ _ hunknown)
  cases hstops.fails with
  | @term _ c _ _ u _ _ hc hu hviolates =>
    have hterm : s.TermAt [i, o.rank, p] u := System.termAt_iff.mpr ⟨i, o, p, c, rfl, hc, hu⟩
    cases k with
    | coefficient =>
      left
      cases hviolates with
      | coefficient hle =>
        -- The term that validation stops at is no later than the first unknown one, and unknown.
        have hfirst := h.first _ u hterm hle
        have hsame := (hplace.resolve_left (not_lt_of_ge hfirst)).1
        rw [h.stands.unique (hsame ▸ hterm)]
        exact hstops.reported
    | visibility =>
      right
      have hlt := hplace.resolve_right (by simp)
      cases hviolates with
      | visibility hv => exact ⟨i, o, p, u, hterm, hlt, .inl ⟨hv, hstops.reported⟩⟩
    | variableId =>
      right
      have hlt := hplace.resolve_right (by simp)
      obtain ⟨limit, hlimit, hle, rfl⟩ := Scope.violates_variableId_iff.mp hviolates
      exact ⟨i, o, p, u, hterm, hlt, .inr ⟨limit, hlimit, hle, hstops.reported⟩⟩

end

namespace System

/-- Combinations, constraints and systems have a text exactly where all their coefficients are
known, and are refused one only for the first coefficient that is not. A valid system has a text. A
system without one is reported by validation for the same coefficient, or for an unset term or an
undeclared variable of a constraint that is read earlier, and never for a hint. -/
theorem render_refused_for_first_unknown :
    (∀ (x : LinearCombination) (coefficients : Array Int),
      RefusedForUnknown x.TermAt coefficients.size (x.render coefficients)) ∧
    (∀ (c : Constraint) (coefficients : Array Int),
      RefusedForUnknown c.TermAt coefficients.size (c.render coefficients)) ∧
    ∀ s : System,
      RefusedForUnknown s.TermAt s.coefficients.size s.render ∧
      (s.validate = .ok () → ∃ text, s.render = .ok text) ∧
      (∀ fault, s.render = .error fault →
        ∃ place t, FirstUnknown s.TermAt s.coefficients.size place t ∧
          (s.validate = .error fault ∨ s.StopsBefore place) ∧
          ∀ check g, s.StopsAt check g → ∃ (index : Nat) (operand : Operand) (position : Nat)
            (k : TermCheck), check = .term index operand position k) := by
  refine ⟨fun x => x.refusedForUnknown_render, fun c => c.refusedForUnknown_render, fun s => ?_⟩
  have hrender := s.refusedForUnknown_render
  refine ⟨hrender, fun hvalid => ?_, fun fault herror => ?_⟩
  · cases htext : s.render with
    | ok text => exact ⟨text, rfl⟩
    | error fault =>
      obtain ⟨place, t, hfirst, -⟩ := (hrender.error_iff fault).mp htext
      obtain ⟨index, operand, position, -, hfails⟩ := hfirst.exists_fails
      exact absurd hfails (validate_eq_ok_iff_not_fails.mp hvalid _ _)
  · obtain ⟨place, t, hfirst, rfl⟩ := (hrender.error_iff fault).mp herror
    exact ⟨place, t, hfirst, hfirst.validate_eq, fun check g hstops => hfirst.stopsAt_term hstops⟩

/-- There is no text because of the second term, but validation stops at the first, which is
unset. -/
example :
    let unset : Term := .ofValues 1 0 .unset (by decide) (by decide)
    let unknown : Term := .ofValues 9 0 .virtual (by decide) (by decide)
    let s : System :=
      { empty ⟨0, 0, 0⟩ .seeded with constraints := #[⟨⟨[unset, unknown]⟩, .empty, .empty⟩] }
    s.render = .error (.unknownCoefficient 9 4) ∧
      s.validate = .error (.unsetVisibility (.constraint 0 .left)) := by
  cbv

end System
end RankOne
