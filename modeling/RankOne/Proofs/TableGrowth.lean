import RankOne.Proofs.FaultSubject
import RankOne.Proofs.Interning
import RankOne.Proofs.RenderedText
import RankOne.System.Edit

/-! Growing a coefficient table disturbs nothing that refers to it. Every id keeps its coefficient,
so texts stay as they were; terms can only come into scope, so the first fault of a system stays
the first one unless it is a coefficient that has become known. -/
namespace RankOne

/-! ## Tables -/

/-- Coefficients that keep the ids of older ones. -/
def Extends (old new : Array Int) : Prop :=
  ∀ (id : Nat) (value : Int), old[id]? = some value → new[id]? = some value

theorem Extends.trans {a b c : Array Int} (hab : Extends a b) (hbc : Extends b c) : Extends a c :=
  fun id value h => hbc id value (hab id value h)

theorem Extends.size_le {old new : Array Int} (h : Extends old new) : old.size ≤ new.size := by
  by_contra hlt
  have hget := h new.size old[new.size] (Array.getElem?_eq_getElem (Nat.lt_of_not_le hlt))
  simp at hget

namespace CoefficientTable

theorem extends_add (t : CoefficientTable) (value : Int) :
    Extends t.values (t.add value).2.values := by
  intro id old hold
  unfold add
  split
  next => exact hold
  next =>
    have hid := (Array.getElem?_eq_some_iff.mp hold).1
    rw [append, Array.getElem?_push, if_neg (Nat.ne_of_lt hid), hold]

theorem extends_addAll (t : CoefficientTable) (values : List Int) :
    Extends t.values (t.addAll values).values := by
  induction values generalizing t with
  | nil => exact fun _ _ h => h
  | cons value rest ih => exact (t.extends_add value).trans (ih (t.add value).2)

/-- Values that fit into a table that was filled from the seeded one are all accepted. -/
theorem internAll_of_reached {t : CoefficientTable} {values more : List Int} {ids : List Nat}
    (hreached : seeded.internAll values = .ok (ids, t))
    (hfits : (firstUses (values ++ more)).length ≤ 2 ^ 30) :
    ∃ newIds, t.internAll more = .ok (newIds, t.addAll more) := by
  have hlist : t.toList = ([0, 1, 2, -1] ++ values).eraseDups :=
    (toList_and_ids_of_internAll hreached).1
  rw [firstUses, ← List.append_assoc] at hfits
  exact ⟨_, internAll_of_history hlist hfits⟩

end CoefficientTable

/-! ## Texts -/

section

variable {old new : Array Int} (h : Extends old new) {text : String}

include h

theorem Term.render_of_extends {t : Term} (ht : t.render old = .ok text) :
    t.render new = .ok text := by
  obtain ⟨value, hvalue, rfl⟩ := render_eq_ok_iff.mp ht
  exact render_eq_ok_iff.mpr ⟨value, h _ value hvalue, rfl⟩

theorem LinearCombination.render_of_extends {x : LinearCombination}
    (hx : x.render old = .ok text) : x.render new = .ok text := by
  obtain ⟨summands, hsummands, rfl⟩ := render_eq_ok_iff.mp hx
  exact render_eq_ok_iff.mpr ⟨summands, hsummands.imp fun _ _ ht => Term.render_of_extends h ht, rfl⟩

theorem Constraint.render_of_extends {c : Constraint} (hc : c.render old = .ok text) :
    c.render new = .ok text := by
  obtain ⟨left, right, output, hl, hr, ho, rfl⟩ := render_eq_ok_iff.mp hc
  exact render_eq_ok_iff.mpr ⟨left, right, output, c.left.render_of_extends h hl,
    c.right.render_of_extends h hr, c.output.render_of_extends h ho, rfl⟩

end

theorem System.render_setCoefficients {s : System} {t : CoefficientTable}
    (h : Extends s.coefficients.values t.values) {text : String} (hs : s.render = .ok text) :
    (s.setCoefficients t).render = .ok text := by
  obtain ⟨lines, hlines, rfl⟩ := render_eq_ok_iff.mp hs
  refine render_eq_ok_iff.mpr ⟨lines, hlines.imp fun x line hline => ?_, rfl⟩
  obtain ⟨text, ht, rfl⟩ := renderLine_eq_ok_iff.mp hline
  exact renderLine_eq_ok_iff.mpr ⟨text, x.1.render_of_extends h ht, rfl⟩

/-! ## Faults -/

namespace Fault

/-- Whether the fault is still one where a table of the given size is used. -/
def PersistsIn (tableSize : Nat) : Fault → Prop
  | unknownCoefficient id _ => tableSize ≤ id
  | _ => True

/-- The fault as it is reported where a table of the given size is used. -/
def inTable (tableSize : Nat) : Fault → Fault
  | unknownCoefficient id _ => unknownCoefficient id tableSize
  | fault => fault

end Fault

section

variable {counts : Counts} {oldSize newSize : Nat} {site : Site} {t : Term} {check : TermCheck}
  {fault : Fault}

/-- Where a term is at fault, it was so before the table grew. -/
theorem Scope.Violates.of_grown (hsize : oldSize ≤ newSize)
    (h : Scope.Violates ⟨counts, newSize⟩ site t check fault) :
    ∃ f, Scope.Violates ⟨counts, oldSize⟩ site t check f := by
  cases h with
  | coefficient hc => exact ⟨_, .coefficient (hsize.trans hc)⟩
  | visibility hv => exact ⟨_, .visibility hv⟩
  | publicId hv hn => exact ⟨_, .publicId hv hn⟩
  | secretId hv hn => exact ⟨_, .secretId hv hn⟩
  | internalId hv hn => exact ⟨_, .internalId hv hn⟩

theorem Scope.Violates.grown (h : Scope.Violates ⟨counts, oldSize⟩ site t check fault)
    (hfault : fault.PersistsIn newSize) :
    Scope.Violates ⟨counts, newSize⟩ site t check (fault.inTable newSize) := by
  cases h with
  | coefficient hc => exact .coefficient hfault
  | visibility hv => exact .visibility hv
  | publicId hv hn => exact .publicId hv hn
  | secretId hv hn => exact .secretId hv hn
  | internalId hv hn => exact .internalId hv hn

end

namespace System

section

variable {s : System} {t : CoefficientTable} {check : Check} {fault : Fault}

theorem Fails.of_grown (hsize : s.coefficients.size ≤ t.size)
    (h : (s.setCoefficients t).Fails check fault) : ∃ f, s.Fails check f := by
  cases h with
  | term hc ht hviolates =>
    obtain ⟨f, hf⟩ := hviolates.of_grown hsize
    exact ⟨f, .term hc ht hf⟩
  | wire hw hle => exact ⟨_, .wire hw hle⟩
  | input hw hx ht hviolates =>
    obtain ⟨f, hf⟩ := hviolates.of_grown hsize
    exact ⟨f, .input hw hx ht hf⟩
  | output hc ho hv hmem => exact ⟨_, .output hc ho hv hmem⟩

theorem Fails.grown (h : s.Fails check fault) (hfault : fault.PersistsIn t.size) :
    (s.setCoefficients t).Fails check (fault.inTable t.size) := by
  cases h with
  | term hc ht hviolates => exact .term hc ht (hviolates.grown hfault)
  | wire hw hle => exact .wire hw hle
  | input hw hx ht hviolates => exact .input hw hx ht (hviolates.grown hfault)
  | output hc ho hv hmem => exact .output hc ho hv hmem

/-- Checks that fail with the larger table failed before, so none of them is earlier than the check
that was the first to fail. -/
theorem validate_setCoefficients_eq_error (hsize : s.coefficients.size ≤ t.size)
    (hs : s.validate = .error fault) (hfault : fault.PersistsIn t.size) :
    (s.setCoefficients t).validate = .error (fault.inTable t.size) := by
  obtain ⟨check, hstops⟩ := validate_eq_error_iff_stopsAt.mp hs
  refine validate_eq_error_iff.mpr
    (fault?_eq_some_iff.mpr ⟨check, hstops.fails.grown hfault, fun other g hg => ?_⟩)
  obtain ⟨f, hf⟩ := hg.of_grown hsize
  exact hstops.first other f hf

theorem validate_setCoefficients_eq_ok (hsize : s.coefficients.size ≤ t.size)
    (hs : s.validate = .ok ()) : (s.setCoefficients t).validate = .ok () := by
  rw [validate_eq_ok_iff_not_fails] at hs ⊢
  intro check fault hfails
  obtain ⟨f, hf⟩ := hfails.of_grown hsize
  exact hs check f hf

end

/-- Values that fit are added to the coefficients of a system without disturbing it: what had a text
has it still, and validation answers the same. Only a coefficient that was unknown can become known;
one that stays unknown is reported with the new size of the table. -/
theorem growth_keeps_texts_and_faults {s : System} {values more : List Int} {ids : List Nat}
    (hreached : CoefficientTable.seeded.internAll values = .ok (ids, s.coefficients))
    (hfits : (CoefficientTable.firstUses (values ++ more)).length ≤ 2 ^ 30) :
    ∃ newIds t, s.coefficients.internAll more = .ok (newIds, t) ∧
      (∀ (x : LinearCombination) (text : String),
        x.render s.coefficients.values = .ok text → x.render t.values = .ok text) ∧
      (∀ (c : Constraint) (text : String),
        c.render s.coefficients.values = .ok text → c.render t.values = .ok text) ∧
      (∀ text, s.render = .ok text → (s.setCoefficients t).render = .ok text) ∧
      (∀ result, s.validate = result →
        (∀ id size, result ≠ .error (.unknownCoefficient id size)) →
          (s.setCoefficients t).validate = result) ∧
      (∀ id size, s.validate = .error (.unknownCoefficient id size) → t.size ≤ id →
        (s.setCoefficients t).validate = .error (.unknownCoefficient id t.size)) := by
  obtain ⟨newIds, hmore⟩ := CoefficientTable.internAll_of_reached hreached hfits
  have hextends := s.coefficients.extends_addAll more
  have hsize : s.coefficients.size ≤ (s.coefficients.addAll more).size := hextends.size_le
  refine ⟨newIds, s.coefficients.addAll more, hmore, fun x text => x.render_of_extends hextends,
    fun c text => c.render_of_extends hextends, fun text => render_setCoefficients hextends, ?_, ?_⟩
  · rintro (fault | ⟨⟩) hs hknown
    · have hfault : fault.PersistsIn (s.coefficients.addAll more).size ∧
          fault.inTable (s.coefficients.addAll more).size = fault := by
        cases fault with
        | unknownCoefficient id size => exact absurd rfl (hknown id size)
        | _ => exact ⟨trivial, rfl⟩
      rw [validate_setCoefficients_eq_error hsize hs hfault.1, hfault.2]
    · exact validate_setCoefficients_eq_ok hsize hs
  · intro id size hs hunknown
    exact validate_setCoefficients_eq_error hsize hs hunknown

/-- The table holds 5 and gets 7 besides. A term with coefficient 5 keeps its text, and a constraint
whose coefficient is beyond both tables is reported with the new size. -/
theorem growth_keeps_texts_and_faults_sample :
    let known : Term := .ofValues 4 0 .internal (by decide) (by decide)
    let unknown : Term := .ofValues 6 0 .internal (by decide) (by decide)
    let s : System :=
      { empty ⟨0, 0, 1⟩ (CoefficientTable.seeded.addAll [5]) with
        constraints := #[⟨.single known, .single unknown, .empty⟩] }
    CoefficientTable.seeded.internAll [5] = .ok ([4], s.coefficients) ∧
    (CoefficientTable.firstUses ([5] ++ [7])).length ≤ 2 ^ 30 ∧
    ∃ newIds t, s.coefficients.internAll [7] = .ok (newIds, t) ∧
      (LinearCombination.single known).render t.values = .ok "5*i0" ∧
      (s.setCoefficients t).validate = .error (.unknownCoefficient 6 6) := by
  intro known unknown s
  have hreached : CoefficientTable.seeded.internAll [5] = .ok ([4], s.coefficients) := rfl
  have hfits : (CoefficientTable.firstUses ([5] ++ [7])).length ≤ 2 ^ 30 := by decide
  have hmore : s.coefficients.internAll [7] = .ok ([5], CoefficientTable.seeded.addAll [5, 7]) := rfl
  obtain ⟨newIds, t, hok, htext, -, -, -, hunknown⟩ := growth_keeps_texts_and_faults hreached hfits
  refine ⟨hreached, hfits, newIds, t, hok, htext _ _ (by decide), ?_⟩
  cases hmore.symm.trans hok
  exact hunknown 6 5 (by decide) (by decide)

end System
end RankOne
