import RankOne.Proofs.RenderedText
import RankOne.System.Writing

/-! Writing into one buffer and joining the texts of the parts come to the same. What a writer does
to any buffer is told by one outcome, its text or its fault, and the outcome of a writer that is
made of others comes from theirs. -/
namespace RankOne

theorem intercalate_cons_eq_append_join {separator piece : String} {pieces : List String} :
    separator.intercalate (piece :: pieces) =
      piece ++ String.join (pieces.map (separator ++ ·)) := by
  induction pieces generalizing piece with
  | nil => simp
  | cons next pieces ih =>
    rw [String.intercalate_cons_cons, ih, List.map_cons, String.join_cons, String.append_assoc,
      String.append_assoc]

namespace Writer

/-- What stands in the buffer stays there. The text goes behind it, or a part of some text does
before the fault. -/
def Writes (w : Writer) : Except Fault String → Prop
  | .ok text => ∀ buffer, w.run buffer = .ok () (buffer ++ text)
  | .error fault => ∀ buffer, ∃ part, w.run buffer = .error fault (buffer ++ part)

theorem Writes.text_eq {w : Writer} {outcome : Except Fault String} (h : w.Writes outcome) :
    w.text = outcome := by
  cases outcome with
  | ok text => rw [Writer.text, h "", String.empty_append]
  | error fault =>
    obtain ⟨part, hpart⟩ := h ""
    rw [Writer.text, hpart]

theorem writes_append (text : String) : (append text).Writes (pure text) :=
  fun _ => rfl

theorem writes_pure : Writes (pure ()) (pure "") := by
  intro buffer
  rw [String.append_empty]
  rfl

theorem run_bind_of_ok {w v : Writer} {buffer next : String} (h : w.run buffer = .ok () next) :
    (w >>= fun _ => v).run buffer = v.run next := by
  change EStateM.bind w (fun _ => v) buffer = v next
  rw [EStateM.bind, show w buffer = .ok () next from h]

theorem run_bind_of_error {w v : Writer} {buffer next : String} {fault : Fault}
    (h : w.run buffer = .error fault next) :
    (w >>= fun _ => v).run buffer = .error fault next := by
  change EStateM.bind w (fun _ => v) buffer = .error fault next
  rw [EStateM.bind, show w buffer = .error fault next from h]

/-- The second writer goes on where the first one ends, if it ends without a fault. -/
theorem Writes.seq {w v : Writer} {first second : Except Fault String} (hw : w.Writes first)
    (hv : v.Writes second) :
    Writes (w >>= fun _ => v) (do return (← first) ++ (← second)) := by
  cases first with
  | error fault =>
    intro buffer
    obtain ⟨part, hpart⟩ := hw buffer
    exact ⟨part, run_bind_of_error hpart⟩
  | ok text =>
    cases second with
    | error fault =>
      intro buffer
      obtain ⟨part, hpart⟩ := hv (buffer ++ text)
      -- What the first one wrote stays in the buffer, in front of what the second one managed.
      refine ⟨text ++ part, ?_⟩
      rw [run_bind_of_ok (hw buffer), hpart, String.append_assoc]
    | ok rest =>
      intro buffer
      rw [run_bind_of_ok (hw buffer), hv (buffer ++ text), String.append_assoc]

/-- Nothing is written for a value that cannot be had. -/
theorem Writes.of_value {α : Type} {x : Except Fault α} {w : α → Writer}
    {f : α → Except Fault String} (h : ∀ a, (w a).Writes (f a)) :
    Writes (ofExcept x >>= w) (x >>= f) := by
  cases x with
  | ok a => exact h a
  | error fault =>
    intro buffer
    refine ⟨"", ?_⟩
    rw [String.append_empty]
    rfl

/-! ## Separators -/

section

variable {α : Type} (separator : String) {write : α → Nat → Writer}
  {f : α → Nat → Except Fault String}

theorem writes_element_succ {x : α} {index : Nat} {outcome : Except Fault String}
    (h : (write x (index + 1)).Writes outcome) :
    (element separator write x (index + 1)).Writes (do return separator ++ (← outcome)) :=
  (writes_append separator).seq h

/-- Behind the first element, every element has the separator in front. The induction is over
the elements that are left, whatever the place of the next one is. -/
theorem writes_following (h : ∀ x index, (write x index).Writes (f x index)) (xs : List α)
    (before : Nat) :
    Writes ((xs.zipIdx (before + 1)).forM fun (x, index) => element separator write x index)
      (do
        let pieces ← (xs.zipIdx (before + 1)).mapM fun (x, index) => f x index
        return String.join (pieces.map (separator ++ ·))) := by
  induction xs generalizing before with
  | nil => exact writes_pure
  | cons x xs ih =>
    have hall := (writes_element_succ separator (h x (before + 1))).seq (ih (before + 1))
    rw [List.zipIdx_cons, List.mapM_cons]
    simp only [bind_assoc, pure_bind, List.map_cons, String.join_cons] at hall ⊢
    exact hall

theorem writes_separated (h : ∀ x index, (write x index).Writes (f x index)) (xs : List α) :
    (separated separator write xs).Writes (do
      let pieces ← xs.zipIdx.mapM fun (x, index) => f x index
      return separator.intercalate pieces) := by
  cases xs with
  | nil => exact writes_pure
  | cons x xs =>
    have hall := (h x 0).seq (writes_following separator h xs 0)
    rw [separated, List.zipIdx_cons, List.mapM_cons]
    simp only [bind_assoc, pure_bind, intercalate_cons_eq_append_join] at hall ⊢
    exact hall

end

end Writer

/-! ## The texts of the library -/

open Writer

theorem Visibility.ofTag_tag (v : Visibility) : ofTag v.tag = .ok v := by
  rw [ofTag, ofTag?_tag]

theorem Term.writes_render (t : Term) (coefficients : Array Int) :
    (t.write coefficients).Writes (t.render coefficients) := by
  refine Writes.of_value fun value => ?_
  have hvisibility : Visibility.ofTag t.tag = .ok t.visibility := by
    rw [← t.tag_visibility, Visibility.ofTag_tag]
  have hall := (writes_append (toString value)).seq <| (writes_append "*").seq <|
    (writes_append t.visibility.letter.toString).seq (writes_append (toString t.variableId))
  rw [hvisibility]
  rw [String.append_assoc, String.append_assoc]
  exact hall

theorem LinearCombination.writes_render (x : LinearCombination) (coefficients : Array Int) :
    (x.write coefficients).Writes (x.render coefficients) := by
  have hterms := writes_separated " + "
    (fun (t : Term) (_ : Nat) => t.writes_render coefficients) x.terms
  have hmap : (x.terms.zipIdx.mapM fun (t, _) => t.render coefficients) =
      x.terms.mapM (·.render coefficients) := by
    calc
      _ = (x.terms.zipIdx.map Prod.fst).mapM (·.render coefficients) := List.mapM_map.symm
      _ = x.terms.mapM (·.render coefficients) := by rw [List.zipIdx_map_fst]
  rw [hmap] at hterms
  exact hterms

theorem Constraint.writes_render (c : Constraint) (coefficients : Array Int) :
    (c.write coefficients).Writes (c.render coefficients) := by
  have hall := (writes_append "L[").seq <| (c.left.writes_render coefficients).seq <|
    (writes_append "] * R[").seq <| (c.right.writes_render coefficients).seq <|
    (writes_append "] = O[").seq <| (c.output.writes_render coefficients).seq <|
    writes_append "]"
  simp only [bind_assoc, pure_bind] at hall
  simp only [render, String.append_assoc]
  exact hall

theorem System.writes_render (s : System) : s.write.Writes s.render := by
  refine writes_separated "\n" (f := fun c index => renderLine s.coefficients.values index c)
    (fun c index => ?_) s.constraints.toList
  have hall := (writes_append "R1C[").seq <| (writes_append (toString index)).seq <|
    (writes_append "]: ").seq (c.writes_render s.coefficients.values)
  simp only [bind_assoc, pure_bind] at hall
  simp only [renderLine, String.append_assoc]
  exact hall

end RankOne
