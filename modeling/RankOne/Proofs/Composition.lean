import RankOne.Proofs.BufferedText

/-! A rendered text is put together from the texts of its parts: a system from its constraints, a
constraint from its sides, a combination from its terms. Nothing is looked at beyond the parts,
also where one of them cannot be rendered, and the lines of a system give its parts back. -/
namespace RankOne

/-! ## Texts of parts -/

/-- There is a text of the whole where all parts have one, made of these, and otherwise the whole
fails with the first part that does. -/
structure AssembledFrom (parts : List (Except Fault String)) (join : List String → String)
    (whole : Except Fault String) : Prop where
  ok_iff : ∀ text, whole = .ok text ↔ ∃ texts, parts = texts.map .ok ∧ text = join texts
  error_iff : ∀ fault, whole = .error fault ↔
    ∃ i : Nat, parts[i]? = some (.error fault) ∧ ∀ j < i, ∃ text, parts[j]? = some (.ok text)

section

variable {parts : List (Except Fault String)} {join : List String → String}

theorem mapM_id_eq_ok_iff {texts : List String} :
    parts.mapM id = .ok texts ↔ parts = texts.map .ok := by
  rw [mapM_eq_ok_iff]
  constructor
  · intro h
    induction h with
    | nil => rfl
    | cons hpart _ ih => rw [List.map_cons, ← ih, ← hpart, id]
  · rintro rfl
    induction texts with
    | nil => exact .nil
    | cons text texts ih => exact .cons rfl ih

theorem mapM_id_eq_error_iff {fault : Fault} :
    parts.mapM id = .error fault ↔
      ∃ i : Nat, parts[i]? = some (.error fault) ∧
        ∀ j < i, ∃ text, parts[j]? = some (.ok text) := by
  induction parts with
  | nil =>
    constructor
    · intro h
      cases h
    · rintro ⟨i, hi, -⟩
      cases hi
  | cons part parts ih =>
    rw [List.mapM_cons]
    cases part with
    | error other =>
      constructor
      · intro h
        cases h
        exact ⟨0, rfl, fun j hj => absurd hj (Nat.not_lt_zero j)⟩
      · rintro ⟨i, hi, hbefore⟩
        cases i with
        | zero =>
          cases hi
          rfl
        | succ i =>
          obtain ⟨text, htext⟩ := hbefore 0 (Nat.succ_pos i)
          cases htext
    | ok text =>
      rw [id, show (Except.ok text : Except Fault String) = pure text from rfl, pure_bind,
        bind_pure_eq_error_iff, ih]
      -- A text in front moves the first fault back by one place.
      constructor
      · rintro ⟨i, hi, hbefore⟩
        refine ⟨i + 1, hi, fun j hj => ?_⟩
        cases j with
        | zero => exact ⟨text, rfl⟩
        | succ j => exact hbefore j (Nat.lt_of_succ_lt_succ hj)
      · rintro ⟨i, hi, hbefore⟩
        cases i with
        | zero => cases hi
        | succ i => exact ⟨i, hi, fun j hj => hbefore (j + 1) (Nat.succ_lt_succ hj)⟩

theorem assembledFrom_mapM_id :
    AssembledFrom parts join (do return join (← parts.mapM id)) where
  ok_iff := by
    intro text
    simp only [bind_eq_ok_iff, pure_eq_ok_iff, mapM_id_eq_ok_iff]
  error_iff := by
    intro fault
    rw [bind_pure_eq_error_iff, mapM_id_eq_error_iff]

theorem assembledFrom_mapM {α : Type} (f : α → Except Fault String) (xs : List α) :
    AssembledFrom (xs.map f) join (do return join (← xs.mapM f)) := by
  have hmap : (xs.map f).mapM id = xs.mapM f := List.mapM_map
  exact hmap ▸ assembledFrom_mapM_id

theorem AssembledFrom.exists_ok_iff {whole : Except Fault String}
    (h : AssembledFrom parts join whole) :
    (∃ text, whole = .ok text) ↔ ∀ part ∈ parts, ∃ text, part = .ok text := by
  constructor
  · rintro ⟨text, htext⟩ part hpart
    obtain ⟨texts, rfl, -⟩ := (h.ok_iff text).mp htext
    obtain ⟨own, -, rfl⟩ := List.mem_map.mp hpart
    exact ⟨own, rfl⟩
  · intro hall
    cases hwhole : whole with
    | ok text => exact ⟨text, rfl⟩
    | error fault =>
      obtain ⟨i, hi, -⟩ := (h.error_iff fault).mp hwhole
      obtain ⟨text, htext⟩ := hall _ (List.mem_of_getElem? hi)
      cases htext

end

/-! ## Combinations and constraints -/

theorem LinearCombination.render_single (t : Term) (coefficients : Array Int) :
    (single t).render coefficients = t.render coefficients := by
  simp only [render, terms_single, List.mapM_cons, List.mapM_nil, bind_assoc, pure_bind,
    String.intercalate_singleton, bind_pure]

theorem LinearCombination.assembledFrom_render (x : LinearCombination) (coefficients : Array Int) :
    AssembledFrom (x.terms.map fun t => (single t).render coefficients) (" + ".intercalate)
      (x.render coefficients) := by
  simp only [render_single]
  exact assembledFrom_mapM _ x.terms

/-- The texts of the three sides in their brackets; no constraint has another number of sides. -/
def Constraint.frame : List String → String
  | [left, right, output] => "L[" ++ left ++ "] * R[" ++ right ++ "] = O[" ++ output ++ "]"
  | _ => ""

theorem Constraint.assembledFrom_render (c : Constraint) (coefficients : Array Int) :
    AssembledFrom
      [c.left.render coefficients, c.right.render coefficients, c.output.render coefficients]
      frame (c.render coefficients) := by
  have hrender : c.render coefficients = (do
      let sides ← [c.left.render coefficients, c.right.render coefficients,
        c.output.render coefficients].mapM id
      return frame sides) := by
    simp only [render, List.mapM_cons, List.mapM_nil, bind_assoc, pure_bind, id, frame]
  rw [hrender]
  exact assembledFrom_mapM_id

/-! ## Systems -/

namespace System

/-- What stands in front of the text of a constraint in its line. -/
def lineHead (index : Nat) : String := "R1C[" ++ toString index ++ "]: "

def headed (texts : List String) : List String :=
  texts.mapIdx fun index text => lineHead index ++ text

/-- What the lines of a text hold behind their heads. -/
def unheaded (text : String) : List String :=
  (text.toList.splitOn '\n').mapIdx fun index line =>
    String.ofList (line.drop (lineHead index).length)

/-- Heads can be added after all constraints are rendered. The induction is over the constraints
that are left, whatever the index of the next one is. -/
theorem mapM_renderLine (coefficients : Array Int) (cs : List Constraint) (start : Nat) :
    ((cs.zipIdx start).mapM fun (c, index) => renderLine coefficients index c) = (do
      let texts ← cs.mapM (·.render coefficients)
      return texts.mapIdx fun index text => lineHead (start + index) ++ text) := by
  induction cs generalizing start with
  | nil => rfl
  | cons c cs ih =>
    rw [List.zipIdx_cons, List.mapM_cons, ih, List.mapM_cons]
    simp only [renderLine, lineHead, bind_assoc, pure_bind, List.mapIdx_cons, Nat.add_zero,
      Nat.add_assoc, Nat.add_comm 1]

theorem assembledFrom_render (s : System) :
    AssembledFrom (s.constraints.toList.map (·.render s.coefficients.values))
      (fun texts => "\n".intercalate (headed texts)) s.render := by
  have hrender : s.render = (do
      let texts ← s.constraints.toList.mapM (·.render s.coefficients.values)
      return "\n".intercalate (headed texts)) := by
    rw [render, indexedConstraints, mapM_renderLine]
    simp only [bind_assoc, pure_bind, Nat.zero_add, headed]
  rw [hrender]
  exact assembledFrom_mapM _ _

theorem render_eq_ok_empty_iff {s : System} : s.render = .ok "" ↔ s.constraints = #[] := by
  constructor
  · intro h
    obtain ⟨texts, hparts, hjoin⟩ := (s.assembledFrom_render.ok_iff "").mp h
    cases texts with
    | nil => exact Array.toList_eq_nil_iff.mp (List.map_eq_nil_iff.mp hparts)
    | cons text texts =>
      rw [headed, List.mapIdx_cons, intercalate_cons_eq_append_join] at hjoin
      have hlength := congrArg String.length hjoin
      have hopening : "R1C[".length = 4 := rfl
      have hempty : "".length = 0 := rfl
      simp only [lineHead, String.length_append, hopening, hempty] at hlength
      omega
  · intro h
    rw [render, indexedConstraints, h]
    rfl

section

variable {coefficients : Array Int} {cs : List Constraint} {texts : List String}

theorem newline_notMem_headed (h : cs.map (·.render coefficients) = texts.map .ok)
    {line : String} (hline : line ∈ headed texts) : '\n' ∉ line.toList := by
  obtain ⟨i, hi, rfl⟩ := List.mem_mapIdx.mp hline
  have hpart : (cs.map (·.render coefficients))[i]? = some (.ok texts[i]) := by
    rw [h, List.getElem?_map, List.getElem?_eq_getElem hi]
    rfl
  rw [List.getElem?_map, Option.map_eq_some_iff] at hpart
  obtain ⟨c, -, hc⟩ := hpart
  exact newline_notMem_renderLine (renderLine_eq_ok_iff.mpr ⟨texts[i], hc, rfl⟩)

/-- Line breaks stand between lines only. -/
theorem splitOn_headed (h : cs.map (·.render coefficients) = texts.map .ok) (hne : texts ≠ []) :
    ("\n".intercalate (headed texts)).toList.splitOn '\n' =
      (headed texts).map String.toList := by
  rw [String.toList_intercalate]
  refine List.splitOn_intercalate '\n' (fun line hline => ?_) (fun hnil => ?_)
  · obtain ⟨own, hown, rfl⟩ := List.mem_map.mp hline
    exact newline_notMem_headed h hown
  · exact hne (List.mapIdx_eq_nil_iff.mp (List.map_eq_nil_iff.mp hnil))

theorem unheaded_headed (h : cs.map (·.render coefficients) = texts.map .ok) (hne : texts ≠ []) :
    unheaded ("\n".intercalate (headed texts)) = texts := by
  rw [unheaded, splitOn_headed h hne]
  refine List.ext_getElem (by simp [headed]) fun i hi hi' => ?_
  simp only [headed, List.getElem_mapIdx, List.getElem_map, String.toList_append,
    ← String.length_toList, List.drop_left, String.ofList_toList]

end

theorem exists_render_iff (s : System) :
    (∃ text, s.render = .ok text) ↔
      ∀ c ∈ s.constraints, ∃ text, c.render s.coefficients.values = .ok text := by
  rw [s.assembledFrom_render.exists_ok_iff, List.forall_mem_map]
  simp only [Array.mem_toList_iff]

/-- A system that renders has one line for each of its constraints, which shows the text of the
constraint behind the head. -/
theorem lines_of_render {s : System} {text : String} (h : s.render = .ok text)
    (hne : s.constraints ≠ #[]) :
    (text.toList.splitOn '\n').length = s.constraints.size ∧
      s.constraints.toList.map (·.render s.coefficients.values) = (unheaded text).map .ok := by
  obtain ⟨texts, hparts, rfl⟩ := (s.assembledFrom_render.ok_iff text).mp h
  have hlength : s.constraints.size = texts.length := by
    have hboth := congrArg List.length hparts
    rwa [List.length_map, List.length_map, Array.length_toList] at hboth
  have htexts : texts ≠ [] := by
    rintro rfl
    exact hne (Array.size_eq_zero_iff.mp hlength)
  refine ⟨?_, ?_⟩
  · rw [splitOn_headed hparts htexts, List.length_map, headed, List.length_mapIdx, hlength]
  · rw [unheaded_headed hparts htexts, hparts]

end System

/-- A system is rendered line by line, a constraint side by side and a combination term by term, and
each is refused with the first refusal of its parts. The lines of a system give the texts of its
constraints back. Writing everything into one buffer gives the same texts and the same faults. -/
theorem rendering_compositional :
    (∀ s : System,
      AssembledFrom (s.constraints.toList.map (·.render s.coefficients.values))
        (fun texts => "\n".intercalate (System.headed texts)) s.render ∧
      ((∃ text, s.render = .ok text) ↔
        ∀ c ∈ s.constraints, ∃ text, c.render s.coefficients.values = .ok text) ∧
      (∀ text, s.render = .ok text → s.constraints ≠ #[] →
        (text.toList.splitOn '\n').length = s.constraints.size ∧
        s.constraints.toList.map (·.render s.coefficients.values) =
          (System.unheaded text).map .ok) ∧
      (s.render = .ok "" ↔ s.constraints = #[]) ∧
      s.write.text = s.render) ∧
    (∀ (c : Constraint) (coefficients : Array Int),
      AssembledFrom
        [c.left.render coefficients, c.right.render coefficients, c.output.render coefficients]
        Constraint.frame (c.render coefficients) ∧
      (c.write coefficients).text = c.render coefficients) ∧
    (∀ (x : LinearCombination) (coefficients : Array Int),
      AssembledFrom
        (x.terms.map fun t => (LinearCombination.single t).render coefficients)
        (" + ".intercalate) (x.render coefficients) ∧
      (x.write coefficients).text = x.render coefficients) := by
  refine ⟨fun s => ?_, fun c coefficients => ?_, fun x coefficients => ?_⟩
  · exact ⟨s.assembledFrom_render, s.exists_render_iff, fun _ h hne => System.lines_of_render h hne,
      System.render_eq_ok_empty_iff, s.writes_render.text_eq⟩
  · exact ⟨c.assembledFrom_render coefficients, (c.writes_render coefficients).text_eq⟩
  · exact ⟨x.assembledFrom_render coefficients, (x.writes_render coefficients).text_eq⟩

/-- Two lines of one system, taken apart again. -/
theorem rendering_compositional_sample :
    let t : Term := .ofValues 1 0 .secret (by decide) (by decide)
    let u : Term := .ofValues 3 4 .internal (by decide) (by decide)
    let s : System :=
      { System.empty ⟨0, 1, 5⟩ .seeded with
        constraints := #[⟨⟨[t, u]⟩, .single t, .empty⟩, ⟨.single u, .empty, .empty⟩] }
    let text := "R1C[0]: L[1*s0 + -1*i4] * R[1*s0] = O[]\nR1C[1]: L[-1*i4] * R[] = O[]"
    s.render = .ok text ∧ s.constraints ≠ #[] ∧ (text.toList.splitOn '\n').length = 2 ∧
      s.constraints.toList.map (·.render s.coefficients.values) =
        (System.unheaded text).map .ok := by
  intro t u s text
  have hrender : s.render = .ok text := by decide
  have hne : s.constraints ≠ #[] := by decide
  obtain ⟨hlines, hparts⟩ := (rendering_compositional.1 s).2.2.1 text hrender hne
  exact ⟨hrender, hne, hlines, hparts⟩

end RankOne
