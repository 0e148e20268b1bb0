import Mathlib.Data.List.Perm.Basic
import RankOne.Proofs.Composition
import RankOne.Proofs.Decoding
import RankOne.Proofs.Reordering
import RankOne.Proofs.UnknownCoefficients

/-! Texts of systems that differ in the order of terms within their combinations. Either both have a
text or neither has. In the texts, the summands of each side are the same and equally often, and
outside the sides nothing differs. Where there is no text, the coefficients that are reported may
differ, but not the side that they are found in. -/
namespace RankOne

/-! ## Lengths of joined texts -/

theorem intercalate_cons_append {α : Type} (separator p : List α) (ps : List (List α)) :
    separator.intercalate (p :: ps) ++ separator = (p :: ps).flatMap (· ++ separator) := by
  induction ps generalizing p with
  | nil => simp
  | cons q ps ih =>
    rw [List.intercalate_cons_cons, List.append_assoc, ih q]
    rfl

/-- The length of a joined text does not depend on the order of the parts. -/
theorem length_intercalate_of_perm {α : Type} (separator : List α) {ps qs : List (List α)}
    (h : (ps.map List.length).Perm (qs.map List.length)) :
    (separator.intercalate ps).length = (separator.intercalate qs).length := by
  cases ps with
  | nil =>
    cases qs with
    | nil => rfl
    | cons q qs => simp at h
  | cons p ps =>
    cases qs with
    | nil => simp at h
    | cons q qs =>
      have hsum := (h.map (· + separator.length)).sum_nat
      simp only [List.map_map, Function.comp_def] at hsum
      have hjoined : (separator.intercalate (p :: ps) ++ separator).length =
          (separator.intercalate (q :: qs) ++ separator).length := by
        simpa only [intercalate_cons_append, List.length_flatMap, List.length_append] using hsum
      simpa only [List.length_append, Nat.add_right_cancel_iff] using hjoined

/-! ## Summands -/

/-- The stretches of a text between its separators ` + `. -/
def splitOnPlus : List Char → List (List Char)
  | [] => [[]]
  | ' ' :: '+' :: ' ' :: rest => [] :: splitOnPlus rest
  | c :: rest => (splitOnPlus rest).modifyHead (c :: ·)

def summandTexts (text : String) : List String := (splitOnPlus text.toList).map String.ofList

theorem splitOnPlus_cons {c : Char} (hc : c ≠ ' ') (rest : List Char) :
    splitOnPlus (c :: rest) = (splitOnPlus rest).modifyHead (c :: ·) := by
  rw [splitOnPlus]
  intro _ hblank
  exact absurd hblank hc

theorem splitOnPlus_append {p : List Char} (hp : ' ' ∉ p) (rest : List Char) :
    splitOnPlus (p ++ rest) = (splitOnPlus rest).modifyHead (p ++ ·) := by
  induction p with
  | nil => cases h : splitOnPlus rest <;> simp [h]
  | cons c p ih =>
    rw [List.mem_cons, not_or] at hp
    obtain ⟨hc, hp⟩ := hp
    rw [List.cons_append, splitOnPlus_cons (Ne.symm hc), ih hp, List.modifyHead_modifyHead]
    rfl

theorem splitOnPlus_intercalate {ps : List (List Char)} (hblank : ∀ p ∈ ps, ' ' ∉ p)
    (hne : ps ≠ []) : splitOnPlus ([' ', '+', ' '].intercalate ps) = ps := by
  induction ps with
  | nil => exact absurd rfl hne
  | cons p ps ih =>
    have hp := hblank p List.mem_cons_self
    cases ps with
    | nil =>
      have hlast := splitOnPlus_append hp []
      simpa [splitOnPlus] using hlast
    | cons q ps =>
      rw [List.intercalate_cons_cons, List.append_assoc, splitOnPlus_append hp]
      have hrest := ih (fun r hr => hblank r (List.mem_cons_of_mem _ hr)) (by simp)
      simp [splitOnPlus, hrest]

theorem summandTexts_intercalate {texts : List String} (hblank : ∀ text ∈ texts, ' ' ∉ text.toList)
    (hne : texts ≠ []) : summandTexts (" + ".intercalate texts) = texts := by
  have hsplit : splitOnPlus ([' ', '+', ' '].intercalate (texts.map String.toList)) =
      texts.map String.toList :=
    splitOnPlus_intercalate (List.forall_mem_map.mpr hblank) (by simpa using hne)
  rw [summandTexts, String.toList_intercalate]
  change (splitOnPlus ([' ', '+', ' '].intercalate _)).map _ = _
  rw [hsplit, List.map_map]
  simp [Function.comp_def]

/-- The same summands, each equally often, in a text of the same length. -/
structure SameSummands (text other : String) : Prop where
  length_eq : other.length = text.length
  perm : (summandTexts other).Perm (summandTexts text)

section

variable {x y : LinearCombination} {coefficients : Array Int} {text other : String}

theorem LinearCombination.Reordered.sameSummands (h : x.Reordered y)
    (hx : x.render coefficients = .ok text) (hy : y.render coefficients = .ok other) :
    SameSummands text other := by
  obtain ⟨summands, hs, rfl⟩ := render_eq_ok_iff.mp hx
  obtain ⟨others, ho, rfl⟩ := render_eq_ok_iff.mp hy
  -- What the terms of `x` show can be put into the order of `y`.
  obtain ⟨ordered, hordered, hperm⟩ := List.perm_comp_forall₂ h ho
  obtain rfl : ordered = summands :=
    Except.ok.inj ((mapM_eq_ok_iff.mpr hordered).symm.trans (mapM_eq_ok_iff.mpr hs))
  have hblank : ∀ summand ∈ ordered, ' ' ∉ summand.toList := fun summand hmem hc =>
    absurd (isTermCharacter_of_mem_summands hs summand hmem _ hc) (by decide)
  refine ⟨?_, ?_⟩
  · rw [← String.length_toList, ← String.length_toList, String.toList_intercalate,
      String.toList_intercalate]
    refine length_intercalate_of_perm _ ?_
    rw [List.map_map, List.map_map]
    exact hperm.symm.map _
  · by_cases hne : ordered = []
    · subst hne
      rw [hperm.symm.eq_nil]
    · have hne' : others ≠ [] := fun hnil => hne (hnil ▸ hperm).eq_nil
      rw [summandTexts_intercalate hblank hne,
        summandTexts_intercalate (fun s hs => hblank s (hperm.mem_iff.mpr hs)) hne']
      exact hperm.symm

end

/-! ## Lines -/

namespace Decoding

/-- How many brackets of its line stand in front of what a side holds. -/
def bracketsBefore : Operand → Nat
  | .left => 3
  | .right => 5
  | .output => 7

/-- What stands between the brackets of a side, in a line of a text. -/
def sideText? (text : String) (index : Nat) (operand : Operand) : Option String := do
  let line ← (text.toList.splitOn '\n')[index]?
  let side ← (line.splitOnP isBracket)[bracketsBefore operand]?
  return String.ofList side

/-- A line without what stands between the brackets of its sides, where some brackets of the line
are passed already. -/
def outsideSides (passed : Nat) : List Char → List Char
  | [] => []
  | c :: rest =>
    if isBracket c then c :: outsideSides (passed + 1) rest
    else if Operand.all.any (bracketsBefore · = passed) then outsideSides passed rest
    else c :: outsideSides passed rest

/-- The lines of a text, all sides of which are emptied. -/
def outside (text : String) : List String :=
  (text.toList.splitOn '\n').map fun line => String.ofList (outsideSides 0 line)

theorem outsideSides_append {p : List Char} (hp : ∀ c ∈ p, isBracket c = false) (passed : Nat)
    (rest : List Char) :
    outsideSides passed (p ++ rest) =
      (if Operand.all.any (bracketsBefore · = passed) then [] else p) ++
        outsideSides passed rest := by
  induction p with
  | nil => simp
  | cons c p ih =>
    have hc := hp c List.mem_cons_self
    have hrest := ih fun d hd => hp d (List.mem_cons_of_mem _ hd)
    rw [List.cons_append, outsideSides, hc, if_neg Bool.false_ne_true, hrest]
    split <;> rfl

theorem outsideSides_bracket {b : Char} (hb : isBracket b = true) (passed : Nat)
    (rest : List Char) : outsideSides passed (b :: rest) = b :: outsideSides (passed + 1) rest :=
  if_pos hb

/-- Of a line with emptied sides only the index is left open. -/
theorem outsideSides_line {index left right output : List Char}
    (hi : ∀ c ∈ index, isBracket c = false) (hl : ∀ c ∈ left, isBracket c = false)
    (hr : ∀ c ∈ right, isBracket c = false) (ho : ∀ c ∈ output, isBracket c = false) :
    outsideSides 0 ("R1C[".toList ++ index ++ "]: ".toList ++ ("L[".toList ++ left ++
        "] * R[".toList ++ right ++ "] = O[".toList ++ output ++ "]".toList)) =
      "R1C[".toList ++ index ++ "]: L[] * R[] = O[]".toList := by
  have hopen : isBracket '[' = true := rfl
  have hclose : isBracket ']' = true := rfl
  rw [line_eq_stretches, outsideSides_append (by simp [isBracket]), outsideSides_bracket hopen,
    outsideSides_append hi, outsideSides_bracket hclose, outsideSides_append (by simp [isBracket]),
    outsideSides_bracket hopen, outsideSides_append hl, outsideSides_bracket hclose,
    outsideSides_append (by simp [isBracket]), outsideSides_bracket hopen, outsideSides_append hr,
    outsideSides_bracket hclose, outsideSides_append (by simp [isBracket]),
    outsideSides_bracket hopen, outsideSides_append ho, outsideSides_bracket hclose]
  simp [Operand.all, bracketsBefore, outsideSides]

example : outside "R1C[7]: L[1*s0 + -1*i4] * R[1*s0] = O[]" = ["R1C[7]: L[] * R[] = O[]"] :=
  rfl

end Decoding

section

variable {c : Constraint} {coefficients : Array Int} {own : String}

theorem Constraint.exists_sides (h : c.render coefficients = .ok own) :
    ∃ side : Operand → String,
      (∀ operand, (c.operand operand).render coefficients = .ok (side operand)) ∧
        own = frame [side .left, side .right, side .output] := by
  obtain ⟨left, right, output, hl, hr, ho, rfl⟩ := render_eq_ok_iff.mp h
  refine ⟨fun
    | .left => left
    | .right => right
    | .output => output, fun operand => ?_, rfl⟩
  cases operand with
  | left => exact hl
  | right => exact hr
  | output => exact ho

theorem Constraint.sideText?_line (index : Nat) {side : Operand → String}
    (h : ∀ operand, (c.operand operand).render coefficients = .ok (side operand))
    (operand : Operand) :
    ((System.lineHead index ++ frame [side .left, side .right, side .output]).toList.splitOnP
      Decoding.isBracket)[Decoding.bracketsBefore operand]? = some (side operand).toList := by
  have hbracket := fun o => Decoding.isBracket_of_mem_side (h o)
  simp only [System.lineHead, frame, String.toList_append,
    Decoding.splitOnP_line Decoding.isBracket_of_mem_natural (hbracket .left) (hbracket .right)
      (hbracket .output)]
  cases operand <;> rfl

theorem Constraint.outsideSides_line (index : Nat) (h : c.render coefficients = .ok own) :
    Decoding.outsideSides 0 (System.lineHead index ++ own).toList =
      "R1C[".toList ++ (toString index).toList ++ "]: L[] * R[] = O[]".toList := by
  obtain ⟨side, hside, rfl⟩ := exists_sides h
  have hbracket := fun o => Decoding.isBracket_of_mem_side (hside o)
  simp only [System.lineHead, frame, String.toList_append]
  exact Decoding.outsideSides_line Decoding.isBracket_of_mem_natural (hbracket .left)
    (hbracket .right) (hbracket .output)

theorem Constraint.Reordered.length_eq {d : Constraint} {other : String} (h : c.Reordered d)
    (hc : c.render coefficients = .ok own) (hd : d.render coefficients = .ok other) :
    other.length = own.length := by
  obtain ⟨side, hside, rfl⟩ := exists_sides hc
  obtain ⟨otherSide, hother, rfl⟩ := exists_sides hd
  have hsame := fun operand =>
    ((h operand).sameSummands (hside operand) (hother operand)).length_eq
  simp only [frame, String.length_append, hsame]

end

/-! ## Texts -/

namespace System

section

variable {s t : System} {text other : String}

theorem exists_line (h : s.render = .ok text) {index : Nat} {c : Constraint}
    (hc : s.constraints[index]? = some c) :
    ∃ own, c.render s.coefficients.values = .ok own ∧
      (text.toList.splitOn '\n')[index]? = some (lineHead index ++ own).toList := by
  obtain ⟨texts, hparts, rfl⟩ := (s.assembledFrom_render.ok_iff text).mp h
  have hpart : (texts.map Except.ok)[index]? = some (c.render s.coefficients.values) := by
    rw [← hparts, List.getElem?_map, Array.getElem?_toList, hc, Option.map_some]
  rw [List.getElem?_map, Option.map_eq_some_iff] at hpart
  obtain ⟨own, hown, hrender⟩ := hpart
  have hne : texts ≠ [] := List.ne_nil_of_mem (List.mem_of_getElem? hown)
  refine ⟨own, hrender.symm, ?_⟩
  rw [splitOn_headed hparts hne, List.getElem?_map, headed, List.getElem?_mapIdx, hown]
  rfl

/-- What lines of one index have in common whatever the order of their summands is, all lines of
the two texts have in common. -/
theorem Reordered.map_lines_eq {γ : Type} {view : List Char → γ} (h : s.Reordered t)
    (hs : s.render = .ok text) (ht : t.render = .ok other)
    (hview : ∀ (index : Nat) {c d : Constraint} {own otherOwn : String}, c.Reordered d →
      c.render s.coefficients.values = .ok own → d.render s.coefficients.values = .ok otherOwn →
      view (lineHead index ++ otherOwn).toList = view (lineHead index ++ own).toList) :
    (other.toList.splitOn '\n').map view = (text.toList.splitOn '\n').map view := by
  have hsize : t.constraints.size = s.constraints.size := by
    simpa using h.constraints.length_eq.symm
  by_cases hempty : s.constraints = #[]
  · have hempty' : t.constraints = #[] := by
      rw [← Array.size_eq_zero_iff, hsize, hempty, Array.size_empty]
    rw [render_eq_ok_empty_iff.mpr hempty] at hs
    rw [render_eq_ok_empty_iff.mpr hempty'] at ht
    cases hs
    cases ht
    rfl
  · have hempty' : t.constraints ≠ #[] := by
      rwa [← Array.size_pos_iff, hsize, Array.size_pos_iff]
    refine List.ext_getElem? fun index => ?_
    rw [List.getElem?_map, List.getElem?_map]
    cases hc : s.constraints[index]? with
    | none =>
      have hle := Array.getElem?_eq_none_iff.mp hc
      have hlines := (lines_of_render hs hempty).1
      have hlines' := (lines_of_render ht hempty').1
      rw [List.getElem?_eq_none (by omega), List.getElem?_eq_none (by omega)]
    | some c =>
      obtain ⟨d, hd, hcd⟩ := h.exists_constraint hc
      obtain ⟨own, hown, hline⟩ := exists_line hs hc
      obtain ⟨otherOwn, hotherOwn, hotherLine⟩ := exists_line ht hd
      rw [hline, hotherLine, Option.map_some, Option.map_some,
        hview index hcd hown (h.coefficients ▸ hotherOwn)]

theorem Reordered.outside_eq (h : s.Reordered t) (hs : s.render = .ok text)
    (ht : t.render = .ok other) : Decoding.outside other = Decoding.outside text := by
  refine h.map_lines_eq hs ht fun index _ _ _ _ _ hown hother => ?_
  rw [Constraint.outsideSides_line index hown, Constraint.outsideSides_line index hother]

theorem Reordered.length_eq (h : s.Reordered t) (hs : s.render = .ok text)
    (ht : t.render = .ok other) : other.length = text.length := by
  have hlines : (other.toList.splitOn '\n').map List.length =
      (text.toList.splitOn '\n').map List.length := by
    refine h.map_lines_eq hs ht fun index _ _ _ _ hcd hown hother => ?_
    simp only [String.length_toList, String.length_append, hcd.length_eq hown hother]
  calc other.length
      = (['\n'].intercalate (other.toList.splitOn '\n')).length := by
        rw [List.intercalate_splitOn, String.length_toList]
    _ = (['\n'].intercalate (text.toList.splitOn '\n')).length :=
        length_intercalate_of_perm _ (hlines ▸ .refl _)
    _ = text.length := by rw [List.intercalate_splitOn, String.length_toList]

/-- Between the brackets of a side stands the text of its combination. -/
theorem exists_sideText? (h : s.render = .ok text) {index : Nat} {c : Constraint}
    (hc : s.constraints[index]? = some c) (operand : Operand) :
    ∃ side, (c.operand operand).render s.coefficients.values = .ok side ∧
      Decoding.sideText? text index operand = some side := by
  obtain ⟨own, hown, hline⟩ := exists_line h hc
  obtain ⟨side, hside, rfl⟩ := Constraint.exists_sides hown
  refine ⟨side operand, hside operand, ?_⟩
  rw [Decoding.sideText?, hline, Option.bind_eq_bind, Option.bind_some,
    Constraint.sideText?_line index hside operand]
  exact congrArg some String.ofList_toList

end

end System

/-- Texts of that many lines which differ in the order of summands within sides and in nothing
else. -/
structure SidesReordered (lines : Nat) (text other : String) : Prop where
  length_eq : other.length = text.length
  outside_eq : Decoding.outside other = Decoding.outside text
  sides : ∀ index < lines, ∀ operand, ∃ side otherSide,
    Decoding.sideText? text index operand = some side ∧
      Decoding.sideText? other index operand = some otherSide ∧ SameSummands side otherSide

theorem System.Reordered.sidesReordered {s t : System} {text other : String} (h : s.Reordered t)
    (hs : s.render = .ok text) (ht : t.render = .ok other) :
    SidesReordered s.constraints.size text other where
  length_eq := h.length_eq hs ht
  outside_eq := h.outside_eq hs ht
  sides := by
    intro index hindex operand
    have hc := Array.getElem?_eq_getElem hindex
    obtain ⟨d, hd, hcd⟩ := h.exists_constraint hc
    obtain ⟨side, hside, htext⟩ := exists_sideText? hs hc operand
    obtain ⟨otherSide, hotherSide, hother⟩ := exists_sideText? ht hd operand
    exact ⟨side, otherSide, htext, hother,
      (hcd operand).sameSummands hside (h.coefficients ▸ hotherSide)⟩

/-! ## Texts or refusals -/

/-- Either both are texts, which are alike, or both are refused for a coefficient that a table of
the given size does not hold. -/
inductive RenderedAlike (tableSize : Nat) (alike : String → String → Prop) :
    Except Fault String → Except Fault String → Prop
  | texts {text other : String} (h : alike text other) :
    RenderedAlike tableSize alike (.ok text) (.ok other)
  | refused (id otherId : Nat) :
    RenderedAlike tableSize alike (.error (.unknownCoefficient id tableSize))
      (.error (.unknownCoefficient otherId tableSize))

theorem RenderedAlike.alike_of_ok {tableSize : Nat} {alike : String → String → Prop}
    {text other : String} (h : RenderedAlike tableSize alike (.ok text) (.ok other)) :
    alike text other := by
  cases h with
  | texts halike => exact halike

section

variable {termAt otherTermAt : List Nat → Term → Prop} {tableSize : Nat}
  {rendered other : Except Fault String}

theorem RefusedForUnknown.ok_or_unknown (h : RefusedForUnknown termAt tableSize rendered) :
    (∃ text, rendered = .ok text) ∨
      ∃ id, rendered = .error (.unknownCoefficient id tableSize) := by
  cases hrendered : rendered with
  | ok text => exact .inl ⟨text, rfl⟩
  | error fault =>
    obtain ⟨place, t, -, rfl⟩ := (h.error_iff fault).mp hrendered
    exact .inr ⟨t.coefficientId, rfl⟩

/-- Whether there is a text depends on which terms there are, and not on their places. -/
theorem RefusedForUnknown.renderedAlike {alike : String → String → Prop}
    (h : RefusedForUnknown termAt tableSize rendered)
    (ho : RefusedForUnknown otherTermAt tableSize other)
    (hterms : ∀ t, (∃ place, termAt place t) ↔ ∃ place, otherTermAt place t)
    (halike : ∀ text otherText, rendered = .ok text → other = .ok otherText →
      alike text otherText) :
    RenderedAlike tableSize alike rendered other := by
  have hok : (∃ text, rendered = .ok text) ↔ ∃ text, other = .ok text := by
    rw [h.ok_iff, ho.ok_iff]
    constructor
    · intro hknown place t ht
      obtain ⟨otherPlace, ht⟩ := (hterms t).mpr ⟨place, ht⟩
      exact hknown otherPlace t ht
    · intro hknown place t ht
      obtain ⟨otherPlace, ht⟩ := (hterms t).mp ⟨place, ht⟩
      exact hknown otherPlace t ht
  obtain htext | ⟨id, rfl⟩ := h.ok_or_unknown
  · obtain ⟨text, rfl⟩ := htext
    obtain ⟨otherText, rfl⟩ := hok.mp ⟨text, rfl⟩
    exact .texts (halike text otherText rfl rfl)
  · obtain htext | ⟨otherId, rfl⟩ := ho.ok_or_unknown
    · obtain ⟨text, htext⟩ := hok.mpr htext
      cases htext
    · exact .refused id otherId

end

theorem LinearCombination.Reordered.renderedAlike {x y : LinearCombination} (h : x.Reordered y)
    (coefficients : Array Int) :
    RenderedAlike coefficients.size SameSummands (x.render coefficients)
      (y.render coefficients) := by
  have hterm : ∀ (z : LinearCombination) (t : Term), (∃ place, z.TermAt place t) ↔ t ∈ z.terms := by
    intro z t
    simp only [TermAt, List.mem_iff_getElem?]
    constructor
    · rintro ⟨_, position, -, ht⟩
      exact ⟨position, ht⟩
    · rintro ⟨position, ht⟩
      exact ⟨_, position, rfl, ht⟩
  refine (x.refusedForUnknown_render coefficients).renderedAlike
    (y.refusedForUnknown_render coefficients) (fun t => ?_) fun _ _ => h.sameSummands
  rw [hterm, hterm]
  exact h.mem_iff

namespace System

theorem Reordered.exists_termAt {s t : System} (h : s.Reordered t) {u : Term}
    (hu : ∃ place, s.TermAt place u) : ∃ place, t.TermAt place u := by
  obtain ⟨place, hu⟩ := hu
  obtain ⟨index, operand, position, c, rfl, hc, hget⟩ := termAt_iff.mp hu
  obtain ⟨d, hd, hcd⟩ := h.exists_constraint hc
  obtain ⟨position', hget'⟩ := (hcd operand).exists_getElem? hget
  exact ⟨_, termAt_iff.mpr ⟨index, operand, position', d, rfl, hd, hget'⟩⟩

theorem Reordered.renderedAlike {s t : System} (h : s.Reordered t) :
    RenderedAlike s.coefficients.size (SidesReordered s.constraints.size) s.render t.render := by
  have ht := t.refusedForUnknown_render
  rw [← h.coefficients] at ht
  exact s.refusedForUnknown_render.renderedAlike ht
    (fun u => ⟨h.exists_termAt, h.symm.exists_termAt⟩) fun _ _ => h.sidesReordered

/-! ## The first side without a text -/

/-- The side has a term whose coefficient is not in the table. -/
def HoldsUnknown (s : System) (index : Nat) (operand : Operand) : Prop :=
  ∃ c t, s.constraints[index]? = some c ∧ t ∈ (c.operand operand).terms ∧
    s.coefficients.size ≤ t.coefficientId

/-- The side has a term with an unknown coefficient, and no earlier side has one. -/
structure FirstUnknownSide (s : System) (index : Nat) (operand : Operand) : Prop where
  holds : s.HoldsUnknown index operand
  first : ∀ i o, s.HoldsUnknown i o → [index, operand.rank] ≤ [i, o.rank]

section

variable {s t : System} {index i : Nat} {operand o : Operand}

theorem FirstUnknownSide.unique (h : s.FirstUnknownSide index operand)
    (h' : s.FirstUnknownSide i o) : index = i ∧ operand = o := by
  have hsame := le_antisymm (h.first i o h'.holds) (h'.first index operand h.holds)
  obtain ⟨rfl, hrank⟩ := List.cons.inj hsame
  exact ⟨rfl, Operand.rank_injective (List.cons.inj hrank).1⟩

theorem Reordered.holdsUnknown (h : s.Reordered t) (hs : s.HoldsUnknown index operand) :
    t.HoldsUnknown index operand := by
  obtain ⟨c, u, hc, hu, hle⟩ := hs
  obtain ⟨d, hd, hcd⟩ := h.exists_constraint hc
  exact ⟨d, u, hd, (hcd operand).mem_iff.mp hu, h.coefficients ▸ hle⟩

theorem Reordered.firstUnknownSide (h : s.Reordered t) (hs : s.FirstUnknownSide index operand) :
    t.FirstUnknownSide index operand where
  holds := h.holdsUnknown hs.holds
  first := fun i o ho => hs.first i o (h.symm.holdsUnknown ho)

/-- A system without a text is refused one for what its first side with an unknown coefficient is
refused for. -/
theorem exists_firstUnknownSide {fault : Fault} (h : s.render = .error fault) :
    ∃ index operand c, s.FirstUnknownSide index operand ∧ s.constraints[index]? = some c ∧
      (c.operand operand).render s.coefficients.values = .error fault := by
  obtain ⟨place, t, hfirst, rfl⟩ := (s.refusedForUnknown_render.error_iff fault).mp h
  obtain ⟨index, operand, position, c, rfl, hc, ht⟩ := termAt_iff.mp hfirst.stands
  refine ⟨index, operand, c, ⟨⟨c, t, hc, List.mem_of_getElem? ht, hfirst.unknown⟩, ?_⟩, hc, ?_⟩
  · rintro i o ⟨d, u, hd, hu, hle⟩
    obtain ⟨p, hp⟩ := List.mem_iff_getElem?.mp hu
    have hplace := hfirst.first _ u (termAt_iff.mpr ⟨i, o, p, d, rfl, hd, hp⟩) hle
    simp only [cons_le_cons_iff, le_refl, and_true] at hplace ⊢
    omega
  · refine (((c.operand operand).refusedForUnknown_render _).error_iff _).mpr
      ⟨[position], t, ⟨⟨position, rfl, ht⟩, hfirst.unknown, ?_⟩, rfl⟩
    rintro other u ⟨p, rfl, hp⟩ hle
    have hplace := hfirst.first _ u (termAt_iff.mpr ⟨index, operand, p, c, rfl, hc, hp⟩) hle
    simpa [cons_le_cons_iff] using hplace

end

end System

/-- Canonical order has a text where the given order has one. Then the summands of each side are
permuted, and nothing else changes. Otherwise both orders are refused for a coefficient that the
same table does not hold, and the side that is refused is the same: the first one with such a
coefficient. -/
theorem canonical_order_permutes_summands :
    (∀ s : System,
      RenderedAlike s.coefficients.size (SidesReordered s.constraints.size) s.render
        s.canonicalize.render ∧
      (∀ index operand,
        s.canonicalize.FirstUnknownSide index operand ↔ s.FirstUnknownSide index operand) ∧
      (∀ fault, s.render = .error fault → ∃ index operand c,
        s.FirstUnknownSide index operand ∧ s.constraints[index]? = some c ∧
          s.render = (c.operand operand).render s.coefficients.values ∧
          s.canonicalize.render = (c.operand operand).canonical.render s.coefficients.values)) ∧
    ∀ (x : LinearCombination) (coefficients : Array Int),
      RenderedAlike coefficients.size SameSummands (x.render coefficients)
        (x.canonical.render coefficients) := by
  refine ⟨fun s => ?_, fun x => x.reordered_canonical.renderedAlike⟩
  have hreordered := s.reordered_canonicalize
  refine ⟨hreordered.renderedAlike,
    fun index operand => ⟨hreordered.symm.firstUnknownSide, hreordered.firstUnknownSide⟩, ?_⟩
  intro fault hfault
  obtain ⟨index, operand, c, hfirst, hc, hside⟩ := System.exists_firstUnknownSide hfault
  refine ⟨index, operand, c, hfirst, hc, hfault.trans hside.symm, ?_⟩
  have halike := hreordered.renderedAlike
  rw [hfault] at halike
  cases hcanonical : s.canonicalize.render with
  | ok text =>
    rw [hcanonical] at halike
    cases halike
  | error other =>
    -- The first side of the canonical order is the same, so it is refused for the same reason.
    obtain ⟨i, o, d, hfirst', hd, hside'⟩ := System.exists_firstUnknownSide hcanonical
    obtain ⟨rfl, rfl⟩ := hfirst'.unique (hreordered.firstUnknownSide hfirst)
    have hcanon : s.canonicalize.constraints[i]? = some c.canonical := by
      rw [System.canonicalize, Array.getElem?_map, hc, Option.map_some]
    obtain rfl : d = c.canonical := Option.some.inj (hd.symm.trans hcanon)
    rw [Constraint.operand_canonical] at hside'
    exact hside'.symm

/-- A summand that stands there twice is still there twice. Where one side has two unknown
coefficients, the order decides which of them is reported. -/
theorem canonical_order_permutes_summands_sample :
    let t : Term := .ofValues 1 0 .secret (by decide) (by decide)
    let u : Term := .ofValues 3 4 .internal (by decide) (by decide)
    let p : Term := .ofValues 9 0 .secret (by decide) (by decide)
    let q : Term := .ofValues 8 0 .internal (by decide) (by decide)
    let s : System :=
      { System.empty ⟨0, 1, 5⟩ .seeded with
        constraints := #[⟨⟨[t, u, t]⟩, .single t, .empty⟩, ⟨.single u, .empty, .empty⟩] }
    let r : System :=
      { System.empty ⟨0, 1, 5⟩ .seeded with
        constraints := #[⟨⟨[t, u, t]⟩, ⟨[u, q, p]⟩, .single p⟩] }
    let text := "R1C[0]: L[1*s0 + -1*i4 + 1*s0] * R[1*s0] = O[]\nR1C[1]: L[-1*i4] * R[] = O[]"
    let sorted := "R1C[0]: L[1*s0 + 1*s0 + -1*i4] * R[1*s0] = O[]\nR1C[1]: L[-1*i4] * R[] = O[]"
    (s.render = .ok text ∧ s.canonicalize.render = .ok sorted ∧ SidesReordered 2 text sorted) ∧
    (r.render = .error (.unknownCoefficient 8 4) ∧
      r.canonicalize.render = .error (.unknownCoefficient 9 4) ∧
      ∃ index operand c, r.FirstUnknownSide index operand ∧ r.constraints[index]? = some c ∧
        r.render = (c.operand operand).render r.coefficients.values ∧
        r.canonicalize.render = (c.operand operand).canonical.render r.coefficients.values) := by
  intro t u p q s r text sorted
  have hs : s.render = .ok text := by decide
  -- `decide` does not get through sorting, so the sorted sides are given.
  have hleft : LinearCombination.canonical ⟨[t, u, t]⟩ = ⟨[t, t, u]⟩ :=
    LinearCombination.canonical_eq_of_perm (by decide) (by decide)
  have hright : LinearCombination.canonical ⟨[u, q, p]⟩ = ⟨[p, q, u]⟩ :=
    LinearCombination.canonical_eq_of_perm (by decide) (by decide)
  have hsorted : s.canonicalize.render = .ok sorted := by
    have hconstraints : s.canonicalize.constraints =
        #[⟨⟨[t, t, u]⟩, .single t, .empty⟩, ⟨.single u, .empty, .empty⟩] := by
      simp [System.canonicalize, Constraint.canonical, s, hleft]
    rw [System.render, System.indexedConstraints, hconstraints]
    decide
  have hr : r.render = .error (.unknownCoefficient 8 4) := by decide
  have hr' : r.canonicalize.render = .error (.unknownCoefficient 9 4) := by
    have hconstraints : r.canonicalize.constraints =
        #[⟨⟨[t, t, u]⟩, ⟨[p, q, u]⟩, .single p⟩] := by
      simp [System.canonicalize, Constraint.canonical, r, hleft, hright]
    rw [System.render, System.indexedConstraints, hconstraints]
    decide
  have halike := (canonical_order_permutes_summands.1 s).1
  rw [hs, hsorted] at halike
  exact ⟨⟨hs, hsorted, halike.alike_of_ok⟩, hr, hr',
    (canonical_order_permutes_summands.1 r).2.2 _ hr⟩

end RankOne
