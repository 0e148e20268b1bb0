import RankOne.Proofs.RenderedText

/-! Reading a rendered system back. The text of a system determines its constraints up to
the ids of coefficients, and a table that holds no coefficient twice gives the ids back. -/
namespace RankOne

/-- A term as its text shows it, with the coefficient itself in place of its id. -/
structure Summand where
  coefficient : Int
  visibility : Visibility
  variableId : Nat
  deriving DecidableEq, Repr

structure Equation where
  left : List Summand
  right : List Summand
  output : List Summand
  deriving DecidableEq, Repr

/-! ## What a text stands for -/

/-- The summand shows the coefficient that the term refers to, and the variable of the term. -/
structure Term.Denotes (coefficients : Array Int) (t : Term) (v : Summand) : Prop where
  coefficient_eq : coefficients[t.coefficientId]? = some v.coefficient
  visibility_eq : t.visibility = v.visibility
  variableId_eq : t.variableId = v.variableId

def LinearCombination.Denotes (coefficients : Array Int) (x : LinearCombination)
    (vs : List Summand) : Prop :=
  List.Forall₂ (Term.Denotes coefficients) x.terms vs

structure Constraint.Denotes (coefficients : Array Int) (c : Constraint) (e : Equation) : Prop where
  left : c.left.Denotes coefficients e.left
  right : c.right.Denotes coefficients e.right
  output : c.output.Denotes coefficients e.output

def System.Denotes (s : System) (es : List Equation) : Prop :=
  List.Forall₂ (Constraint.Denotes s.coefficients.values) s.constraints.toList es

/-! ## Reading -/

namespace Decoding

/-- The non-empty stretches of text between separators. -/
def pieces (separator : Char) (text : List Char) : List (List Char) :=
  (text.splitOn separator).filter (· ≠ [])

def visibility? (letter : Char) : Option Visibility := Visibility.all.find? (·.letter = letter)

/-- Reads `coefficient*variable`. -/
def summand? (text : List Char) : Option Summand :=
  match text.splitOn '*' with
  | [coefficient, letter :: digits] => do
    let coefficient ← Text.Decimal.integer? coefficient
    let visibility ← visibility? letter
    let variableId ← Text.Decimal.natural? digits
    return ⟨coefficient, visibility, variableId⟩
  | _ => none

/-- Reads the summands of a side. The blanks around each `+` carry nothing. -/
def side? (text : List Char) : Option (List Summand) :=
  (pieces '+' (text.filter (· ≠ ' '))).mapM summand?

def isBracket (c : Char) : Bool := c = '[' || c = ']'

/-- Reads a line, which the brackets cut into the index, the sides and the frame around them. -/
def equation? (line : List Char) : Option Equation :=
  match line.splitOnP isBracket with
  | [_, _, _, left, _, right, _, output, _] => do
    let left ← side? left
    let right ← side? right
    let output ← side? output
    return ⟨left, right, output⟩
  | _ => none

/-- Reads the text of a system. -/
def decode (text : String) : Option (List Equation) :=
  (pieces '\n' text.toList).mapM equation?

theorem visibility?_letter (v : Visibility) : visibility? v.letter = some v := by
  cases v <;> rfl

theorem pieces_intercalate {separator : Char} {ps : List (List Char)}
    (hne : ∀ p ∈ ps, p ≠ []) (hsep : ∀ p ∈ ps, separator ∉ p) :
    pieces separator ([separator].intercalate ps) = ps := by
  cases ps with
  | nil => simp [pieces]
  | cons p ps =>
    rw [pieces, List.splitOn_intercalate separator hsep (by simp)]
    exact List.filter_eq_self.mpr fun p hp => by simpa using hne p hp

/-- Without its blanks, ` + ` is a separator of one character. -/
theorem filter_intercalate_plus {ps : List (List Char)} (hblank : ∀ p ∈ ps, ' ' ∉ p) :
    ([' ', '+', ' '].intercalate ps).filter (· ≠ ' ') = ['+'].intercalate ps := by
  induction ps with
  | nil => simp
  | cons p ps ih =>
    have hp : p.filter (· ≠ ' ') = p :=
      List.filter_eq_self.mpr fun c hc => by
        have : c ≠ ' ' := fun h => hblank p (by simp) (h ▸ hc)
        simpa using this
    cases ps with
    | nil => simpa using hp
    | cons q ps =>
      have hrest := ih fun r hr => hblank r (List.mem_cons_of_mem _ hr)
      rw [List.intercalate_cons_cons, List.intercalate_cons_cons, List.filter_append,
        List.filter_append, hp, hrest]
      rfl

/-! ## Reading back what was written -/

theorem splitOn_star {n : Int} {w : Visibility} {id : Nat} :
    (toString n ++ "*" ++ w.letter.toString ++ toString id).toList.splitOn '*' =
      [(toString n).toList, w.letter :: (toString id).toList] := by
  have hn : '*' ∉ (toString n).toList := fun h =>
    absurd (isDigit_or_eq_minus_of_mem_integer h) (by decide)
  have hid : '*' ∉ w.letter :: (toString id).toList := by
    intro h
    rcases List.mem_cons.mp h with h | h
    · cases w <;> exact absurd h (by decide)
    · exact absurd (Text.Decimal.isDigit_of_mem_repr h) (by decide)
  have htext : (toString n ++ "*" ++ w.letter.toString ++ toString id).toList =
      (toString n).toList ++ '*' :: w.letter :: (toString id).toList := by
    simp
  rw [htext, List.splitOn_append_cons_self_of_not_mem hn, List.splitOn_eq_singleton hid]

theorem summand?_render {t : Term} {coefficients : Array Int} {text : String}
    (h : t.render coefficients = .ok text) :
    ∃ v, summand? text.toList = some v ∧ t.Denotes coefficients v := by
  obtain ⟨value, hvalue, rfl⟩ := Term.render_eq_ok_iff.mp h
  refine ⟨⟨value, t.visibility, t.variableId⟩, ?_, hvalue, rfl, rfl⟩
  have hinteger : Text.Decimal.integer? (toString value).toList = some value :=
    Text.Decimal.integer?_repr value
  have hnatural : Text.Decimal.natural? (toString t.variableId).toList = some t.variableId :=
    Text.Decimal.natural?_repr t.variableId
  rw [summand?, splitOn_star]
  simp only [hinteger, visibility?_letter, hnatural]
  rfl

theorem side?_render {x : LinearCombination} {coefficients : Array Int} {text : String}
    (h : x.render coefficients = .ok text) :
    ∃ vs, side? text.toList = some vs ∧ x.Denotes coefficients vs := by
  obtain ⟨summands, hs, rfl⟩ := LinearCombination.render_eq_ok_iff.mp h
  have hchars : ∀ p ∈ summands.map String.toList, ∀ c ∈ p, isTermCharacter c = true :=
    List.forall_mem_map.mpr (LinearCombination.isTermCharacter_of_mem_summands hs)
  have hne : ∀ p ∈ summands.map String.toList, p ≠ [] := by
    intro p hp
    obtain ⟨summand, hmem, rfl⟩ := List.mem_map.mp hp
    obtain ⟨t, _, ht⟩ := exists_of_mem_right hs hmem
    obtain ⟨value, _, rfl⟩ := Term.render_eq_ok_iff.mp ht
    simp
  have hpieces : pieces '+' ((" + ".intercalate summands).toList.filter (· ≠ ' ')) =
      summands.map String.toList := by
    rw [String.toList_intercalate]
    change pieces '+' (([' ', '+', ' '].intercalate _).filter _) = _
    rw [filter_intercalate_plus fun p hp hc => absurd (hchars p hp _ hc) (by decide)]
    exact pieces_intercalate hne fun p hp hc => absurd (hchars p hp _ hc) (by decide)
  obtain ⟨vs, hvs, hden⟩ := exists_mapM_eq_some hs fun _ _ => summand?_render
  refine ⟨vs, ?_, hden⟩
  rw [side?, hpieces, List.mapM_map]
  exact hvs

/-- A line as it lies between its brackets. -/
theorem line_eq_stretches (index left right output : List Char) :
    "R1C[".toList ++ index ++ "]: ".toList ++ ("L[".toList ++ left ++ "] * R[".toList ++ right ++
        "] = O[".toList ++ output ++ "]".toList) =
      "R1C".toList ++ '[' :: (index ++ ']' :: (": L".toList ++ '[' :: (left ++ ']' ::
        (" * R".toList ++ '[' :: (right ++ ']' :: (" = O".toList ++ '[' ::
          (output ++ ']' :: []))))))) := by
  simp

/-- The brackets of a line cut it into its sides, since none of these holds a bracket. -/
theorem splitOnP_line {index left right output : List Char}
    (hi : ∀ c ∈ index, isBracket c = false) (hl : ∀ c ∈ left, isBracket c = false)
    (hr : ∀ c ∈ right, isBracket c = false) (ho : ∀ c ∈ output, isBracket c = false) :
    ("R1C[".toList ++ index ++ "]: ".toList ++ ("L[".toList ++ left ++ "] * R[".toList ++ right ++
        "] = O[".toList ++ output ++ "]".toList)).splitOnP isBracket =
      ["R1C".toList, index, ": L".toList, left, " * R".toList, right, " = O".toList, output,
        []] := by
  rw [line_eq_stretches, List.splitOnP_append_cons_of_forall_mem (by simp [isBracket]) _ rfl,
    List.splitOnP_append_cons_of_forall_mem hi _ rfl,
    List.splitOnP_append_cons_of_forall_mem (by simp [isBracket]) _ rfl,
    List.splitOnP_append_cons_of_forall_mem hl _ rfl,
    List.splitOnP_append_cons_of_forall_mem (by simp [isBracket]) _ rfl,
    List.splitOnP_append_cons_of_forall_mem hr _ rfl,
    List.splitOnP_append_cons_of_forall_mem (by simp [isBracket]) _ rfl,
    List.splitOnP_append_cons_of_forall_mem ho _ rfl, List.splitOnP_nil]

theorem isBracket_of_isTermCharacter {c : Char} (h : isTermCharacter c = true) :
    isBracket c = false := by
  rw [Bool.eq_false_iff]
  intro hb
  have hc : c = '[' ∨ c = ']' := by simpa [isBracket] using hb
  rcases hc with rfl | rfl <;> exact absurd h (by decide)

theorem isBracket_of_mem_side {x : LinearCombination} {coefficients : Array Int} {text : String}
    (h : x.render coefficients = .ok text) : ∀ c ∈ text.toList, isBracket c = false := by
  intro c hc
  rcases x.mem_render h hc with hc | rfl | rfl
  · exact isBracket_of_isTermCharacter hc
  · rfl
  · rfl

theorem isBracket_of_mem_natural {n : Nat} : ∀ c ∈ (toString n).toList, isBracket c = false :=
  fun _ hc => isBracket_of_isTermCharacter (isTermCharacter_of_mem_natural hc)

theorem equation?_renderLine {coefficients : Array Int} {index : Nat} {c : Constraint}
    {line : String} (h : System.renderLine coefficients index c = .ok line) :
    ∃ e, equation? line.toList = some e ∧ c.Denotes coefficients e := by
  obtain ⟨text, ht, rfl⟩ := System.renderLine_eq_ok_iff.mp h
  obtain ⟨left, right, output, hl, hr, ho, rfl⟩ := Constraint.render_eq_ok_iff.mp ht
  obtain ⟨ls, hls, hleft⟩ := side?_render hl
  obtain ⟨rs, hrs, hright⟩ := side?_render hr
  obtain ⟨os, hos, houtput⟩ := side?_render ho
  refine ⟨⟨ls, rs, os⟩, ?_, hleft, hright, houtput⟩
  simp only [equation?, String.toList_append, splitOnP_line isBracket_of_mem_natural
    (isBracket_of_mem_side hl) (isBracket_of_mem_side hr) (isBracket_of_mem_side ho), hls, hrs, hos]
  rfl

theorem decode_of_render {s : System} {text : String} (h : s.render = .ok text) :
    ∃ es, decode text = some es ∧ s.Denotes es := by
  obtain ⟨lines, hlines, rfl⟩ := System.render_eq_ok_iff.mp h
  have hne : ∀ p ∈ lines.map String.toList, p ≠ [] := by
    intro p hp
    obtain ⟨line, hmem, rfl⟩ := List.mem_map.mp hp
    obtain ⟨x, _, hx⟩ := exists_of_mem_right hlines hmem
    obtain ⟨_, _, rfl⟩ := System.renderLine_eq_ok_iff.mp hx
    simp
  have hbreak : ∀ p ∈ lines.map String.toList, '\n' ∉ p := by
    intro p hp
    obtain ⟨line, hmem, rfl⟩ := List.mem_map.mp hp
    obtain ⟨x, _, hx⟩ := exists_of_mem_right hlines hmem
    exact System.newline_notMem_renderLine hx
  have hpieces : pieces '\n' ("\n".intercalate lines).toList = lines.map String.toList := by
    rw [String.toList_intercalate]
    exact pieces_intercalate hne hbreak
  obtain ⟨es, hes, hden⟩ := exists_mapM_eq_some hlines
    (S := fun x e => x.1.Denotes s.coefficients.values e) fun _ _ => equation?_renderLine
  refine ⟨es, ?_, ?_⟩
  · rw [decode, hpieces, List.mapM_map]
    exact hes
  · have hfst : s.indexedConstraints.map Prod.fst = s.constraints.toList :=
      List.zipIdx_map_fst _ _
    rw [System.Denotes, ← hfst, List.forall₂_map_left_iff]
    exact hden

end Decoding

/-! ## From the meaning back to the terms -/

/-- A table holds no coefficient twice, so a summand shows one term only. -/
theorem Term.denotes_leftUnique (table : CoefficientTable) :
    Relator.LeftUnique (Term.Denotes table.values) := by
  intro t u v ht hu
  have hid : t.coefficientId = u.coefficientId := by
    have h₁ := (table.ids_eq_some_iff _ _).mpr ht.coefficient_eq
    have h₂ := (table.ids_eq_some_iff _ _).mpr hu.coefficient_eq
    exact Option.some.inj (h₁.symm.trans h₂)
  exact Term.eq_of_values hid (ht.variableId_eq.trans hu.variableId_eq.symm)
    (ht.visibility_eq.trans hu.visibility_eq.symm)

theorem LinearCombination.denotes_leftUnique (table : CoefficientTable) :
    Relator.LeftUnique (LinearCombination.Denotes table.values) := by
  intro x y vs hx hy
  exact LinearCombination.ext ((Term.denotes_leftUnique table).forall₂ hx hy)

theorem Constraint.denotes_leftUnique (table : CoefficientTable) :
    Relator.LeftUnique (Constraint.Denotes table.values) := by
  intro c d e hc hd
  have hside := LinearCombination.denotes_leftUnique table
  exact Constraint.ext (hside hc.left hd.left) (hside hc.right hd.right)
    (hside hc.output hd.output)

theorem System.constraints_eq_of_denotes {a b : System} {es : List Equation}
    (hab : a.coefficients = b.coefficients) (ha : a.Denotes es) (hb : b.Denotes es) :
    a.constraints = b.constraints := by
  rw [System.Denotes, ← hab] at hb
  exact Array.toList_inj.mp ((Constraint.denotes_leftUnique a.coefficients).forall₂ ha hb)

/-- The text of a system can be decoded, and under one table two systems with the same text
have the same constraints. -/
theorem decode_render_and_render_injective :
    (∀ (s : System) (text : String), s.render = .ok text →
      ∃ es, Decoding.decode text = some es ∧ s.Denotes es) ∧
    (∀ (a b : System) (text : String), a.coefficients = b.coefficients →
      a.render = .ok text → b.render = .ok text → a.constraints = b.constraints) := by
  refine ⟨fun s text h => Decoding.decode_of_render h, ?_⟩
  intro a b text hab ha hb
  obtain ⟨es, hes, haes⟩ := Decoding.decode_of_render ha
  obtain ⟨es', hes', hbes⟩ := Decoding.decode_of_render hb
  obtain rfl : es = es' := Option.some.inj (hes.symm.trans hes')
  exact System.constraints_eq_of_denotes hab haes hbes

/-- A system with a negative coefficient, a side of two terms and an empty side. -/
def Decoding.sample (counts : Counts) : System :=
  let x : Term := .ofValues CoefficientTable.minusOneId 0 .public (by decide) (by decide)
  let y : Term := .ofValues CoefficientTable.twoId 7 .internal (by decide) (by decide)
  { System.empty counts .seeded with constraints := #[⟨⟨[x, y]⟩, .empty, .single y⟩] }

theorem decode_render_sample :
    (Decoding.sample ⟨1, 0, 8⟩).render = .ok "R1C[0]: L[-1*p0 + 2*i7] * R[] = O[2*i7]" ∧
    (Decoding.sample ⟨0, 0, 0⟩).render = .ok "R1C[0]: L[-1*p0 + 2*i7] * R[] = O[2*i7]" ∧
    (∃ es, Decoding.decode "R1C[0]: L[-1*p0 + 2*i7] * R[] = O[2*i7]" = some es ∧
      (Decoding.sample ⟨1, 0, 8⟩).Denotes es) ∧
    (Decoding.sample ⟨1, 0, 8⟩).constraints = (Decoding.sample ⟨0, 0, 0⟩).constraints :=
  ⟨rfl, rfl, decode_render_and_render_injective.1 _ _ rfl,
    decode_render_and_render_injective.2 _ _ _ rfl rfl rfl⟩

end RankOne
