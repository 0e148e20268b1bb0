import Mathlib.Data.Finset.Card
import RankOne.Proofs.Histories

/-! A wire keeps the first hint that is named for it. Later hints for the wire are refused, and of
the first only the order of terms within its inputs can change. -/
namespace RankOne.System

/-- The wires that a history names hints for, once for every attempt. -/
def hintWires (calls : List Call) : List Nat := calls.filterMap Call.hintWire?

theorem mem_hintWires_iff {calls : List Call} {wire : Nat} :
    wire ∈ hintWires calls ↔ ∃ h, .addHint h ∈ calls ∧ h.wire = wire := by
  simp only [hintWires, List.mem_filterMap, Call.hintWire?_eq_some_iff]
  constructor
  · rintro ⟨_, hmem, h, rfl, hw⟩
    exact ⟨h, hmem, hw⟩
  · rintro ⟨h, hmem, hw⟩
    exact ⟨_, hmem, h, rfl, hw⟩

theorem mem_hintWires_cons_iff {c : Call} {rest : List Call} {wire : Nat} :
    wire ∈ hintWires (c :: rest) ↔ c.hintWire? = some wire ∨ wire ∈ hintWires rest := by
  simp [hintWires, List.mem_filterMap]

/-- A wire that is named at all is named a first time. -/
theorem exists_first_of_mem_hintWires {calls : List Call} {wire : Nat}
    (hwire : wire ∈ hintWires calls) :
    ∃ earlier h later, calls = earlier ++ .addHint h :: later ∧ h.wire = wire ∧
      wire ∉ hintWires earlier := by
  induction calls with
  | nil => cases hwire
  | cons c rest ih =>
    by_cases hc : c.hintWire? = some wire
    · obtain ⟨h, rfl, hw⟩ := Call.hintWire?_eq_some_iff.mp hc
      exact ⟨[], h, rest, rfl, hw, List.not_mem_nil⟩
    · obtain ⟨earlier, h, later, rfl, hw, hnot⟩ :=
        ih ((mem_hintWires_cons_iff.mp hwire).resolve_left hc)
      refine ⟨c :: earlier, h, later, rfl, hw, fun hmem => ?_⟩
      exact (mem_hintWires_cons_iff.mp hmem).elim hc hnot

/-! ## The hint of one wire -/

section

variable {s : System} {wire : Nat}

theorem hint?_call_of_none (hs : s.hint? wire = none) {c : Call} (hc : c.hintWire? ≠ some wire) :
    (s.call c).system.hint? wire = none := by
  simp [hint?_call_of_ne s hc, hs]

theorem hint?_call_of_some {k : Hint} (hs : s.hint? wire = some k) (c : Call) :
    (s.call c).system.hint? wire = some (if c = .canonicalize then k.canonical else k) := by
  by_cases hc : c.hintWire? = some wire
  · obtain ⟨h, rfl, rfl⟩ := Call.hintWire?_eq_some_iff.mp hc
    rw [hint?_call_addHint, hs]
    rfl
  · rw [hint?_call_of_ne s hc, hs]
    split <;> rfl

theorem hint?_after_of_none (hs : s.hint? wire = none) {calls : List Call}
    (hcalls : wire ∉ hintWires calls) : (s.after calls).hint? wire = none := by
  induction calls generalizing s with
  | nil => exact hs
  | cons c rest ih =>
    rw [mem_hintWires_cons_iff, not_or] at hcalls
    exact ih (hint?_call_of_none hs hcalls.1) hcalls.2

/-- Calls can only sort the inputs of a hint that is stored. -/
theorem hint?_after_of_some {k : Hint} (hs : s.hint? wire = some k) (calls : List Call) :
    (s.after calls).hint? wire = some (if .canonicalize ∈ calls then k.canonical else k) := by
  induction calls generalizing s k with
  | nil => simpa using hs
  | cons c rest ih =>
    rw [after_cons, ih (hint?_call_of_some hs c)]
    by_cases hc : c = .canonicalize <;> by_cases hrest : .canonicalize ∈ rest <;>
      simp [hc, hrest, eq_comm]

/-- A hint is accepted where its wire has none, and then only its inputs are ever sorted. -/
theorem hint?_after_first {earlier later : List Call} {h : Hint} (hs : s.hint? h.wire = none)
    (hfirst : h.wire ∉ hintWires earlier) :
    (s.after (earlier ++ .addHint h :: later)).hint? h.wire =
      some (if .canonicalize ∈ later then h.canonical else h) := by
  have hnone := hint?_after_of_none hs hfirst
  have hadded : ((s.after earlier).call (.addHint h)).system.hint? h.wire = some h := by
    rw [hint?_call_addHint, hnone, Option.none_or]
  rw [after_append, after_cons]
  exact hint?_after_of_some hadded later

end

/-! ## Histories of a new system -/

section

variable (counts : Counts) (coefficients : CoefficientTable) {calls : List Call} {wire : Nat}

theorem hint?_empty : (empty counts coefficients).hint? wire = none := by
  simp [hint?, empty]

theorem hint?_after_empty_iff {k : Hint} :
    ((empty counts coefficients).after calls).hint? wire = some k ↔
      ∃ earlier h later, calls = earlier ++ .addHint h :: later ∧ h.wire = wire ∧
        wire ∉ hintWires earlier ∧ k = if .canonicalize ∈ later then h.canonical else h := by
  constructor
  · intro hk
    by_cases hwire : wire ∈ hintWires calls
    · obtain ⟨earlier, h, later, rfl, rfl, hfirst⟩ := exists_first_of_mem_hintWires hwire
      rw [hint?_after_first (hint?_empty counts coefficients) hfirst] at hk
      exact ⟨earlier, h, later, rfl, rfl, hfirst, (Option.some.inj hk).symm⟩
    · rw [hint?_after_of_none (hint?_empty counts coefficients) hwire] at hk
      cases hk
  · rintro ⟨earlier, h, later, rfl, rfl, hfirst, rfl⟩
    exact hint?_after_first (hint?_empty counts coefficients) hfirst

/-- The wires with a hint are those that hints were named for. -/
theorem mem_hints_after_empty_iff :
    wire ∈ ((empty counts coefficients).after calls).hints ↔ wire ∈ hintWires calls := by
  rw [← Std.ExtTreeMap.isSome_getElem?_iff_mem, Option.isSome_iff_exists]
  constructor
  · rintro ⟨k, hk⟩
    obtain ⟨earlier, h, later, rfl, rfl, -⟩ := (hint?_after_empty_iff counts coefficients).mp hk
    exact mem_hintWires_iff.mpr ⟨h, by simp, rfl⟩
  · intro hwire
    obtain ⟨earlier, h, later, rfl, rfl, hfirst⟩ := exists_first_of_mem_hintWires hwire
    exact ⟨_, hint?_after_first (hint?_empty counts coefficients) hfirst⟩

theorem size_hints_after_empty :
    ((empty counts coefficients).after calls).hints.size = (hintWires calls).toFinset.card := by
  have hkeys : ((empty counts coefficients).after calls).hints.keys.Nodup :=
    Std.ExtTreeMap.distinct_keys.imp fun hne heq => hne (by simp [heq])
  rw [← Std.ExtTreeMap.length_keys, ← List.toFinset_card_of_nodup hkeys]
  congr 1
  ext wire
  simp [mem_hints_after_empty_iff]

theorem answer_addHint_after_empty (h : Hint) :
    (((empty counts coefficients).after calls).call (.addHint h)).answer =
      if h.wire ∈ hintWires calls then .error (.duplicateHint h.wire) else .ok .done := by
  rw [answer_call_addHint]
  simp only [mem_hints_after_empty_iff]

end

/-- The first hint named for a wire is accepted and all others are refused, which changes nothing.
A wire keeps the hint that was accepted for it: canonical order sorts the inputs, and nothing else
of the hint ever changes. -/
theorem wires_keep_first_hint (counts : Counts) (coefficients : CoefficientTable)
    (calls : List Call) :
    let start := empty counts coefficients
    let s := start.after calls
    (∀ (i : Nat) (h : Hint), calls[i]? = some (.addHint h) →
      ∃ outcome, (start.run calls)[i]? = some outcome ∧
        (outcome.answer = .ok .done ↔ h.wire ∉ hintWires (calls.take i)) ∧
        (outcome.answer ≠ .ok .done →
          outcome.answer = .error (.duplicateHint h.wire) ∧
            outcome.system = start.after (calls.take i))) ∧
    (∀ (wire : Nat) (h : Hint), s.hints[wire]? = some h → h.wire = wire) ∧
    s.hints.size = (hintWires calls).toFinset.card ∧
    (∀ wire, s.isHintWire wire = true ↔ wire ∈ hintWires calls) ∧
    (∀ (wire : Nat) (k : Hint), s.hint? wire = some k ↔
      ∃ earlier h later, calls = earlier ++ .addHint h :: later ∧ h.wire = wire ∧
        wire ∉ hintWires earlier ∧
        k = if .canonicalize ∈ later then
          { h with inputs := h.inputs.map LinearCombination.canonical } else h) := by
  intro start s
  refine ⟨fun i h hi => ?_, fun wire h hget => ?_, size_hints_after_empty counts coefficients,
    fun wire => ?_, fun wire k => hint?_after_empty_iff counts coefficients⟩
  · have hanswer : ((start.after (calls.take i)).call (.addHint h)).answer = _ :=
      answer_addHint_after_empty counts coefficients h
    refine ⟨(start.after (calls.take i)).call (.addHint h), by simp [getElem?_run, hi], ?_⟩
    rw [hanswer]
    by_cases hnamed : h.wire ∈ hintWires (calls.take i)
    · have hmem : h.wire ∈ (start.after (calls.take i)).hints :=
        (mem_hints_after_empty_iff counts coefficients).mpr hnamed
      simp [hnamed, system_call_addHint_of_mem _ hmem]
    · simp [hnamed]
  · obtain ⟨earlier, g, later, -, rfl, -, rfl⟩ := (hint?_after_empty_iff counts coefficients).mp hget
    split <;> rfl
  · rw [isHintWire, Std.ExtTreeMap.contains_iff_mem, mem_hints_after_empty_iff]

end RankOne.System
