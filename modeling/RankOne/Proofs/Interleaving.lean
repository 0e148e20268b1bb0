import RankOne.Proofs.Histories

/-! Calls that touch different parts of a system can be made in any order, and canonical order need
be restored only once. Both follow from views of a system that some calls cannot change: what a
view shows depends on the other calls alone. -/
namespace RankOne

/-! ## Views -/

/-- A view of a system that only relevant calls change, each in a way that depends on nothing but
what the view shows. -/
structure DeterminedBy {V : Type*} (view : System → V) (relevant : Call → Bool) : Prop where
  skips : ∀ s c, relevant c = false → view (s.call c).system = view s
  follows : ∀ s t c, view s = view t → view (s.call c).system = view (t.call c).system

section

variable {V : Type*} {view : System → V} {relevant : Call → Bool}

theorem DeterminedBy.after_filter (h : DeterminedBy view relevant) {s t : System}
    (hst : view s = view t) (calls : List Call) :
    view (s.after calls) = view (t.after (calls.filter relevant)) := by
  induction calls generalizing s t with
  | nil => exact hst
  | cons c rest ih =>
    cases hc : relevant c with
    | true =>
      rw [List.filter_cons_of_pos hc]
      exact ih (h.follows s t c hst)
    | false =>
      rw [List.filter_cons_of_neg (by simp [hc])]
      exact ih ((h.skips s c hc).trans hst)

/-- Histories with the same relevant calls look the same. -/
theorem DeterminedBy.after_eq (h : DeterminedBy view relevant) (s : System) {calls others : List Call}
    (hsame : calls.filter relevant = others.filter relevant) :
    view (s.after calls) = view (s.after others) := by
  calc view (s.after calls) = view (s.after (calls.filter relevant)) := h.after_filter rfl calls
    _ = view (s.after (others.filter relevant)) := by rw [hsame]
    _ = view (s.after others) := (h.after_filter rfl others).symm

end

namespace System

/-! ## The parts of a system -/

theorem determinedBy_declarations :
    DeterminedBy (fun s => (s.counts, s.coefficients)) fun _ => false := by
  have hkept : ∀ (s : System) (c : Call),
      ((s.call c).system.counts, (s.call c).system.coefficients) = (s.counts, s.coefficients) := by
    intro s c
    cases c <;> simp [canonicalize]
  exact ⟨fun s c _ => hkept s c, fun s t c hst => by rw [hkept, hkept, hst]⟩

theorem determinedBy_logs : DeterminedBy logs Call.addsLog := by
  constructor
  · intro s c hc
    cases c with
    | addLog => cases hc
    | addConstraint | addConstraintWithDebug | addHint | canonicalize | validate | render =>
      simp [canonicalize]
  · intro s t c hst
    cases c <;> simp [canonicalize, hst]

/-- Constraints and their debug messages change as constraints are added, and with the order of
terms. -/
theorem determinedBy_constraints :
    DeterminedBy (fun s => (s.constraints, s.debugMessages, s.debugLinks))
      fun c => c.addsConstraint || c = .canonicalize := by
  constructor
  · intro s c hc
    cases c with
    | addConstraint | addConstraintWithDebug | canonicalize => simp [Call.addsConstraint] at hc
    | addHint | addLog | validate | render => simp
  · intro s t c hst
    obtain ⟨hconstraints, hmessages, hlinks⟩ : s.constraints = t.constraints ∧
        s.debugMessages = t.debugMessages ∧ s.debugLinks = t.debugLinks := by simpa using hst
    cases c <;> simp [canonicalize, hconstraints, hmessages, hlinks]

/-- The hint of a wire changes as hints are named for this wire, and with the order of terms. -/
theorem determinedBy_hint (wire : Nat) :
    DeterminedBy (hint? · wire) fun c => c.hintWire? = some wire || c = .canonicalize := by
  constructor
  · intro s c hc
    obtain ⟨hwire, horder⟩ : c.hintWire? ≠ some wire ∧ c ≠ .canonicalize := by simpa using hc
    exact (hint?_call_of_ne s hwire).trans (if_neg horder)
  · intro s t c hst
    by_cases hc : c.hintWire? = some wire
    · obtain ⟨h, rfl, rfl⟩ := Call.hintWire?_eq_some_iff.mp hc
      simp only [hint?_call_addHint, hst]
    · simp only [hint?_call_of_ne _ hc, hst]

/-! ## Canonical order -/

/-- Canonical order that is restored after a call need not be restored before it. -/
theorem canonicalize_call (s : System) (c : Call) :
    (s.canonicalize.call c).system.canonicalize = (s.call c).system.canonicalize := by
  have hhints : ∀ wire, (s.canonicalize.call c).system.canonicalize.hint? wire =
      (s.call c).system.canonicalize.hint? wire := by
    intro wire
    by_cases hc : c.hintWire? = some wire
    · obtain ⟨h, rfl, rfl⟩ := Call.hintWire?_eq_some_iff.mp hc
      simp only [hint?_canonicalize, hint?_call_addHint]
      cases s.hint? h.wire <;> simp
    · simp only [hint?_canonicalize, hint?_call_of_ne _ hc]
      split <;> simp
  refine System.ext ?_ ?_ ?_ (Std.ExtTreeMap.ext_getElem? hhints) ?_ ?_ ?_ <;>
    cases c <;> simp [canonicalize]

theorem determinedBy_canonicalize : DeterminedBy canonicalize fun c => c ≠ .canonicalize := by
  constructor
  · intro s c hc
    obtain rfl : c = .canonicalize := by simpa using hc
    simp
  · intro s t c hst
    rw [← canonicalize_call s, hst, canonicalize_call]

/-! ## Independent calls -/

/-- The same constraints and the same logs in the same order, and for every wire the same hints in
the same order; how these are interleaved is left open. -/
structure SameParts (calls others : List Call) : Prop where
  constraints : calls.filter Call.addsConstraint = others.filter Call.addsConstraint
  logs : calls.filter Call.addsLog = others.filter Call.addsLog
  hints : ∀ wire, calls.filter (·.hintWire? = some wire) = others.filter (·.hintWire? = some wire)

theorem filter_or_eq_filter {calls : List Call} (h : .canonicalize ∉ calls) (p : Call → Bool) :
    calls.filter (fun c => p c || c = .canonicalize) = calls.filter p := by
  refine List.filter_congr fun c hc => ?_
  have hne : c ≠ .canonicalize := fun heq => h (heq ▸ hc)
  simp [hne]

theorem SameParts.after_eq {calls others : List Call} (h : SameParts calls others)
    (hcalls : .canonicalize ∉ calls) (hothers : .canonicalize ∉ others) (s : System) :
    s.after calls = s.after others := by
  -- Without calls that sort, the filters that the views depend on are those of the parts.
  have hsame : ∀ p : Call → Bool, calls.filter p = others.filter p →
      calls.filter (fun c => p c || c = .canonicalize) =
        others.filter fun c => p c || c = .canonicalize := by
    intro p hp
    rw [filter_or_eq_filter hcalls, filter_or_eq_filter hothers, hp]
  have hnothing : ∀ more : List Call, more.filter (fun _ => false) = [] :=
    fun more => List.filter_eq_nil_iff.mpr (by simp)
  obtain ⟨hcounts, hcoefficients⟩ := Prod.mk.inj
    (determinedBy_declarations.after_eq s ((hnothing calls).trans (hnothing others).symm))
  obtain ⟨hconstraints, hdebug⟩ :=
    Prod.mk.inj (determinedBy_constraints.after_eq s (hsame _ h.constraints))
  obtain ⟨hmessages, hlinks⟩ := Prod.mk.inj hdebug
  have hhints : (s.after calls).hints = (s.after others).hints :=
    Std.ExtTreeMap.ext_getElem? fun wire =>
      (determinedBy_hint wire).after_eq s (hsame _ (h.hints wire))
  exact System.ext hcounts hcoefficients hconstraints hhints (determinedBy_logs.after_eq s h.logs)
    hmessages hlinks

theorem after_concat_canonicalize (s : System) (calls : List Call) :
    s.after (calls ++ [.canonicalize]) = (s.after calls).canonicalize := by
  rw [after_append]
  rfl

/-- Calls for different parts of a system can be interleaved in any way. Canonical order can be
restored between them or not, as long as it is restored in the end. -/
theorem independent_calls_commute (s : System) :
    (∀ calls others : List Call, SameParts calls others →
      .canonicalize ∉ calls → .canonicalize ∉ others →
        s.after calls = s.after others ∧
        (s.after calls).validate = (s.after others).validate ∧
        (s.after calls).render = (s.after others).render) ∧
    (∀ calls others : List Call,
      calls.filter (· ≠ .canonicalize) = others.filter (· ≠ .canonicalize) →
        s.after (calls ++ [.canonicalize]) = s.after (others ++ [.canonicalize])) := by
  constructor
  · intro calls others hparts hcalls hothers
    rw [hparts.after_eq hcalls hothers s]
    exact ⟨rfl, rfl, rfl⟩
  · intro calls others hsame
    rw [after_concat_canonicalize, after_concat_canonicalize]
    exact determinedBy_canonicalize.after_eq s hsame

/-- Two wires get their hints in either order, and one of them a hint that is refused. -/
theorem independent_calls_commute_sample :
    let first : Call := .addHint ⟨0, ⟨1⟩, []⟩
    let duplicate : Call := .addHint ⟨0, ⟨2⟩, []⟩
    let other : Call := .addHint ⟨1, ⟨3⟩, []⟩
    let constraint : Call := .addConstraintWithDebug .empty .empty
    let start := empty ⟨0, 0, 2⟩ .seeded
    SameParts [first, constraint, duplicate, .addLog .empty, other]
      [.addLog .empty, other, first, duplicate, constraint] ∧
    start.after [first, constraint, duplicate, .addLog .empty, other] =
      start.after [.addLog .empty, other, first, duplicate, constraint] := by
  intro first duplicate other constraint start
  have hparts : SameParts [first, constraint, duplicate, .addLog .empty, other]
      [.addLog .empty, other, first, duplicate, constraint] := by
    refine ⟨by decide, by decide, fun wire => ?_⟩
    rcases wire with _ | _ | wire <;>
      simp [first, duplicate, other, constraint, Call.hintWire?]
  exact ⟨hparts, ((independent_calls_commute start).1 _ _ hparts (by decide) (by decide)).1⟩

end System
end RankOne
