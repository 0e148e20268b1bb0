import RankOne.Proofs.Histories

/-! Debug messages in a system whose links may lead anywhere: behind the last message, from an index
that no constraint has, or several to one message. What was found for a constraint is still found
after constraints are added. Only a link that leads just behind the last message comes to lead
somewhere, when a message is added there. -/
namespace RankOne.System

/-! ## Messages and links -/

section

variable {s : System} {index : Nat} {message : Message}

/-- A link that leads just behind the last message leads nowhere yet. -/
theorem debugMessage?_eq_none_of_next (h : s.debugLinks[index]? = some s.debugMessages.size) :
    s.debugMessage? index = none := by
  rw [debugMessage?, h, Option.bind_some]
  exact Array.getElem?_eq_none (Nat.le_refl _)

end

/-! ## One more constraint -/

section

variable (s : System) (c : Constraint) (message : Message)

theorem debugMessage?_addConstraint (index : Nat) :
    (s.addConstraint c).2.debugMessage? index = s.debugMessage? index := rfl

/-- The new constraint is linked to the entry behind the old messages; all other links stay. -/
theorem debugLinks_addConstraintWithDebug (index : Nat) :
    (s.addConstraintWithDebug c message).2.debugLinks[index]? =
      if index = s.constraints.size then some s.debugMessages.size else s.debugLinks[index]? := by
  simp only [addConstraintWithDebug, Std.ExtTreeMap.getElem?_insert, Std.compare_eq_iff_eq,
    eq_comm (a := index)]

theorem mem_debugLinks_addConstraintWithDebug {index : Nat} :
    index ∈ (s.addConstraintWithDebug c message).2.debugLinks ↔
      index = s.constraints.size ∨ index ∈ s.debugLinks := by
  simp only [addConstraintWithDebug, Std.ExtTreeMap.mem_insert, Std.compare_eq_iff_eq,
    eq_comm (a := index)]

theorem debugMessages_addConstraintWithDebug (entry : Nat) :
    (s.addConstraintWithDebug c message).2.debugMessages[entry]? =
      if entry = s.debugMessages.size then some message else s.debugMessages[entry]? :=
  Array.getElem?_push

/-- A link that was left over for the new constraint is overwritten. -/
theorem debugMessage?_addConstraintWithDebug_self :
    (s.addConstraintWithDebug c message).2.debugMessage? s.constraints.size = some message := by
  rw [debugMessage?, debugLinks_addConstraintWithDebug, if_pos rfl, Option.bind_some,
    debugMessages_addConstraintWithDebug, if_pos rfl]

theorem debugMessage?_addConstraintWithDebug_of_ne {index : Nat} (h : index ≠ s.constraints.size) :
    (s.addConstraintWithDebug c message).2.debugMessage? index =
      if s.debugLinks[index]? = some s.debugMessages.size then some message
      else s.debugMessage? index := by
  rw [debugMessage?, debugLinks_addConstraintWithDebug, if_neg h]
  cases hlink : s.debugLinks[index]? with
  | none => simp [debugMessage?, hlink]
  | some entry =>
    rw [Option.bind_some, debugMessages_addConstraintWithDebug, debugMessage?, hlink,
      Option.bind_some]
    simp only [Option.some.injEq]

end

/-! ## Calls -/

section

variable {s : System} {index : Nat} {message : Message}

theorem size_constraints_le_call (s : System) (c : Call) :
    s.constraints.size ≤ (s.call c).system.constraints.size := by
  cases c <;> simp [canonicalize]

/-- What a constraint is linked to is found again after every call. -/
theorem debugMessage?_call_of_some (hs : s.debugMessage? index = some message)
    (hindex : index < s.constraints.size) (c : Call) :
    (s.call c).system.debugMessage? index = some message := by
  cases c with
  | addConstraintWithDebug c added =>
    have hne := Nat.ne_of_lt hindex
    have hnext : s.debugLinks[index]? ≠ some s.debugMessages.size := by
      intro hlink
      rw [debugMessage?_eq_none_of_next hlink] at hs
      cases hs
    exact (debugMessage?_addConstraintWithDebug_of_ne s c added hne).trans ((if_neg hnext).trans hs)
  | addHint h =>
    rw [system_call_addHint]
    exact hs
  | validate =>
    rw [system_call_validate]
    exact hs
  | addConstraint | addLog | canonicalize | render => exact hs

theorem debugMessage?_after_of_some (hs : s.debugMessage? index = some message)
    (hindex : index < s.constraints.size) (calls : List Call) :
    (s.after calls).debugMessage? index = some message := by
  induction calls generalizing s with
  | nil => exact hs
  | cons c rest ih =>
    exact ih (debugMessage?_call_of_some hs hindex c)
      (Nat.lt_of_lt_of_le hindex (size_constraints_le_call s c))

end

/-- Constraints can be added to a system in any state without disturbing its debug messages. A
constraint without a message changes no answer; one with a message gets it, also in place of a link
that was left over, and adds the one link. Of all other answers only those change that a link just
behind the last message was waiting for. What is found for a constraint is found after all calls. -/
theorem adding_respects_debug_links (s : System) (c : Constraint) :
    (∀ index, (s.addConstraint c).2.debugMessage? index = s.debugMessage? index) ∧
    (∀ message : Message,
      let next := s.constraints.size
      let t := (s.addConstraintWithDebug c message).2
      (s.addConstraintWithDebug c message).1 = next ∧
      t.debugMessage? next = some message ∧
      (∀ index, index ∈ t.debugLinks ↔ index = next ∨ index ∈ s.debugLinks) ∧
      (∀ index : Nat, index ≠ next → t.debugLinks[index]? = s.debugLinks[index]?) ∧
      (∀ index : Nat, index ≠ next → s.debugLinks[index]? ≠ some s.debugMessages.size →
        t.debugMessage? index = s.debugMessage? index) ∧
      (∀ index : Nat, index ≠ next → s.debugLinks[index]? = some s.debugMessages.size →
        s.debugMessage? index = none ∧ t.debugMessage? index = some message) ∧
      (∀ index old, index ≠ next → s.debugMessage? index = some old →
        t.debugMessage? index = some old)) ∧
    (∀ calls index message, index < s.constraints.size → s.debugMessage? index = some message →
      (s.after calls).debugMessage? index = some message) := by
  refine ⟨s.debugMessage?_addConstraint c, fun message => ?_,
    fun calls index message hindex hs => debugMessage?_after_of_some hs hindex calls⟩
  have hother := @debugMessage?_addConstraintWithDebug_of_ne s c message
  refine ⟨rfl, s.debugMessage?_addConstraintWithDebug_self c message,
    fun index => s.mem_debugLinks_addConstraintWithDebug c message, ?_, ?_, ?_, ?_⟩
  · intro index hne
    rw [debugLinks_addConstraintWithDebug, if_neg hne]
  · intro index hne hlink
    rw [hother hne, if_neg hlink]
  · intro index hne hlink
    rw [hother hne, if_pos hlink]
    exact ⟨debugMessage?_eq_none_of_next hlink, rfl⟩
  · intro index old hne hold
    rw [hother hne, if_neg, hold]
    intro hlink
    rw [debugMessage?_eq_none_of_next hlink] at hold
    cases hold

/-- Constraint 0 shows the first message, the link of constraint 1 leads just behind it, and a link
for constraint 2 is left over. When constraint 2 is added, it gets the message, and so does
constraint 1. -/
theorem adding_respects_debug_links_sample :
    let old : Message := ⟨"old", [0]⟩
    let new : Message := ⟨"new", []⟩
    let s : System :=
      { empty ⟨0, 0, 0⟩ .seeded with
        constraints := #[.empty, .empty]
        debugMessages := #[old]
        debugLinks := ((((∅ : Std.ExtTreeMap Nat Nat).insert 0 0).insert 1 1).insert 2 0).insert 5 0 }
    let t := (s.addConstraintWithDebug .empty new).2
    s.debugMessage? 2 = some old ∧ t.debugMessage? 2 = some new ∧
      (5 ≠ s.constraints.size ∧ s.debugLinks[5]? ≠ some s.debugMessages.size ∧
        t.debugLinks[5]? = s.debugLinks[5]? ∧ t.debugMessage? 5 = s.debugMessage? 5) ∧
      (1 ≠ s.constraints.size ∧ s.debugLinks[1]? = some s.debugMessages.size ∧
        s.debugMessage? 1 = none ∧ t.debugMessage? 1 = some new) ∧
      (0 ≠ s.constraints.size ∧ 0 < s.constraints.size ∧ s.debugMessage? 0 = some old ∧
        t.debugMessage? 0 = some old ∧ (s.after [.canonicalize]).debugMessage? 0 = some old) := by
  intro old new s t
  have hleft : s.debugMessage? 2 = some old := by cbv
  have hfound : s.debugMessage? 0 = some old := by cbv
  have hfive : s.debugLinks[5]? ≠ some s.debugMessages.size := by cbv; decide
  have hnext : s.debugLinks[1]? = some s.debugMessages.size := by cbv
  have hsize : 0 < s.constraints.size := by decide
  obtain ⟨-, hadded, hcalls⟩ := adding_respects_debug_links s .empty
  obtain ⟨-, hself, -, hlinks, hothers, hwaiting, hkept⟩ := hadded new
  refine ⟨hleft, hself, ⟨by decide, hfive, hlinks 5 (by decide), hothers 5 (by decide) hfive⟩,
    ⟨by decide, hnext, hwaiting 1 (by decide) hnext⟩, ?_⟩
  exact ⟨by decide, hsize, hfound, hkept 0 old (by decide) hfound,
    hcalls [.canonicalize] 0 old hsize hfound⟩

end RankOne.System
