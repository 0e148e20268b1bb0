import RankOne.Proofs.LooseLinks

/-! Debug messages stay with the constraints that they were supplied for. Constraints and messages
are numbered apart; links lead from the one numbering to the other in the same order, and none is
missing or leads nowhere. -/
namespace RankOne.System

/-- Every debug message is linked to one constraint, and both stand in the same order. -/
structure WellLinked (s : System) : Prop where
  index_lt : ∀ {index entry : Nat}, s.debugLinks[index]? = some entry → index < s.constraints.size
  entry_lt : ∀ {index entry : Nat}, s.debugLinks[index]? = some entry →
    entry < s.debugMessages.size
  exists_link : ∀ {entry : Nat}, entry < s.debugMessages.size →
    ∃ index : Nat, s.debugLinks[index]? = some entry
  increasing : ∀ {i j e f : Nat}, s.debugLinks[i]? = some e → s.debugLinks[j]? = some f →
    i < j → e < f

/-- The constraints and debug messages of a system are those of a history. -/
structure Attached (calls : List Call) (s : System) : Prop extends WellLinked s where
  size_constraints : s.constraints.size = (calls.filter Call.addsConstraint).length
  debugMessage?_eq : ∀ index, s.debugMessage? index =
    (calls.filter Call.addsConstraint)[index]?.bind Call.debugMessage?

theorem wellLinked_empty (counts : Counts) (coefficients : CoefficientTable) :
    (empty counts coefficients).WellLinked := by
  constructor <;> simp [empty]

theorem WellLinked.existsUnique_link {s : System} (h : s.WellLinked) {entry : Nat}
    (hentry : entry < s.debugMessages.size) : ∃! index : Nat, s.debugLinks[index]? = some entry := by
  obtain ⟨index, hindex⟩ := h.exists_link hentry
  refine ⟨index, hindex, fun other hother => ?_⟩
  rcases Nat.lt_trichotomy other index with hlt | heq | hgt
  · exact absurd (h.increasing hother hindex hlt) (Nat.lt_irrefl entry)
  · exact heq
  · exact absurd (h.increasing hindex hother hgt) (Nat.lt_irrefl entry)

/-! ## One call -/

/-- Only calls that add a constraint touch what debug messages are linked to. -/
theorem debug_call_eq {c : Call} (hc : c.addsConstraint = false) (s : System) :
    (s.call c).system.constraints.size = s.constraints.size ∧
    (s.call c).system.debugMessages = s.debugMessages ∧
    (s.call c).system.debugLinks = s.debugLinks := by
  cases c with
  | addConstraint | addConstraintWithDebug => cases hc
  | addHint | addLog | canonicalize | validate | render => simp [canonicalize]

section

variable {s : System} (h : s.WellLinked) (c : Constraint) (message : Message)

include h

theorem WellLinked.addConstraint : (s.addConstraint c).2.WellLinked where
  index_lt := fun hlink => by
    rw [System.addConstraint, Array.size_push]
    exact Nat.lt_succ_of_lt (h.index_lt hlink)
  entry_lt := h.entry_lt
  exists_link := h.exists_link
  increasing := h.increasing

/-- The constraint is linked to the message, and all other links stay. -/
theorem WellLinked.debugLinks_eq_some_iff {index entry : Nat} :
    (s.addConstraintWithDebug c message).2.debugLinks[index]? = some entry ↔
      s.debugLinks[index]? = some entry ∨
        index = s.constraints.size ∧ entry = s.debugMessages.size := by
  rw [debugLinks_addConstraintWithDebug]
  split
  next hnew =>
    have hnone : s.debugLinks[index]? ≠ some entry := fun hlink =>
      absurd (h.index_lt hlink) (by omega)
    rw [Option.some.injEq, eq_comm (a := entry)]
    exact ⟨fun hentry => .inr ⟨hnew, hentry⟩, fun hlink => (hlink.resolve_left hnone).2⟩
  next hold => simp [hold]

theorem WellLinked.addConstraintWithDebug : (s.addConstraintWithDebug c message).2.WellLinked := by
  have hindex : (s.addConstraintWithDebug c message).2.constraints.size = s.constraints.size + 1 :=
    Array.size_push c
  have hentry :
      (s.addConstraintWithDebug c message).2.debugMessages.size = s.debugMessages.size + 1 :=
    Array.size_push message
  have hlink := @debugLinks_eq_some_iff s h c message
  constructor
  · intro index entry hnew
    rcases hlink.mp hnew with hold | ⟨rfl, rfl⟩
    · have := h.index_lt hold
      omega
    · omega
  · intro index entry hnew
    rcases hlink.mp hnew with hold | ⟨rfl, rfl⟩
    · have := h.entry_lt hold
      omega
    · omega
  · intro entry hlt
    rcases Nat.lt_or_eq_of_le (Nat.le_of_lt_succ (hentry ▸ hlt)) with hold | rfl
    · obtain ⟨index, hindex⟩ := h.exists_link hold
      exact ⟨index, hlink.mpr (.inl hindex)⟩
    · exact ⟨_, hlink.mpr (.inr ⟨rfl, rfl⟩)⟩
  · intro i j e f hi hj hlt
    rcases hlink.mp hi with hi | ⟨rfl, rfl⟩ <;> rcases hlink.mp hj with hj | ⟨rfl, rfl⟩
    · exact h.increasing hi hj hlt
    · exact h.entry_lt hi
    · have := h.index_lt hj
      omega
    · omega

/-- The new message is found at the new constraint, and all others where they were. -/
theorem WellLinked.debugMessage?_addConstraintWithDebug (index : Nat) :
    (s.addConstraintWithDebug c message).2.debugMessage? index =
      if index = s.constraints.size then some message else s.debugMessage? index := by
  split
  next hnew =>
    rw [hnew]
    exact s.debugMessage?_addConstraintWithDebug_self c message
  next hold =>
    have hnext : s.debugLinks[index]? ≠ some s.debugMessages.size := fun hlink =>
      absurd (h.entry_lt hlink) (Nat.lt_irrefl _)
    rw [debugMessage?_addConstraintWithDebug_of_ne s c message hold, if_neg hnext]

end

/-! ## Histories -/

section

variable {calls : List Call} {s : System} (h : Attached calls s) {c : Call}

include h

theorem Attached.call_of_not_addsConstraint (hc : c.addsConstraint = false) :
    Attached (calls ++ [c]) (s.call c).system := by
  obtain ⟨hconstraints, hmessages, hlinks⟩ := debug_call_eq hc s
  have hcalls : (calls ++ [c]).filter Call.addsConstraint = calls.filter Call.addsConstraint := by
    simp [hc]
  refine ⟨⟨?_, ?_, ?_, ?_⟩, ?_, ?_⟩ <;>
    simp only [debugMessage?, hconstraints, hmessages, hlinks, hcalls]
  · exact h.index_lt
  · exact h.entry_lt
  · exact h.exists_link
  · exact h.increasing
  · exact h.size_constraints
  · exact h.debugMessage?_eq

/-- The constraint that is added last is the one behind all others. -/
theorem Attached.bind_debugMessage?_concat (hc : c.addsConstraint = true) (index : Nat) :
    ((calls ++ [c]).filter Call.addsConstraint)[index]?.bind Call.debugMessage? =
      if index = s.constraints.size then c.debugMessage? else s.debugMessage? index := by
  have hcalls : (calls ++ [c]).filter Call.addsConstraint =
      calls.filter Call.addsConstraint ++ [c] := by
    simp [hc]
  rw [hcalls, h.debugMessage?_eq, h.size_constraints]
  split
  next hlast => rw [hlast, List.getElem?_concat_length, Option.bind_some]
  next hne => grind

theorem Attached.call_of_addsConstraint (hc : c.addsConstraint = true) :
    Attached (calls ++ [c]) (s.call c).system := by
  have hmessage := h.bind_debugMessage?_concat hc
  have hcount : ((calls ++ [c]).filter Call.addsConstraint).length = s.constraints.size + 1 := by
    simp [hc, h.size_constraints]
  cases c with
  | addConstraint c =>
    refine ⟨h.toWellLinked.addConstraint c, ?_, fun index => ?_⟩
    · rw [hcount]
      exact Array.size_push c
    · rw [hmessage]
      split
      next hnew =>
        have hnone : s.debugMessage? index = none := by
          simp [h.debugMessage?_eq, hnew, h.size_constraints]
        exact hnone
      next => rfl
  | addConstraintWithDebug c message =>
    refine ⟨h.toWellLinked.addConstraintWithDebug c message, ?_, fun index => ?_⟩
    · rw [hcount]
      exact Array.size_push c
    · rw [hmessage]
      exact h.debugMessage?_addConstraintWithDebug c message index
  | addHint | addLog | canonicalize | validate | render => cases hc

end

theorem attached_after (counts : Counts) (coefficients : CoefficientTable) (calls : List Call) :
    Attached calls ((empty counts coefficients).after calls) := by
  have hstart : Attached [] (empty counts coefficients) :=
    ⟨wellLinked_empty counts coefficients, rfl, fun index => by simp [debugMessage?, empty]⟩
  refine after_induction hstart (fun calls t c h => ?_) calls
  cases hc : c.addsConstraint with
  | false => exact h.call_of_not_addsConstraint hc
  | true => exact h.call_of_addsConstraint hc

/-- Constraints are numbered in the order in which they were added, whatever happens between, and
the debug message of a constraint is the one that it was added with. The links behind this connect
every debug message with exactly one constraint, in the order of both. -/
theorem debug_messages_stay_attached (counts : Counts) (coefficients : CoefficientTable)
    (calls : List Call) :
    let start := empty counts coefficients
    let s := start.after calls
    (∀ i index : Nat, (start.run calls)[i]?.map Outcome.answer = some (.ok (.index index)) ↔
      (∃ c, calls[i]? = some c ∧ c.addsConstraint = true) ∧
        index = ((calls.take i).filter Call.addsConstraint).length) ∧
    s.constraints.size = (calls.filter Call.addsConstraint).length ∧
    (∀ (index : Nat) (message : Message), s.debugMessage? index = some message ↔
      ∃ c, (calls.filter Call.addsConstraint)[index]? = some (.addConstraintWithDebug c message)) ∧
    (∀ index entry : Nat, s.debugLinks[index]? = some entry →
      index < s.constraints.size ∧ entry < s.debugMessages.size) ∧
    (∀ entry < s.debugMessages.size, ∃! index : Nat, s.debugLinks[index]? = some entry) ∧
    (∀ i j e f : Nat, s.debugLinks[i]? = some e → s.debugLinks[j]? = some f → i < j → e < f) := by
  intro start s
  have h : Attached calls s := attached_after counts coefficients calls
  refine ⟨fun i index => ?_, h.size_constraints, fun index message => ?_,
    fun index entry hlink => ⟨h.index_lt hlink, h.entry_lt hlink⟩,
    fun entry hentry => h.existsUnique_link hentry, fun i j e f hi hj => h.increasing hi hj⟩
  · have hbefore := (attached_after counts coefficients (calls.take i)).size_constraints
    simp only [start, getElem?_run, Option.map_map, Option.map_eq_some_iff, Function.comp_apply,
      answer_call_eq_index_iff, hbefore]
    grind
  · simp only [h.debugMessage?_eq, Option.bind_eq_some_iff, Call.debugMessage?_eq_some_iff]
    grind

/-- The second debug message belongs to the third constraint. -/
example :
    let s := (empty ⟨0, 0, 0⟩ .seeded).after
      [.addConstraint .empty, .addConstraintWithDebug .empty ⟨"a", []⟩, .canonicalize,
        .addConstraintWithDebug .empty ⟨"b", [4]⟩]
    s.debugLinks.toList = [(1, 0), (2, 1)] ∧ s.debugMessage? 2 = some ⟨"b", [4]⟩ := by
  cbv

end RankOne.System
