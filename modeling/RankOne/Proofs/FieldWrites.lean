import RankOne.Proofs.BufferedText
import RankOne.Proofs.Packing
import RankOne.Proofs.UnknownCoefficients
import RankOne.Term.Update

/-! Updates of a term as writes to its three values. Each update packs the values again with at most
one of them replaced, also the one that edits the bits of the word, so every value is the one
written last. On bare words, of which nothing is known, the same updates could come upon a word
without a visibility; they never do where they start with the word of a term. -/
namespace RankOne.Term

/-! ## What an update writes -/

namespace Update

def coefficientId? : Update → Option Nat
  | coefficientId id => some id
  | _ => none

def variableId? : Update → Option Nat
  | variableId id => some id
  | _ => none

def visibility? : Update → Option Visibility
  | visibility v => some v
  | _ => none

/-- An update packs the values of the term, except for the one that it writes. -/
theorem apply_eq_pack (t : Term) (u : Update) :
    u.apply t = pack (u.coefficientId?.getD t.coefficientId) (u.variableId?.getD t.variableId)
      (u.visibility?.getD t.visibility) := by
  cases u with
  | coefficientId id => rfl
  | variableId id => rfl
  | visibility v => exact (pack_withVisibility t v).symm
  | repack => rfl
  | reread => exact (ofWord_word t).trans (pack_values t).symm

theorem values_of_apply {t updated : Term} {u : Update} (h : u.apply t = .ok updated) :
    updated.coefficientId = u.coefficientId?.getD t.coefficientId ∧
      updated.variableId = u.variableId?.getD t.variableId ∧
      updated.visibility = u.visibility?.getD t.visibility := by
  rw [apply_eq_pack] at h
  exact pack_eq_ok_iff.mp h

end Update

theorem withCoefficientId_eq_error_iff {t : Term} {id : Nat} {fault : Fault} :
    t.withCoefficientId id = .error fault ↔
      maxCoefficientId < id ∧ fault = .oversizedId .coefficientId id maxCoefficientId := by
  have hv : ¬ maxVariableId < t.variableId := Nat.not_lt.mpr t.variableId_le
  rw [withCoefficientId, pack_eq_error_iff]
  simp [hv]

theorem withVariableId_eq_error_iff {t : Term} {id : Nat} {fault : Fault} :
    t.withVariableId id = .error fault ↔
      maxVariableId < id ∧ fault = .oversizedId .variableId id maxVariableId := by
  have hc : ¬ maxCoefficientId < t.coefficientId := Nat.not_lt.mpr t.coefficientId_le
  rw [withVariableId, pack_eq_error_iff]
  simp [hc, t.coefficientId_le]

/-! ## The last write -/

/-- The updates of a sequence that are not refused. -/
def accepted (t : Term) : List Update → List Update
  | [] => []
  | u :: us =>
    match u.apply t with
    | .ok updated => u :: updated.accepted us
    | .error _ => t.accepted us

def lastWrite {α : Type} (write? : Update → Option α) (us : List Update) : Option α :=
  (us.filterMap write?).getLast?

section

variable {t updated : Term} {u : Update}

theorem updates_cons_of_ok (h : u.apply t = .ok updated) (us : List Update) :
    t.updates (u :: us) = updated.updates us := by
  rw [updates, List.foldl_cons, update, h, updates]

theorem updates_cons_of_error {fault : Fault} (h : u.apply t = .error fault) (us : List Update) :
    t.updates (u :: us) = t.updates us := by
  rw [updates, List.foldl_cons, update, h, updates]

theorem accepted_cons_of_ok (h : u.apply t = .ok updated) (us : List Update) :
    t.accepted (u :: us) = u :: updated.accepted us := by
  rw [accepted, h]

theorem accepted_cons_of_error {fault : Fault} (h : u.apply t = .error fault) (us : List Update) :
    t.accepted (u :: us) = t.accepted us := by
  rw [accepted, h]

end

section

variable {α : Type} {write? : Update → Option α}

theorem getD_lastWrite_cons (u : Update) (us : List Update) (a : α) :
    (lastWrite write? (u :: us)).getD a = (lastWrite write? us).getD ((write? u).getD a) := by
  cases hu : write? u with
  | none => rw [lastWrite, List.filterMap_cons_none hu, lastWrite, Option.getD_none]
  | some b =>
    rw [lastWrite, List.filterMap_cons_some hu, List.getLast?_cons, lastWrite, Option.getD_some,
      Option.getD_some]

/-- A value that one update changes to what it writes there is, after all, what was written last. -/
theorem view_updates {view : Term → α}
    (hstep : ∀ {t updated : Term} {u : Update}, u.apply t = .ok updated →
      view updated = (write? u).getD (view t)) (t : Term) (us : List Update) :
    view (t.updates us) = (lastWrite write? (t.accepted us)).getD (view t) := by
  induction us generalizing t with
  | nil => rfl
  | cons u us ih =>
    cases hu : u.apply t with
    | error fault => rw [updates_cons_of_error hu, accepted_cons_of_error hu, ih t]
    | ok updated =>
      rw [updates_cons_of_ok hu, accepted_cons_of_ok hu, ih updated, hstep hu,
        getD_lastWrite_cons]

end

theorem unpack_updates (t : Term) (us : List Update) :
    (t.updates us).unpack =
      ((lastWrite Update.coefficientId? (t.accepted us)).getD t.coefficientId,
        (lastWrite Update.variableId? (t.accepted us)).getD t.variableId,
        (lastWrite Update.visibility? (t.accepted us)).getD t.visibility) := by
  rw [unpack, view_updates (fun h => (Update.values_of_apply h).1),
    view_updates (fun h => (Update.values_of_apply h).2.1),
    view_updates (fun h => (Update.values_of_apply h).2.2)]

/-! ## Bare words -/

/-- The visibility that a word holds, if it holds one. -/
def wordVisibility? (word : UInt64) : Option Visibility :=
  Visibility.ofTag? (Layout.visibility.read word)

/-- An update of a bare word. It breaks off where it needs the visibility of a word without one;
the edit of the bits does not look at it. -/
def Update.applyToWord (word : UInt64) : Update → Option (Except Fault UInt64)
  | coefficientId id =>
    (wordVisibility? word).map fun v => (pack id (Layout.variableId.read word) v).map Term.word
  | variableId id =>
    (wordVisibility? word).map fun v => (pack (Layout.coefficient.read word) id v).map Term.word
  | visibility v => some (.ok (Layout.visibility.write word v.tag))
  | repack =>
    (wordVisibility? word).map fun v =>
      (pack (Layout.coefficient.read word) (Layout.variableId.read word) v).map Term.word
  | reread => some ((ofWord word).map Term.word)

/-- A refused update leaves the word as it is. -/
def updateWord (word : UInt64) (u : Update) : Option UInt64 :=
  (u.applyToWord word).map fun
    | .ok updated => updated
    | .error _ => word

def updateWords (word : UInt64) (us : List Update) : Option UInt64 := us.foldlM updateWord word

theorem wordVisibility?_word (t : Term) : wordVisibility? t.word = some t.visibility := by
  rw [wordVisibility?, Visibility.ofTag?_eq_some_iff, tag_visibility, tag]

theorem applyToWord_word (t : Term) (u : Update) :
    u.applyToWord t.word = some ((u.apply t).map Term.word) := by
  cases u with
  | coefficientId | variableId | repack =>
    rw [Update.applyToWord, wordVisibility?_word]
    rfl
  | visibility | reread => rfl

theorem updateWord_word (t : Term) (u : Update) : updateWord t.word u = some (t.update u).word := by
  rw [updateWord, applyToWord_word, update]
  cases u.apply t <;> rfl

/-- On the word of a term no update breaks off, and the words stay those of the updated terms. -/
theorem updateWords_word (t : Term) (us : List Update) :
    updateWords t.word us = some (t.updates us).word := by
  induction us generalizing t with
  | nil => rfl
  | cons u us ih =>
    have hstep := updateWord_word t u
    calc updateWords t.word (u :: us)
        = (updateWord t.word u).bind (updateWords · us) := List.foldlM_cons
      _ = updateWords (t.update u).word us := by rw [hstep, Option.bind_some]
      _ = some (t.updates (u :: us)).word := ih (t.update u)

end Term

/-! ## Texts -/

/-- The visibility of a term is never what its text is refused for. -/
theorem LinearCombination.write_ne_undefinedVisibility (x : LinearCombination)
    (coefficients : Array Int) (tag : Nat) :
    (x.write coefficients).text ≠ .error (.undefinedVisibility tag) := by
  intro h
  rw [(x.writes_render coefficients).text_eq] at h
  obtain ⟨place, t, -, hfault⟩ := ((x.refusedForUnknown_render coefficients).error_iff _).mp h
  cases hfault

namespace Term

/-- The updates of a term write its values one by one. An id that does not fit is refused with its
own field, and then nothing changes; re-encoding changes nothing either. Made on bare words the same
updates never come upon a word without a visibility, and no text is refused for one. -/
theorem updates_write_values (t : Term) (us : List Update) :
    (t.updates us).unpack =
      ((lastWrite Update.coefficientId? (t.accepted us)).getD t.coefficientId,
        (lastWrite Update.variableId? (t.accepted us)).getD t.variableId,
        (lastWrite Update.visibility? (t.accepted us)).getD t.visibility) ∧
    (∀ id fault, t.withCoefficientId id = .error fault ↔
      2 ^ 30 - 1 < id ∧ fault = .oversizedId .coefficientId id (2 ^ 30 - 1)) ∧
    (∀ id fault, t.withVariableId id = .error fault ↔
      2 ^ 31 - 1 < id ∧ fault = .oversizedId .variableId id (2 ^ 31 - 1)) ∧
    (∀ v, pack t.coefficientId t.variableId v = .ok (t.withVisibility v)) ∧
    pack t.coefficientId t.variableId t.visibility = .ok t ∧
    ofWord t.word = .ok t ∧
    (∃ word, updateWords t.word us = some word ∧ (word >>> 61).toNat ≤ 4 ∧
      wordVisibility? word = some (t.updates us).visibility ∧
      ofWord word = .ok (t.updates us)) ∧
    (∀ (starts : List (Term × List Update)) (coefficients : Array Int) (tag : Nat),
      ((⟨starts.map fun start => start.1.updates start.2⟩ : LinearCombination).write
        coefficients).text ≠ .error (.undefinedVisibility tag)) := by
  refine ⟨unpack_updates t us, fun id fault => withCoefficientId_eq_error_iff,
    fun id fault => withVariableId_eq_error_iff, pack_withVisibility t, pack_values t,
    ofWord_word t, ?_, fun starts => LinearCombination.write_ne_undefinedVisibility _⟩
  refine ⟨(t.updates us).word, updateWords_word t us, ?_, wordVisibility?_word _, ofWord_word _⟩
  rw [← read_visibility_eq]
  exact (t.updates us).tag_le_four

/-- The id that does not fit is not written, and of two visibilities the later one stays. -/
example :
    let t : Term := .ofValues 1 2 .secret (by decide) (by decide)
    (t.updates [.variableId 7, .visibility .unset, .variableId (2 ^ 31), .repack,
      .visibility .virtual]).unpack = (1, 7, .virtual) := by
  decide

/-- A word without a visibility breaks an update off that has to know it. -/
example : updateWords ((7 : UInt64) <<< 61) [.coefficientId 0] = none := by
  decide

end RankOne.Term
