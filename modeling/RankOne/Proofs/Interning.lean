import Mathlib.Algebra.Group.Nat.Defs
import Mathlib.Data.List.Nodup
import RankOne.CoefficientTable

/-! Interning keeps the first occurrence of every value. A table that was filled with the values
of a history holds them in the order of first use, and the id of a value is its position there;
positions never change, because a longer history only appends. -/
namespace RankOne.CoefficientTable

/-! ## First occurrences -/

theorem eraseDups_concat (values : List Int) (value : Int) :
    (values ++ [value]).eraseDups =
      if value ∈ values then values.eraseDups else values.eraseDups ++ [value] := by
  rw [List.eraseDups_append]
  by_cases h : value ∈ values
  · simp [List.removeAll, h]
  · simp [List.removeAll, h, List.eraseDups_cons]

/-- A longer history keeps the positions of the values in the shorter one. -/
theorem idxOf_eraseDups_append {values : List Int} {value : Int} (h : value ∈ values)
    (more : List Int) :
    (values ++ more).eraseDups.idxOf value = values.eraseDups.idxOf value := by
  rw [List.eraseDups_append]
  exact List.idxOf_append_of_mem (List.mem_eraseDups.mpr h)

theorem length_eraseDups_le_append (values more : List Int) :
    values.eraseDups.length ≤ (values ++ more).eraseDups.length := by
  rw [List.eraseDups_append, List.length_append]
  omega

/-! ## Positions and ids -/

theorem getElem?_values_iff {t : CoefficientTable} {value : Int} {id : Nat} :
    t.values[id]? = some value ↔ value ∈ t.toList ∧ t.toList.idxOf value = id := by
  rw [← Array.getElem?_toList]
  constructor
  · intro h
    obtain ⟨hid, hget⟩ := List.getElem?_eq_some_iff.mp h
    subst hget
    exact ⟨List.getElem_mem hid, t.nodup_toList.idxOf_getElem id hid⟩
  · rintro ⟨hmem, rfl⟩
    exact List.getElem?_idxOf hmem

/-- The id of a value is its position. -/
theorem add_fst_eq_idxOf (t : CoefficientTable) (value : Int) :
    (t.add value).1 = (t.add value).2.toList.idxOf value :=
  (getElem?_values_iff.mp (t.getElem?_add value)).2.symm

theorem get_eq_ok_iff {t : CoefficientTable} {value : Int} {id : Nat} :
    t.get id = .ok value ↔ t.values[id]? = some value := by
  unfold get lookupCoefficient
  cases t.values[id]? <;> simp

theorem exists_get_eq_ok_iff {t : CoefficientTable} {id : Nat} :
    (∃ value, t.get id = .ok value) ↔ id < t.size := by
  simp only [get_eq_ok_iff, Array.getElem?_eq_some_iff, size]
  constructor
  · rintro ⟨value, hid, -⟩
    exact hid
  · intro hid
    exact ⟨t.values[id], hid, rfl⟩

theorem get_eq_error_iff {t : CoefficientTable} {id : Nat} {fault : Fault} :
    t.get id = .error fault ↔ t.size ≤ id ∧ fault = .unknownCoefficient id t.size := by
  unfold get lookupCoefficient
  split
  next value hget =>
    have hid : id < t.size := (Array.getElem?_eq_some_iff.mp hget).1
    simp [Nat.not_le.mpr hid]
  next hget =>
    have hid : t.values.size ≤ id := Array.getElem?_eq_none_iff.mp hget
    simp [hid, eq_comm, size]

/-! ## Filling a table -/

/-- Adds values in order, however long the table grows. -/
def addAll (t : CoefficientTable) (values : List Int) : CoefficientTable :=
  values.foldl (fun t value => (t.add value).2) t

section

variable {t : CoefficientTable} {history : List Int} (h : t.toList = history.eraseDups)

include h

theorem size_of_history : history.eraseDups.length = t.size := by
  rw [← h, toList, Array.length_toList, size]

theorem toList_add_of_history (value : Int) :
    (t.add value).2.toList = (history ++ [value]).eraseDups := by
  rw [toList_add, eraseDups_concat, h]
  simp only [List.mem_eraseDups]

theorem toList_addAll_of_history (values : List Int) :
    (t.addAll values).toList = (history ++ values).eraseDups := by
  induction values generalizing t history with
  | nil => simpa [addAll] using h
  | cons value rest ih =>
    have hrest := ih (toList_add_of_history h value)
    rw [List.append_assoc, List.singleton_append] at hrest
    exact hrest

/-- A value is accepted where the table has room for it, or holds it already. -/
theorem intern_of_history {value : Int}
    (hfits : (history ++ [value]).eraseDups.length ≤ 2 ^ 30) :
    t.intern value = .ok (t.add value) := by
  have hmax : Term.maxCoefficientId = 2 ^ 30 - 1 := rfl
  apply if_neg
  rintro ⟨hnew, hfull⟩
  rw [ids_eq_none_iff, h, List.mem_eraseDups] at hnew
  rw [eraseDups_concat, if_neg hnew, List.length_append, size_of_history h,
    List.length_singleton] at hfits
  omega

/-- A new value that would be one too many is refused. -/
theorem intern_of_history_full (hsize : t.size ≤ 2 ^ 30) {value : Int}
    (hfull : 2 ^ 30 < (history ++ [value]).eraseDups.length) :
    t.intern value = .error (.oversizedId .coefficientId (2 ^ 30) (2 ^ 30 - 1)) := by
  have hmax : Term.maxCoefficientId = 2 ^ 30 - 1 := rfl
  rw [eraseDups_concat] at hfull
  have hnew : value ∉ history := by
    intro hmem
    rw [if_pos hmem, size_of_history h] at hfull
    omega
  rw [if_neg hnew, List.length_append, size_of_history h, List.length_singleton] at hfull
  have hlast : t.size = 2 ^ 30 := by omega
  have hnone : t.ids[value]? = none := by
    rw [ids_eq_none_iff, h, List.mem_eraseDups]
    exact hnew
  rw [intern, if_pos ⟨hnone, by omega⟩, hlast, hmax]

end

theorem internAll_cons_of_ok {t : CoefficientTable} {value : Int}
    (hvalue : t.intern value = .ok (t.add value)) (rest : List Int) :
    t.internAll (value :: rest) =
      ((t.add value).2.internAll rest).map fun r => ((t.add value).1 :: r.1, r.2) := by
  rw [internAll, hvalue]
  rfl

theorem internAll_cons_of_error {t : CoefficientTable} {value : Int} {fault : Fault}
    (hvalue : t.intern value = .error fault) (rest : List Int) :
    t.internAll (value :: rest) = .error fault := by
  rw [internAll, hvalue]
  rfl

/-- Values that fit all get their positions among the first occurrences. -/
theorem internAll_of_history {t : CoefficientTable} {history values : List Int}
    (h : t.toList = history.eraseDups)
    (hfits : (history ++ values).eraseDups.length ≤ 2 ^ 30) :
    t.internAll values =
      .ok (values.map (history ++ values).eraseDups.idxOf, t.addAll values) := by
  -- Every step moves a value into the history, and the id returned for it stays its position.
  induction values generalizing t history with
  | nil => rfl
  | cons value rest ih =>
    rw [List.append_cons] at hfits ⊢
    have hvalue : (history ++ [value]).eraseDups.length ≤ 2 ^ 30 :=
      Nat.le_trans (length_eraseDups_le_append _ rest) hfits
    have hlist := toList_add_of_history h value
    have hposition : (t.add value).1 = (history ++ [value] ++ rest).eraseDups.idxOf value := by
      rw [idxOf_eraseDups_append (by simp), ← hlist, add_fst_eq_idxOf]
    rw [internAll_cons_of_ok (intern_of_history h hvalue), ih hlist hfits, List.map_cons,
      ← hposition]
    rfl

/-- Values that do not all fit are refused, however many of them do. -/
theorem internAll_of_history_full {t : CoefficientTable} {history values : List Int}
    (h : t.toList = history.eraseDups) (hsize : t.size ≤ 2 ^ 30)
    (hfull : 2 ^ 30 < (history ++ values).eraseDups.length) :
    t.internAll values = .error (.oversizedId .coefficientId (2 ^ 30) (2 ^ 30 - 1)) := by
  induction values generalizing t history with
  | nil =>
    rw [List.append_nil, size_of_history h] at hfull
    omega
  | cons value rest ih =>
    rw [List.append_cons] at hfull
    by_cases hvalue : (history ++ [value]).eraseDups.length ≤ 2 ^ 30
    · have hlist := toList_add_of_history h value
      have hgrown : (t.add value).2.size ≤ 2 ^ 30 := size_of_history hlist ▸ hvalue
      rw [internAll_cons_of_ok (intern_of_history h hvalue), ih hlist hgrown hfull]
      rfl
    · exact internAll_cons_of_error (intern_of_history_full h hsize (by omega)) rest

/-! ## From the seeded table on -/

/-- The seeded values and then the given ones, each at its first occurrence only. -/
def firstUses (values : List Int) : List Int := ([0, 1, 2, -1] ++ values).eraseDups

theorem toList_seeded_eq_eraseDups : seeded.toList = [0, 1, 2, -1].eraseDups :=
  toList_seeded

theorem mem_firstUses {values : List Int} {value : Int} :
    value ∈ firstUses values ↔ value ∈ [0, 1, 2, -1] ++ values :=
  List.mem_eraseDups

/-- The seeded values keep their ids in every table that grew out of the seeded one. -/
theorem map_idxOf_seeds (values : List Int) :
    [0, 1, 2, -1].map (firstUses values).idxOf = [zeroId, oneId, twoId, minusOneId] := by
  have hkeep : ∀ seed ∈ [0, 1, 2, -1], (firstUses values).idxOf seed =
      [0, 1, 2, -1].eraseDups.idxOf seed :=
    fun seed hseed => idxOf_eraseDups_append hseed values
  rw [List.map_congr_left hkeep]
  rfl

/-- Interning from the seeded table succeeds exactly where all values fit. -/
theorem exists_internAll_seeded_iff {values : List Int} :
    (∃ ids t, seeded.internAll values = .ok (ids, t)) ↔ (firstUses values).length ≤ 2 ^ 30 := by
  constructor
  · rintro ⟨ids, t, hok⟩
    by_contra hfull
    have hsize : seeded.size ≤ 2 ^ 30 := by
      rw [← size_of_history toList_seeded_eq_eraseDups]
      decide
    rw [internAll_of_history_full toList_seeded_eq_eraseDups hsize (Nat.not_le.mp hfull)] at hok
    cases hok
  · intro hfits
    exact ⟨_, _, internAll_of_history toList_seeded_eq_eraseDups hfits⟩

section

variable {values : List Int} {ids : List Nat} {t : CoefficientTable}
  (hok : seeded.internAll values = .ok (ids, t))

include hok

theorem toList_and_ids_of_internAll :
    t.toList = firstUses values ∧ ids = values.map (firstUses values).idxOf := by
  have hfits : (firstUses values).length ≤ 2 ^ 30 :=
    exists_internAll_seeded_iff.mp ⟨ids, t, hok⟩
  rw [internAll_of_history toList_seeded_eq_eraseDups hfits] at hok
  cases hok
  exact ⟨toList_addAll_of_history toList_seeded_eq_eraseDups values, rfl⟩

/-- Two calls return the same id exactly when they are given the same value. -/
theorem getElem?_ids_eq_iff (i j : Nat) : ids[i]? = ids[j]? ↔ values[i]? = values[j]? := by
  obtain ⟨-, rfl⟩ := toList_and_ids_of_internAll hok
  rw [List.getElem?_map, List.getElem?_map]
  cases hi : values[i]? with
  | none => cases values[j]? <;> simp
  | some a =>
    cases values[j]? with
    | none => simp
    | some b =>
      have ha : a ∈ firstUses values :=
        mem_firstUses.mpr (List.mem_append_right _ (List.mem_of_getElem? hi))
      rw [Option.map_some, Option.map_some, Option.some.injEq, Option.some.injEq,
        List.idxOf_inj ha]

/-- The values with their ids are those seeded and those given, with the ids returned for them. -/
theorem getElem?_values_iff_mem_zip {value : Int} {id : Nat} :
    t.values[id]? = some value ↔
      (value, id) ∈ [(0, zeroId), (1, oneId), (2, twoId), (-1, minusOneId)] ++ values.zip ids := by
  obtain ⟨hlist, rfl⟩ := toList_and_ids_of_internAll hok
  have hzip : [(0, zeroId), (1, oneId), (2, twoId), (-1, minusOneId)] ++
      values.zip (values.map (firstUses values).idxOf) =
        ([0, 1, 2, -1] ++ values).map fun v => (v, (firstUses values).idxOf v) := by
    rw [List.map_append, List.map_prod_left_eq_zip, List.map_prod_left_eq_zip, map_idxOf_seeds]
    rfl
  rw [getElem?_values_iff, hlist, hzip, mem_firstUses, List.mem_map]
  constructor
  · rintro ⟨hmem, rfl⟩
    exact ⟨value, hmem, rfl⟩
  · rintro ⟨v, hmem, heq⟩
    cases heq
    exact ⟨hmem, rfl⟩

end

/-- A table that was filled from the seeded one is the list of the first occurrences: it refuses
what does not fit, returns positions as ids, and answers every id with its value. -/
theorem internAll_seeded_refines_firstUses (values : List Int) :
    ((∃ ids t, seeded.internAll values = .ok (ids, t)) ↔ (firstUses values).length ≤ 2 ^ 30) ∧
    ∀ ids t, seeded.internAll values = .ok (ids, t) →
      t.toList = firstUses values ∧
      ids = values.map (firstUses values).idxOf ∧
      (∀ i j : Nat, ids[i]? = ids[j]? ↔ values[i]? = values[j]?) ∧
      (∀ (value : Int) (id : Nat), t.ids[value]? = some id ↔ t.values[id]? = some value) ∧
      (∀ (value : Int) (id : Nat), t.ids[value]? = some id ↔
        value ∈ firstUses values ∧ (firstUses values).idxOf value = id) ∧
      (∀ id, (∃ value, t.get id = .ok value) ↔ id < t.size) ∧
      (∀ value id, t.get id = .ok value ↔
        (value, id) ∈
          [(0, zeroId), (1, oneId), (2, twoId), (-1, minusOneId)] ++ values.zip ids) ∧
      (∀ id fault, t.get id = .error fault ↔
        t.size ≤ id ∧ fault = .unknownCoefficient id t.size) := by
  refine ⟨exists_internAll_seeded_iff, ?_⟩
  intro ids t hok
  obtain ⟨hlist, hids⟩ := toList_and_ids_of_internAll hok
  refine ⟨hlist, hids, getElem?_ids_eq_iff hok, t.ids_eq_some_iff, ?_, ?_, ?_, ?_⟩
  · intro value id
    rw [t.ids_eq_some_iff, getElem?_values_iff, hlist]
  · intro id
    exact exists_get_eq_ok_iff
  · intro value id
    exact get_eq_ok_iff.trans (getElem?_values_iff_mem_zip hok)
  · intro id fault
    exact get_eq_error_iff

/-- The value 5 is given twice, and 1 and -1 are held from the start. -/
example : (seeded.internAll [5, 1, 5, -1, 7]).map Prod.fst = .ok [4, 1, 4, 3, 5] :=
  rfl

end RankOne.CoefficientTable
