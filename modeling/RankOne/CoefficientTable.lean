import RankOne.Fault
import RankOne.Term.Basic
import Std.Data.ExtTreeMap

/-! The coefficients that terms refer to by id. A table holds every integer at most
once, in the order of first use, and finds the id of an integer as well as the
integer of an id. -/
namespace RankOne

def lookupCoefficient (coefficients : Array Int) (id : Nat) : Except Fault Int :=
  match coefficients[id]? with
  | some value => .ok value
  | none => .error (.unknownCoefficient id coefficients.size)

structure CoefficientTable where
  values : Array Int
  ids : Std.ExtTreeMap Int Nat
  ids_eq_some_iff : ∀ (value : Int) (id : Nat), ids[value]? = some id ↔ values[id]? = some value

namespace CoefficientTable

def empty : CoefficientTable where
  values := #[]
  ids := ∅
  ids_eq_some_iff := by simp

/-- The table with one more coefficient, which has the next id. -/
def append (t : CoefficientTable) (value : Int) (fresh : t.ids[value]? = none) : CoefficientTable where
  values := t.values.push value
  ids := t.ids.insert value t.values.size
  ids_eq_some_iff := by
    intro v id
    have old := t.ids_eq_some_iff
    rw [Std.ExtTreeMap.getElem?_insert, Array.getElem?_push]
    grind

def size (t : CoefficientTable) : Nat := t.values.size

def toList (t : CoefficientTable) : List Int := t.values.toList

/-- Exactly the values that the table does not hold can be appended to it. -/
theorem ids_eq_none_iff {t : CoefficientTable} {value : Int} :
    t.ids[value]? = none ↔ value ∉ t.toList := by
  rw [Option.eq_none_iff_forall_ne_some, toList, Array.mem_toList_iff, Array.mem_iff_getElem?]
  simp only [ne_eq, t.ids_eq_some_iff, not_exists]

@[simp] theorem toList_empty : empty.toList = [] := rfl

@[simp] theorem toList_append (t : CoefficientTable) (value : Int) (fresh : t.ids[value]? = none) :
    (t.append value fresh).toList = t.toList ++ [value] := Array.toList_push

/-- The table that holds only 0, 1, 2 and -1, in this order. They are appended without a search,
since none of them is there before its turn. -/
def seeded : CoefficientTable :=
  empty
    |>.append 0 (ids_eq_none_iff.2 (by simp))
    |>.append 1 (ids_eq_none_iff.2 (by simp))
    |>.append 2 (ids_eq_none_iff.2 (by simp))
    |>.append (-1) (ids_eq_none_iff.2 (by simp))

@[simp] theorem toList_seeded : seeded.toList = [0, 1, 2, -1] := rfl

/-! The ids of the seeded values, also in every table that grew out of the seeded one. -/

def zeroId : Nat := 0
def oneId : Nat := 1
def twoId : Nat := 2
def minusOneId : Nat := 3

/-- The id of a value, and a table that holds the value: one that is not in the table yet
is appended, however long the table is. -/
def add (t : CoefficientTable) (value : Int) : Nat × CoefficientTable :=
  match h : t.ids[value]? with
  | some id => (id, t)
  | none => (t.values.size, t.append value h)

def get (t : CoefficientTable) (id : Nat) : Except Fault Int := lookupCoefficient t.values id

/-- The id of a value, appending it where needed. A new value is refused once its id would
not fit into a term. -/
def intern (t : CoefficientTable) (value : Int) : Except Fault (Nat × CoefficientTable) :=
  if t.ids[value]? = none ∧ Term.maxCoefficientId < t.size then
    .error (.oversizedId .coefficientId t.size Term.maxCoefficientId)
  else .ok (t.add value)

/-- Interns values in order, with their ids; the first refusal stops. -/
def internAll (t : CoefficientTable) : List Int → Except Fault (List Nat × CoefficientTable)
  | [] => .ok ([], t)
  | value :: rest => do
    let (id, t) ← t.intern value
    let (ids, t) ← t.internAll rest
    return (id :: ids, t)

/-! ## Growth -/

/-- A table is determined by its coefficients in order. -/
@[ext] theorem ext {s t : CoefficientTable} (h : s.values = t.values) : s = t := by
  have hids : s.ids = t.ids := by
    refine Std.ExtTreeMap.ext_getElem? fun value => Option.ext fun id => ?_
    rw [s.ids_eq_some_iff, t.ids_eq_some_iff, h]
  cases s
  cases t
  cases h
  cases hids
  rfl

/-- The coefficients of a table are pairwise different. -/
theorem nodup_toList (t : CoefficientTable) : t.toList.Nodup := by
  refine List.pairwise_iff_getElem.2 fun i j hi hj hij heq => ?_
  simp only [toList, Array.length_toList] at hi hj
  simp only [toList, Array.getElem_toList] at heq
  have h₁ := (t.ids_eq_some_iff t.values[i] i).2 (Array.getElem?_eq_getElem hi)
  have h₂ := (t.ids_eq_some_iff t.values[i] j).2 (heq ▸ Array.getElem?_eq_getElem hj)
  have := Option.some.inj (h₁.symm.trans h₂)
  omega

theorem toList_add (t : CoefficientTable) (value : Int) :
    (t.add value).2.toList = if value ∈ t.toList then t.toList else t.toList ++ [value] := by
  unfold add
  split
  next id h =>
    have : value ∈ t.toList := by
      simpa [toList] using Array.mem_of_getElem? ((t.ids_eq_some_iff value id).1 h)
    simp [this]
  next h =>
    rw [if_neg (ids_eq_none_iff.1 h)]
    exact t.toList_append value h

/-- The id that `add` returns is where the value stands afterwards. -/
theorem getElem?_add (t : CoefficientTable) (value : Int) :
    (t.add value).2.values[(t.add value).1]? = some value := by
  unfold add
  split
  next id h => exact (t.ids_eq_some_iff value id).1 h
  next h => simp [append]

end CoefficientTable
end RankOne
