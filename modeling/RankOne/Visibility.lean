/-! Who supplies the value of a variable. The tag of a visibility is its priority
and also the number that stands for it in a packed term. -/
namespace RankOne

/-- Who supplies the value of a variable, lowest priority first. -/
inductive Visibility where
  /-- Not classified yet. -/
  | unset
  /-- Derived from constraints and hints. -/
  | internal
  | secret
  | «public»
  /-- Introduced while compiling. -/
  | virtual
  deriving DecidableEq, Repr

namespace Visibility

def all : List Visibility := [.unset, .internal, .secret, .public, .virtual]

/-- The priority, which is also the number stored in a packed term. -/
def tag : Visibility → Nat
  | .unset => 0
  | .internal => 1
  | .secret => 2
  | .public => 3
  | .virtual => 4

/-- The visibility with the given tag; numbers above four stand for none. -/
def ofTag? : Nat → Option Visibility
  | 0 => some .unset
  | 1 => some .internal
  | 2 => some .secret
  | 3 => some .public
  | 4 => some .virtual
  | _ => none

/-- The letter in front of a variable id in rendered text. -/
def letter : Visibility → Char
  | .unset => 'u'
  | .internal => 'i'
  | .secret => 's'
  | .public => 'p'
  | .virtual => 'v'

def name : Visibility → String
  | .unset => "unset"
  | .internal => "internal"
  | .secret => "secret"
  | .public => "public"
  | .virtual => "virtual"

/-- The capitalised name, as messages about a term write it. -/
def title : Visibility → String
  | .unset => "Unset"
  | .internal => "Internal"
  | .secret => "Secret"
  | .public => "Public"
  | .virtual => "Virtual"

instance : Ord Visibility where
  compare a b := compare a.tag b.tag

theorem tag_le_four (v : Visibility) : v.tag ≤ 4 := by
  cases v <;> decide

theorem mem_all (v : Visibility) : v ∈ all := by
  cases v <;> decide

theorem ofTag?_eq_some_iff {n : Nat} {v : Visibility} : ofTag? n = some v ↔ n = v.tag := by
  constructor
  · intro h
    unfold ofTag? at h
    split at h <;> cases h <;> rfl
  · rintro rfl
    cases v <;> rfl

@[simp] theorem ofTag?_tag (v : Visibility) : ofTag? v.tag = some v :=
  ofTag?_eq_some_iff.2 rfl

theorem isSome_ofTag?_iff {n : Nat} : (ofTag? n).isSome ↔ n ≤ 4 := by
  rw [Option.isSome_iff_exists]
  constructor
  · rintro ⟨v, hv⟩
    exact ofTag?_eq_some_iff.1 hv ▸ tag_le_four v
  · intro h
    match n, h with
    | 0, _ | 1, _ | 2, _ | 3, _ | 4, _ => exact ⟨_, rfl⟩

theorem tag_injective {v w : Visibility} (h : v.tag = w.tag) : v = w := by
  simpa using congrArg ofTag? h

theorem letter_injective {v w : Visibility} (h : v.letter = w.letter) : v = w := by
  cases v <;> cases w <;> simp_all [letter]

end Visibility
end RankOne
