/-! Integers in signed decimal text. Leading zeros are allowed and do not count, and
the sign may be `+` or `-`; the usual text of every integer reads back. -/
namespace RankOne.Text.Decimal

/-- Reads a non-empty run of the digits `0` to `9`. -/
def natural? (text : List Char) : Option Nat :=
  if text ≠ [] ∧ text.all Char.isDigit then some (Nat.ofDigitChars 10 text 0) else none

/-- Reads digits with at most one sign in front. -/
def integer? : List Char → Option Int
  | '-' :: digits => (natural? digits).map fun n => -(n : Int)
  | '+' :: digits => (natural? digits).map fun n => (n : Int)
  | digits => (natural? digits).map fun n => (n : Int)

theorem isDigit_of_mem_repr {n : Nat} {c : Char} (h : c ∈ n.repr.toList) : c.isDigit = true := by
  rw [Nat.toList_repr] at h
  exact Nat.isDigit_of_mem_toDigits (by decide) (by decide) h

@[simp] theorem natural?_repr (n : Nat) : natural? n.repr.toList = some n := by
  have hd : n.repr.toList.all Char.isDigit = true :=
    List.all_eq_true.2 fun _ => isDigit_of_mem_repr
  have hn : n.repr.toList ≠ [] := by
    rw [Nat.toList_repr]
    exact Nat.toDigits_ne_nil
  rw [natural?, if_pos ⟨hn, hd⟩, Nat.toList_repr, Nat.ofDigitChars_toDigits (by decide) (by decide)]

@[simp] theorem integer?_repr (n : Int) : integer? n.repr.toList = some n := by
  cases n with
  | ofNat n =>
    have hm : ∀ ds, n.repr.toList ≠ '-' :: ds := fun ds h =>
      absurd (isDigit_of_mem_repr (n := n) (h ▸ List.mem_cons_self)) (by decide)
    have hp : ∀ ds, n.repr.toList ≠ '+' :: ds := fun ds h =>
      absurd (isDigit_of_mem_repr (n := n) (h ▸ List.mem_cons_self)) (by decide)
    change integer? n.repr.toList = some (n : Int)
    unfold integer?
    split
    next ds h => exact absurd h (hm ds)
    next ds h => exact absurd h (hp ds)
    next =>
      rw [natural?_repr]
      rfl
  | negSucc n =>
    have h : (Int.negSucc n).repr.toList = '-' :: (n + 1).repr.toList := by
      simp [Int.repr]
    rw [h, integer?, natural?_repr]
    rfl

end RankOne.Text.Decimal
