import RankOne.Term.Order

/-! Linear combinations, the sums of their terms. The order in which the terms were
supplied is kept, and a term may occur more than once. -/
namespace RankOne

@[ext] structure LinearCombination where
  terms : List Term
  deriving DecidableEq

namespace LinearCombination

def empty : LinearCombination := ⟨[]⟩

def single (t : Term) : LinearCombination := ⟨[t]⟩

def size (x : LinearCombination) : Nat := x.terms.length

def push (x : LinearCombination) (t : Term) : LinearCombination := ⟨x.terms ++ [t]⟩

def extend (x : LinearCombination) (terms : List Term) : LinearCombination := ⟨x.terms ++ terms⟩

def ofVisibility (x : LinearCombination) (v : Visibility) : List Term :=
  x.terms.filter fun t => t.visibility = v

/-- The first term in the canonical order. -/
def least? (x : LinearCombination) : Option Term := x.terms.min?

/-- The last term in the canonical order. -/
def greatest? (x : LinearCombination) : Option Term := x.terms.max?

def inspect (x : LinearCombination) : String :=
  "LinearExpression([" ++ ", ".intercalate (x.terms.map Term.inspect) ++ "])"

@[simp] theorem terms_empty : empty.terms = [] := rfl

@[simp] theorem terms_single (t : Term) : (single t).terms = [t] := rfl

@[simp] theorem terms_push (x : LinearCombination) (t : Term) :
    (x.push t).terms = x.terms ++ [t] := rfl

@[simp] theorem terms_extend (x : LinearCombination) (ts : List Term) :
    (x.extend ts).terms = x.terms ++ ts := rfl

end LinearCombination
end RankOne
