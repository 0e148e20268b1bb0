import RankOne.Fault

/-! Writing into one buffer that all parts of a text share. A writer that stops at a fault leaves
in the buffer what it wrote up to there. -/
namespace RankOne

abbrev Writer := EStateM Fault String Unit

namespace Writer

def append (text : String) : Writer := modify (· ++ text)

/-- An element at its place, with the separator in front of it unless it is the first. -/
def element {α : Type} (separator : String) (write : α → Nat → Writer) (x : α) (index : Nat) :
    Writer := do
  if 0 < index then append separator
  write x index

/-- The elements one after the other, and the separator between any two of them. -/
def separated {α : Type} (separator : String) (write : α → Nat → Writer) (xs : List α) : Writer :=
  xs.zipIdx.forM fun (x, index) => element separator write x index

/-- What is written into an empty buffer, which is dropped at a fault. -/
def text (w : Writer) : Except Fault String :=
  match w.run "" with
  | .ok _ buffer => .ok buffer
  | .error fault _ => .error fault

end Writer
end RankOne
