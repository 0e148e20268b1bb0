/-! Messages whose placeholders stand for wires that are known only once the
system is solved. -/
namespace RankOne

/-- A template, and the wires that its placeholders refer to, in order. -/
@[ext] structure Message where
  template : String
  wires : List Nat
  deriving DecidableEq, Repr

def Message.empty : Message := ⟨"", []⟩

end RankOne
