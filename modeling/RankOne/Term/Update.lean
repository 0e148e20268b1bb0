import RankOne.Term.Basic

/-! Changes to one value of a term, and re-encodings that change none. -/
namespace RankOne.Term

/-- One step that makes a term out of another. -/
inductive Update where
  | coefficientId (id : Nat)
  | variableId (id : Nat)
  | visibility (visibility : Visibility)
  /-- Unpacks the term and packs its values again. -/
  | repack
  /-- Reads the term from its own word. -/
  | reread
  deriving DecidableEq, Repr

/-- The updated term; an id that does not fit is refused. -/
def Update.apply (t : Term) : Update → Except Fault Term
  | coefficientId id => t.withCoefficientId id
  | variableId id => t.withVariableId id
  | visibility v => .ok (t.withVisibility v)
  | repack => pack t.coefficientId t.variableId t.visibility
  | reread => ofWord t.word

/-- A refused update leaves the term as it is. -/
def update (t : Term) (u : Update) : Term :=
  match u.apply t with
  | .ok updated => updated
  | .error _ => t

def updates (t : Term) (us : List Update) : Term := us.foldl update t

end RankOne.Term
