import MiniC.Program.Basic

/-! Levels of precedence and the operators that belong to each. -/
namespace MiniC

/-- What an expression may be in a given place, from the loosest level to the tightest. -/
inductive Level where
  | assignment
  | equality
  | relational
  | additive
  | multiplicative
  | sign
  | address
  | primary
  deriving DecidableEq, Repr

namespace Level

/-- How many levels are tighter. -/
def rank : Level → Nat
  | assignment => 7
  | equality => 6
  | relational => 5
  | additive => 4
  | multiplicative => 3
  | sign => 2
  | address => 1
  | primary => 0

/-- The next tighter level; the tightest is its own. -/
def tighter : Level → Level
  | assignment => equality
  | equality => relational
  | relational => additive
  | additive => multiplicative
  | multiplicative => sign
  | sign => address
  | address => primary
  | primary => primary

/-- The binary operators of a level. They associate to the left. -/
def binOps : Level → List BinOp
  | equality => [.eq, .ne]
  | relational => [.ge, .le, .gt, .lt]
  | additive => [.add, .sub]
  | multiplicative => [.mul, .div]
  | _ => []

/-- The unary operators of a level. Their operand is of the same level. -/
def unOps : Level → List UnOp
  | sign => [.plus, .minus]
  | address => [.address, .deref]
  | _ => []

/-- The binary operator of a level that is written `text`. -/
def binOp? (l : Level) (text : String) : Option BinOp :=
  l.binOps.find? (·.symbol = text)

/-- The unary operator of a level that is written `text`. -/
def unOp? (l : Level) (text : String) : Option UnOp :=
  l.unOps.find? (·.symbol = text)

end Level

end MiniC
