import MiniC.Program.Basic

/-! The one-line form of an expression.

Operators stand before their operands in brackets, `(+ a 1)`, and calls are written as in the
source, `f(a, 1)`. -/
namespace MiniC

/-- A number or a variable. -/
def Expr.isLeaf : Expr → Bool
  | .num _ | .var _ => true
  | _ => false

mutual

/-- The one-line form. -/
def Expr.oneLine : Expr → String
  | .num value => toString value.toInt
  | .var name => name
  | .unary op operand => "(" ++ op.symbol ++ " " ++ operand.oneLine ++ ")"
  | .binary op lhs rhs => "(" ++ op.symbol ++ " " ++ lhs.oneLine ++ " " ++ rhs.oneLine ++ ")"
  | .assign lhs rhs => "(= " ++ lhs.oneLine ++ " " ++ rhs.oneLine ++ ")"
  | .call callee args => callee ++ "(" ++ String.intercalate ", " (Expr.oneLines args) ++ ")"

/-- The one-line forms of consecutive expressions. -/
def Expr.oneLines : List Expr → List String
  | [] => []
  | e :: es => e.oneLine :: Expr.oneLines es

end

end MiniC
