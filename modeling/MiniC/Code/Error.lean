import MiniC.Program.OneLine

/-! Why a program has no code. -/
namespace MiniC

/-- Why a program has no code. -/
inductive SemanticError where
  | tooManyParameters (function : String) (count : Nat)
  | tooManyArguments (callee : String) (count : Nat)
  | notAssignable (target : Expr)
  | notAddressable (operand : Expr)
  | noSlot (name : String)
  deriving Repr

/-- The error in words. -/
def SemanticError.message : SemanticError → String
  | tooManyParameters function count =>
    "function \"" ++ function ++ "\" takes " ++ toString count ++
      " parameters, at most " ++ toString maxArity ++ " are supported"
  | tooManyArguments callee count =>
    "call to \"" ++ callee ++ "\" passes " ++ toString count ++
      " arguments, at most " ++ toString maxArity ++ " are supported"
  | notAssignable target =>
    "left-hand side of assignment is not an lvalue: " ++ target.oneLine
  | notAddressable operand => "cannot take the address of " ++ operand.oneLine
  | noSlot name => "no stack slot for \"" ++ name ++ "\""

end MiniC
