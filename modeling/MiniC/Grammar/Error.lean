import MiniC.Program.Basic
import MiniC.Token.Basic

/-! Why a list of tokens is no program. -/
namespace MiniC

/-- What the grammar asks for at some place. -/
inductive Expected where
  | symbol (text : String)
  | number
  | identifier
  deriving DecidableEq, Repr

/-- Why a list of tokens is no program. The absence of a found token means the end of the
input. -/
inductive GrammarError where
  | expected (what : Expected) (found : Option Token)
  | emptyNumber (literal : Token)
  | numberTooLarge (literal : Token)
  | tooManyArguments (callee : Token)
  | tooManyParameters (function : Token)
  | leftover (token : Token)
  deriving DecidableEq, Repr

/-- A text between double quotes. -/
def quoted (text : String) : String :=
  "\"" ++ text ++ "\""

/-- What was asked for, in words. -/
def Expected.describe : Expected → String
  | symbol text => quoted text
  | number => "a number"
  | identifier => "an identifier"

namespace GrammarError

/-- The token that the error is about; none at the end of the input. -/
def culprit : GrammarError → Option Token
  | expected _ found => found
  | emptyNumber literal => some literal
  | numberTooLarge literal => some literal
  | tooManyArguments callee => some callee
  | tooManyParameters function => some function
  | leftover token => some token

/-- The error in words. -/
def message : GrammarError → String
  | expected what (some found) =>
    "expected " ++ what.describe ++ ", but got " ++ quoted found.text
  | expected what none => "expected " ++ what.describe ++ ", but reached end of input"
  | emptyNumber literal =>
    "invalid number " ++ quoted literal.text ++ ": cannot parse integer from empty string"
  | numberTooLarge literal =>
    "invalid number " ++ quoted literal.text ++ ": number too large to fit in target type"
  | tooManyArguments callee =>
    "too many arguments in call to " ++ quoted callee.text ++ " (at most " ++
      toString maxArity ++ ")"
  | tooManyParameters function =>
    "too many parameters in " ++ quoted function.text ++ " (at most " ++
      toString maxArity ++ ")"
  | leftover token => "extra characters: " ++ quoted token.text

end GrammarError

end MiniC
