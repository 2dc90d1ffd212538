import MiniC.Grammar.Statement

/-! Reading whole programs. -/
namespace MiniC

/-- What a whole input is: one expression whose value `main` returns, the statements of the
body of `main`, or function definitions. -/
inductive Dialect where
  | expression
  | statements
  | functions
  deriving DecidableEq, Repr, Inhabited

/-- The program that a list of tokens forms in a dialect. -/
def parse (dialect : Dialect) (tokens : List Token) : Except GrammarError Program :=
  match dialect with
  | .expression => do
    let (e, ⟨rest, _⟩) ← Step.expression .assignment tokens
    match rest with
    | [] => return [Function.main [.ret e]]
    | t :: _ => throw (.leftover t)
  | .statements => do
    let body ← Step.many Step.statement tokens
    return [Function.main body]
  | .functions => Step.many Step.function tokens

end MiniC
