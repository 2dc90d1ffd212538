import MiniC.Grammar.Expression

/-! Reading statements and function definitions. -/
namespace MiniC

/-- What the first token of a statement can announce. -/
inductive Opening where
  | block
  | ret
  | branch
  | forLoop
  | whileLoop
  deriving DecidableEq, Repr

/-- The statement that a token text announces; other texts begin an expression. -/
def Opening.ofText? (text : String) : Option Opening :=
  if text = "\x7b" then some block
  else if text = "return" then some ret
  else if text = "if" then some branch
  else if text = "for" then some forLoop
  else if text = "while" then some whileLoop
  else none

namespace Step

/-- The announcement at the front of the tokens, and what follows it. -/
def opening? : (ts : List Token) → Option (Opening × Rest ts)
  | [] => none
  | t :: ts => (Opening.ofText? t.text).map fun o => (o, .tail t ts)

/-- An expression and the symbol that ends it. -/
def terminated (stop : String) (ts : List Token) : Step Expr ts := do
  let (e, rest) ← expression .assignment ts
  let ((), rest') ← symbol stop rest
  return (e, rest.trans rest')

/-- A clause of a `for` and the symbol that ends it; an empty clause stands for 1. -/
def clause (stop : String) (ts : List Token) : Step Expr ts :=
  match accept stop ts with
  | some rest => return (.num 1, rest)
  | none => terminated stop ts

/-- A condition in brackets. -/
def condition (ts : List Token) : Step Expr ts := do
  let ((), rest) ← symbol "(" ts
  let (e, rest') ← terminated ")" rest
  return (e, rest.trans rest')

mutual

/-- A statement. An `else` belongs to the nearest `if` before it. -/
def statement (ts : List Token) : Step Stmt ts :=
  match opening? ts with
  | some (.block, ⟨ts₁, _⟩) => do
    let (body, ⟨ts₂, _⟩) ← block ts₁
    return (.block body, ⟨ts₂, by omega⟩)
  | some (.ret, ⟨ts₁, _⟩) => do
    let (value, ⟨ts₂, _⟩) ← terminated ";" ts₁
    return (.ret value, ⟨ts₂, by omega⟩)
  | some (.branch, ⟨ts₁, _⟩) => do
    let (cond, ⟨ts₂, _⟩) ← condition ts₁
    let (body, ⟨ts₃, _⟩) ← statement ts₂
    match accept "else" ts₃ with
    | some ⟨ts₄, _⟩ =>
      let (otherwise, ⟨ts₅, _⟩) ← statement ts₄
      return (.ifElse cond body otherwise, ⟨ts₅, by omega⟩)
    | none => return (.ifThen cond body, ⟨ts₃, by omega⟩)
  | some (.forLoop, ⟨ts₁, _⟩) => do
    let ((), ⟨ts₂, _⟩) ← symbol "(" ts₁
    let (init, ⟨ts₃, _⟩) ← clause ";" ts₂
    let (cond, ⟨ts₄, _⟩) ← clause ";" ts₃
    let (step, ⟨ts₅, _⟩) ← clause ")" ts₄
    let (body, ⟨ts₆, _⟩) ← statement ts₅
    return (.forLoop init cond step body, ⟨ts₆, by omega⟩)
  | some (.whileLoop, ⟨ts₁, _⟩) => do
    let (cond, ⟨ts₂, _⟩) ← condition ts₁
    let (body, ⟨ts₃, _⟩) ← statement ts₂
    return (.whileLoop cond body, ⟨ts₃, by omega⟩)
  | none => do
    let (value, rest) ← terminated ";" ts
    return (.expr value, rest)
termination_by 2 * ts.length

/-- The statements of a block, after its opening brace and through its closing one. -/
def block (ts : List Token) : Step (List Stmt) ts :=
  match accept "\x7d" ts with
  | some rest => return ([], rest)
  | none =>
    if ts.isEmpty then throw (.expected (.symbol "\x7d") none)
    else do
      let (s, ⟨ts₁, _⟩) ← statement ts
      let (body, ⟨ts₂, _⟩) ← block ts₁
      return (s :: body, ⟨ts₂, by omega⟩)
termination_by 2 * ts.length + 1

end

/-- One parameter or more, through the closing bracket of the list. -/
def parameterList (ts : List Token) : Step (List String) ts := do
  let (param, ⟨ts₁, _⟩) ← identifier ts
  match accept "," ts₁ with
  | some ⟨ts₂, _⟩ =>
    let (params, ⟨ts₃, _⟩) ← parameterList ts₂
    return (param.text :: params, ⟨ts₃, by omega⟩)
  | none =>
    let ((), ⟨ts₂, _⟩) ← symbol ")" ts₁
    return ([param.text], ⟨ts₂, by omega⟩)
termination_by ts.length

/-- The parameters of a function, after the opening bracket and through the closing one. -/
def parameters (ts : List Token) : Step (List String) ts :=
  match accept ")" ts with
  | some rest => return ([], rest)
  | none => parameterList ts

/-- A function definition. -/
def function (ts : List Token) : Step Function ts := do
  let (name, ⟨ts₁, _⟩) ← identifier ts
  let ((), ⟨ts₂, _⟩) ← symbol "(" ts₁
  let (params, ⟨ts₃, _⟩) ← parameters ts₂
  if maxArity < params.length then throw (.tooManyParameters name)
  let ((), ⟨ts₄, _⟩) ← symbol "\x7b" ts₃
  let (body, ⟨ts₅, _⟩) ← block ts₄
  return (⟨name.text, params, body⟩, ⟨ts₅, by omega⟩)

end Step

end MiniC
