import MiniC.Grammar.Level
import MiniC.Grammar.Step

/-! Reading expressions.

One function reads every level of precedence. Binary operators are folded to the left by
`operators`; assignment and the unary operators recurse on their own level. -/
namespace MiniC

namespace Level

/-- The unary operator of a level at the front of the tokens, and what follows it. -/
def unary? (l : Level) : (ts : List Token) → Option (UnOp × Rest ts)
  | [] => none
  | t :: ts => (l.unOp? t.text).map fun op => (op, .tail t ts)

/-- The binary operator of a level at the front of the tokens, and what follows it. -/
def binary? (l : Level) : (ts : List Token) → Option (BinOp × Rest ts)
  | [] => none
  | t :: ts => (l.binOp? t.text).map fun op => (op, .tail t ts)

/-- What follows the sign of an assignment, at the level of assignments. -/
def assign? (l : Level) (ts : List Token) : Option (Rest ts) :=
  if l = assignment then Step.accept "=" ts else none

theorem rank_tighter_lt {l : Level} (h : l ≠ primary) : l.tighter.rank < l.rank := by
  cases l <;> simp_all [tighter, rank]

theorem rank_le (l : Level) : l.rank ≤ 7 := by
  cases l <;> simp [rank]

end Level

namespace Step

mutual

/-- An expression of a level: a unary operator of the level and an expression of the same level,
or a tighter expression and the operators of the level that follow it. -/
def expression (l : Level) (ts : List Token) : Step Expr ts :=
  if _ : l = .primary then primary ts
  else match l.unary? ts with
    | some (op, ⟨ts₁, _⟩) => do
      let (operand, ⟨ts₂, _⟩) ← expression l ts₁
      return (.unary op operand, ⟨ts₂, by omega⟩)
    | none => do
      let (lhs, ⟨ts₁, _⟩) ← expression l.tighter ts
      let (e, ⟨ts₂, _⟩) ← operators l lhs ts₁
      return (e, ⟨ts₂, by omega⟩)
termination_by 16 * ts.length + l.rank + 1
decreasing_by
  all_goals first
    | omega
    | (have h := Level.rank_tighter_lt ‹¬ l = .primary›; omega)

/-- The operators of a level that follow the operand `lhs`, with their right operands. Binary
operators are folded from the left; an assignment takes one of its own level on its right. -/
def operators (l : Level) (lhs : Expr) (ts : List Token) :
    Except GrammarError (Expr × { rest : List Token // rest.length ≤ ts.length }) :=
  match l.binary? ts with
  | some (op, ⟨ts₁, _⟩) => do
    let (rhs, ⟨ts₂, _⟩) ← expression l.tighter ts₁
    let (e, ⟨ts₃, _⟩) ← operators l (.binary op lhs rhs) ts₂
    return (e, ⟨ts₃, by omega⟩)
  | none =>
    match l.assign? ts with
    | some ⟨ts₁, _⟩ => do
      let (rhs, ⟨ts₂, _⟩) ← expression l ts₁
      return (.assign lhs rhs, ⟨ts₂, by omega⟩)
    | none => return (lhs, ⟨ts, by omega⟩)
termination_by 16 * ts.length
decreasing_by
  all_goals first
    | (have h := Level.rank_le l.tighter; omega)
    | (have h := Level.rank_le l; omega)

/-- A bracketed expression, a call, a variable or a number. -/
def primary (ts : List Token) : Step Expr ts :=
  match accept "(" ts with
  | some ⟨ts₁, _⟩ => do
    let (e, ⟨ts₂, _⟩) ← expression .assignment ts₁
    let ((), ⟨ts₃, _⟩) ← symbol ")" ts₂
    return (e, ⟨ts₃, by omega⟩)
  | none =>
    match word? ts with
    | some (name, ⟨ts₁, _⟩) =>
      match accept "(" ts₁ with
      | none => return (.var name.text, ⟨ts₁, by omega⟩)
      | some ⟨ts₂, _⟩ => do
        let (args, ⟨ts₃, _⟩) ← arguments ts₂
        if args.length ≤ maxArity then return (.call name.text args, ⟨ts₃, by omega⟩)
        else throw (.tooManyArguments name)
    | none => do
      let (value, rest) ← number ts
      return (.num value, rest)
termination_by 16 * ts.length
decreasing_by all_goals (have h := Level.rank_le .assignment; omega)

/-- The arguments of a call, after its opening bracket and through its closing one. -/
def arguments (ts : List Token) : Step (List Expr) ts :=
  match accept ")" ts with
  | some rest => return ([], rest)
  | none => argumentList ts
termination_by 16 * ts.length + 10

/-- One argument or more, through the closing bracket of the call. -/
def argumentList (ts : List Token) : Step (List Expr) ts := do
  let (arg, ⟨ts₁, _⟩) ← expression .assignment ts
  match accept "," ts₁ with
  | some ⟨ts₂, _⟩ =>
    let (args, ⟨ts₃, _⟩) ← argumentList ts₂
    return (arg :: args, ⟨ts₃, by omega⟩)
  | none =>
    let ((), ⟨ts₂, _⟩) ← symbol ")" ts₁
    return ([arg], ⟨ts₂, by omega⟩)
termination_by 16 * ts.length + 9
decreasing_by all_goals (have h := Level.rank_le .assignment; omega)

end

end Step

end MiniC
