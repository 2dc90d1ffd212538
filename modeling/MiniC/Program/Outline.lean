import MiniC.Program.OneLine

/-! The outline of a program: one construct a line, two spaces for each level of nesting. -/
namespace MiniC

/-- A line of an outline and its level of nesting. -/
structure OutlineLine where
  depth : Nat
  text : String
  deriving DecidableEq, Repr

/-- The indented line with its line feed. -/
def OutlineLine.render (l : OutlineLine) : String :=
  String.ofList (List.replicate (2 * l.depth) ' ') ++ l.text ++ "\n"

mutual

/-- The outline of an expression. An operator or call takes one line when all its operands are
leaves, and otherwise brackets the outlines of its operands. -/
def Expr.outline (depth : Nat) : Expr → List OutlineLine
  | .num value => [⟨depth, (Expr.num value).oneLine⟩]
  | .var name => [⟨depth, name⟩]
  | .unary op operand =>
    if operand.isLeaf then [⟨depth, op.symbol ++ operand.oneLine⟩]
    else ⟨depth, op.symbol ++ "("⟩ :: operand.outline (depth + 1) ++ [⟨depth, ")"⟩]
  | .binary op lhs rhs =>
    if lhs.isLeaf && rhs.isLeaf then [⟨depth, (Expr.binary op lhs rhs).oneLine⟩]
    else
      ⟨depth, "(" ++ op.symbol⟩ :: lhs.outline (depth + 1) ++ rhs.outline (depth + 1) ++
        [⟨depth, ")"⟩]
  | .assign lhs rhs =>
    if lhs.isLeaf && rhs.isLeaf then [⟨depth, (Expr.assign lhs rhs).oneLine⟩]
    else
      ⟨depth, "(="⟩ :: lhs.outline (depth + 1) ++ rhs.outline (depth + 1) ++ [⟨depth, ")"⟩]
  | .call callee args =>
    if args.all Expr.isLeaf then [⟨depth, (Expr.call callee args).oneLine⟩]
    else ⟨depth, callee ++ "("⟩ :: Expr.outlineOfAll (depth + 1) args ++ [⟨depth, ")"⟩]

/-- The outlines of consecutive expressions. -/
def Expr.outlineOfAll (depth : Nat) : List Expr → List OutlineLine
  | [] => []
  | e :: es => e.outline depth ++ Expr.outlineOfAll depth es

end

mutual

/-- The outline of a statement. -/
def Stmt.outline (depth : Nat) : Stmt → List OutlineLine
  | .expr value => value.outline depth
  | .ret value =>
    if value.isLeaf then [⟨depth, "return " ++ value.oneLine ++ ";"⟩]
    else ⟨depth, "return ("⟩ :: value.outline (depth + 1) ++ [⟨depth, ");"⟩]
  | .ifThen cond body =>
    ⟨depth, "if ("⟩ :: cond.outline (depth + 1) ++ ⟨depth, ") \x7b"⟩ ::
      body.outline (depth + 1) ++ [⟨depth, "\x7d"⟩]
  | .ifElse cond body otherwise =>
    ⟨depth, "if ("⟩ :: cond.outline (depth + 1) ++ ⟨depth, ") \x7b"⟩ ::
      body.outline (depth + 1) ++ ⟨depth, "\x7d else \x7b"⟩ ::
      otherwise.outline (depth + 1) ++ [⟨depth, "\x7d"⟩]
  | .whileLoop cond body =>
    ⟨depth, "while ("⟩ :: cond.outline (depth + 1) ++ ⟨depth, ") \x7b"⟩ ::
      body.outline (depth + 1) ++ [⟨depth, "\x7d"⟩]
  | .forLoop init cond step body =>
    ⟨depth, "for ("⟩ :: init.outline (depth + 1) ++ cond.outline (depth + 1) ++
      step.outline (depth + 1) ++ ⟨depth, ") \x7b"⟩ ::
      body.outline (depth + 1) ++ [⟨depth, "\x7d"⟩]
  | .block body => ⟨depth, "\x7b"⟩ :: Stmt.outlineOfAll (depth + 1) body ++ [⟨depth, "\x7d"⟩]

/-- The outlines of consecutive statements. -/
def Stmt.outlineOfAll (depth : Nat) : List Stmt → List OutlineLine
  | [] => []
  | s :: ss => s.outline depth ++ Stmt.outlineOfAll depth ss

end

/-- The outline of a function definition, `f(a, b) \x7b`, its body and a closing brace. -/
def Function.outline (f : Function) : List OutlineLine :=
  ⟨0, f.name ++ "(" ++ String.intercalate ", " f.params ++ ") \x7b"⟩ ::
    Stmt.outlineOfAll 1 f.body ++ [⟨0, "\x7d"⟩]

namespace Program

/-- The lines of a program's outline. -/
def outline (p : Program) : List OutlineLine :=
  p.flatMap Function.outline

/-- The outline as text. -/
def outlineText (p : Program) : String :=
  String.join (p.outline.map OutlineLine.render)

end Program

end MiniC
