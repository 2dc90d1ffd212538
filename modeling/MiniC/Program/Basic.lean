/-! Expressions, statements, functions and programs. -/
namespace MiniC

/-- Operators with one operand. -/
inductive UnOp where
  | plus
  | minus
  | address
  | deref
  deriving DecidableEq, Repr

/-- Operators with two operands whose values they combine. -/
inductive BinOp where
  | add
  | sub
  | mul
  | div
  | eq
  | ne
  | lt
  | le
  | gt
  | ge
  deriving DecidableEq, Repr

/-- How the operator is written. -/
def UnOp.symbol : UnOp → String
  | plus => "+"
  | minus => "-"
  | address => "&"
  | deref => "*"

/-- How the operator is written. -/
def BinOp.symbol : BinOp → String
  | add => "+"
  | sub => "-"
  | mul => "*"
  | div => "/"
  | eq => "=="
  | ne => "!="
  | lt => "<"
  | le => "<="
  | gt => ">"
  | ge => ">="

/-- Expressions. Values are words of 64 bits. -/
inductive Expr where
  | num (value : Int64)
  | var (name : String)
  | unary (op : UnOp) (operand : Expr)
  | binary (op : BinOp) (lhs rhs : Expr)
  | assign (lhs rhs : Expr)
  | call (callee : String) (args : List Expr)
  deriving Repr, Inhabited

/-- Statements. -/
inductive Stmt where
  | expr (value : Expr)
  | ret (value : Expr)
  | ifThen (cond : Expr) (body : Stmt)
  | ifElse (cond : Expr) (body otherwise : Stmt)
  | whileLoop (cond : Expr) (body : Stmt)
  | forLoop (init cond step : Expr) (body : Stmt)
  | block (body : List Stmt)
  deriving Repr, Inhabited

/-- A function definition. -/
structure Function where
  name : String
  params : List String
  body : List Stmt
  deriving Repr, Inhabited

/-- Function definitions in source order. -/
abbrev Program := List Function

/-- The function without parameters that stands for a bare expression or statement list. -/
def Function.main (body : List Stmt) : Function :=
  ⟨"main", [], body⟩

/-- How many parameters a function and how many arguments a call may have. -/
def maxArity : Nat := 6

mutual

/-- The variables of an expression in source order, with repetitions. Callees are not
variables. -/
def Expr.names : Expr → List String
  | .num _ => []
  | .var name => [name]
  | .unary _ operand => operand.names
  | .binary _ lhs rhs => lhs.names ++ rhs.names
  | .assign lhs rhs => lhs.names ++ rhs.names
  | .call _ args => Expr.namesOfAll args

/-- The variables of consecutive expressions. -/
def Expr.namesOfAll : List Expr → List String
  | [] => []
  | e :: es => e.names ++ Expr.namesOfAll es

end

mutual

/-- The variables of a statement in source order, with repetitions. The step of a `for` stands
before its body. -/
def Stmt.names : Stmt → List String
  | .expr value => value.names
  | .ret value => value.names
  | .ifThen cond body => cond.names ++ body.names
  | .ifElse cond body otherwise => cond.names ++ body.names ++ otherwise.names
  | .whileLoop cond body => cond.names ++ body.names
  | .forLoop init cond step body => init.names ++ cond.names ++ step.names ++ body.names
  | .block body => Stmt.namesOfAll body

/-- The variables of consecutive statements. -/
def Stmt.namesOfAll : List Stmt → List String
  | [] => []
  | s :: ss => s.names ++ Stmt.namesOfAll ss

end

/-- Parameters, then the variables of the body. -/
def Function.names (f : Function) : List String :=
  f.params ++ Stmt.namesOfAll f.body

end MiniC
