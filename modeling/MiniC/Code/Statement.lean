import MiniC.Code.Expression

/-! The code of statements and functions.

The code of a statement leaves the stack as it was. A construct with labels is numbered by the
constructs of its kind that begin before it in the whole program, so no counter is carried
along: the numbers of a statement's labels depend on the counts before it. -/
namespace MiniC

/-- Kinds of constructs that have labels. -/
inductive Construct where
  | ifThen
  | ifElse
  | whileLoop
  | forLoop
  deriving DecidableEq, Repr

/-- How many constructs of each kind there are. -/
structure ConstructCounts where
  ifThen : Nat
  ifElse : Nat
  whileLoop : Nat
  forLoop : Nat
  deriving DecidableEq, Repr

namespace ConstructCounts

instance : Zero ConstructCounts where
  zero := ⟨0, 0, 0, 0⟩

instance : Add ConstructCounts where
  add a b :=
    ⟨a.ifThen + b.ifThen, a.ifElse + b.ifElse, a.whileLoop + b.whileLoop, a.forLoop + b.forLoop⟩

/-- The count of one kind. -/
def of (counts : ConstructCounts) : Construct → Nat
  | .ifThen => counts.ifThen
  | .ifElse => counts.ifElse
  | .whileLoop => counts.whileLoop
  | .forLoop => counts.forLoop

/-- One construct. -/
def one : Construct → ConstructCounts
  | .ifThen => ⟨1, 0, 0, 0⟩
  | .ifElse => ⟨0, 1, 0, 0⟩
  | .whileLoop => ⟨0, 0, 1, 0⟩
  | .forLoop => ⟨0, 0, 0, 1⟩

@[simp] theorem of_zero (k : Construct) : (0 : ConstructCounts).of k = 0 := by
  cases k <;> rfl

@[simp] theorem of_add (a b : ConstructCounts) (k : Construct) :
    (a + b).of k = a.of k + b.of k := by
  cases k <;> rfl

@[simp] theorem of_one (j k : Construct) : (one j).of k = if j = k then 1 else 0 := by
  cases j <;> cases k <;> rfl

end ConstructCounts

mutual

/-- The constructs of a statement. -/
def Stmt.counts : Stmt → ConstructCounts
  | .expr _ | .ret _ => 0
  | .ifThen _ body => .one .ifThen + body.counts
  | .ifElse _ body otherwise => .one .ifElse + body.counts + otherwise.counts
  | .whileLoop _ body => .one .whileLoop + body.counts
  | .forLoop _ _ _ body => .one .forLoop + body.counts
  | .block body => Stmt.countsOfAll body

/-- The constructs of consecutive statements. -/
def Stmt.countsOfAll : List Stmt → ConstructCounts
  | [] => 0
  | s :: ss => s.counts + Stmt.countsOfAll ss

end

/-- The kind of construct that a label belongs to. -/
def LabelPlace.construct : LabelPlace → Construct
  | ifEnd => .ifThen
  | elseBegin => .ifElse
  | elseEnd => .ifElse
  | whileBegin => .whileLoop
  | whileEnd => .whileLoop
  | forBegin => .forLoop
  | forEnd => .forLoop

/-- The label at a place of the construct that comes after `before`. Numbers are words of 32
bits. -/
def ConstructCounts.label (before : ConstructCounts) (place : LabelPlace) : Label :=
  ⟨place, UInt32.ofNat (before.of place.construct)⟩

/-- Returns to the caller. -/
def epilogue : List Line :=
  [.instr (.mov .rsp .rbp), .instr (.pop .rbp), .instr .ret]

/-- Evaluates an expression into `rax`. -/
def evaluateCode (frame : Frame) (e : Expr) : Except SemanticError (List Line) := do
  let code ← e.valueCode frame 0
  return (code ++ [Instr.pop .rax]).map .instr

/-- Evaluates a condition and jumps if it is zero. -/
def conditionCode (frame : Frame) (cond : Expr) (target : Label) :
    Except SemanticError (List Line) := do
  let code ← evaluateCode frame cond
  return code ++ [.instr (.cmpZero .rax), .instr (.je target)]

mutual

/-- The code of a statement that comes after `before` constructs. -/
def Stmt.code (frame : Frame) (before : ConstructCounts) :
    Stmt → Except SemanticError (List Line)
  | .expr value => evaluateCode frame value
  | .ret value => do
    let code ← evaluateCode frame value
    return code ++ epilogue
  | .ifThen cond body => do
    let ending := before.label .ifEnd
    let condCode ← conditionCode frame cond ending
    let bodyCode ← body.code frame (before + .one .ifThen)
    return condCode ++ bodyCode ++ [.label ending]
  | .ifElse cond body otherwise => do
    let other := before.label .elseBegin
    let ending := before.label .elseEnd
    let condCode ← conditionCode frame cond other
    let bodyCode ← body.code frame (before + .one .ifElse)
    let otherCode ← otherwise.code frame (before + .one .ifElse + body.counts)
    return condCode ++ bodyCode ++ [.instr (.jmp ending), .label other] ++ otherCode ++
      [.label ending]
  | .whileLoop cond body => do
    let beginning := before.label .whileBegin
    let ending := before.label .whileEnd
    let condCode ← conditionCode frame cond ending
    let bodyCode ← body.code frame (before + .one .whileLoop)
    return [.label beginning] ++ condCode ++ bodyCode ++
      [.instr (.jmp beginning), .label ending]
  | .forLoop init cond step body => do
    let beginning := before.label .forBegin
    let ending := before.label .forEnd
    let initCode ← evaluateCode frame init
    let condCode ← conditionCode frame cond ending
    let bodyCode ← body.code frame (before + .one .forLoop)
    let stepCode ← evaluateCode frame step
    return initCode ++ [.label beginning] ++ condCode ++ bodyCode ++ stepCode ++
      [.instr (.jmp beginning), .label ending]
  | .block body => Stmt.codeOfAll frame before body

/-- The code of consecutive statements. -/
def Stmt.codeOfAll (frame : Frame) (before : ConstructCounts) :
    List Stmt → Except SemanticError (List Line)
  | [] => .ok []
  | s :: ss => do
    let code ← s.code frame before
    let rest ← Stmt.codeOfAll frame (before + s.counts) ss
    return code ++ rest

end

/-- Sets up the frame pointer and reserves the frame. -/
def prologue (frame : Frame) : List Line :=
  [.instr (.push .rbp), .instr (.mov .rbp .rsp)] ++
    if 0 < frame.byteSize then [.instr (.subBytes .rsp frame.byteSize)] else []

/-- Stores the parameters, which arrive in registers, in their slots. -/
def spillCode (frame : Frame) : List (String × Reg) → Except SemanticError (List Line)
  | [] => .ok []
  | (param, reg) :: rest => do
    match frame.offset? param with
    | some offset => return .instr (.spill offset reg) :: (← spillCode frame rest)
    | none => throw (.noSlot param)

namespace Function

/-- The constructs of a function. -/
def counts (f : Function) : ConstructCounts :=
  Stmt.countsOfAll f.body

/-- The code of a function that comes after `before` constructs. -/
def code (before : ConstructCounts) (f : Function) : Except SemanticError (List Line) :=
  if f.params.length ≤ maxArity then do
    let spills ← spillCode f.frame (f.params.zip argumentRegisters)
    let body ← Stmt.codeOfAll f.frame before f.body
    return [.entry f.name] ++ prologue f.frame ++ spills ++ body ++ epilogue
  else .error (.tooManyParameters f.name f.params.length)

end Function

namespace Program

/-- The code of consecutive functions that come after `before` constructs. -/
def codeAfter (before : ConstructCounts) : List Function → Except SemanticError (List Line)
  | [] => .ok []
  | f :: fs => do
    let code ← f.code before
    let rest ← codeAfter (before + f.counts) fs
    return code ++ rest

/-- The code of a program. -/
def code (p : Program) : Except SemanticError (List Line) :=
  codeAfter 0 p

end Program

end MiniC
