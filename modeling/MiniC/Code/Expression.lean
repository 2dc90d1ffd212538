import MiniC.Assembly.Basic
import MiniC.Code.Error
import MiniC.Frame

/-! The code of expressions.

The code of an expression pushes one word, its value or its address, and leaves the words below
it alone. `pending` counts the words that lie between the frame and the stack pointer when the
code starts; calls need it to keep the stack aligned. -/
namespace MiniC

/-- Whether a literal fits the operand of a push, which has 32 bits. -/
def fitsPush (value : Int64) : Bool :=
  Int32.minValue.toInt64 ≤ value && value ≤ Int32.maxValue.toInt64

/-- Pushes a literal, through `rax` if it is too large for a push. -/
def literalCode (value : Int64) : List Instr :=
  if fitsPush value then [.pushWord value] else [.movWord .rax value, .push .rax]

/-- Pushes the address of a name's slot. -/
def slotCode (frame : Frame) (name : String) : Except SemanticError (List Instr) :=
  match frame.offset? name with
  | some offset => .ok [.mov .rax .rbp, .subBytes .rax offset, .push .rax]
  | none => .error (.noSlot name)

/-- Replaces the address on top of the stack by the word that stands there. -/
def loadCode : List Instr :=
  [.pop .rax, .load .rax .rax, .push .rax]

/-- Compares `rax` with `rdi` and leaves 1 or 0 in `rax`. -/
def compareCode (relation : Relation) : List Instr :=
  [.cmp .rax .rdi, .set relation, .movzx]

/-- Combines the left operand in `rax` with the right operand in `rdi`; the result goes to
`rax`. -/
def BinOp.code : BinOp → List Instr
  | add => [.add .rax .rdi]
  | sub => [.sub .rax .rdi]
  | mul => [.imul .rax .rdi]
  | div => [.cqo, .idiv .rdi]
  | eq => compareCode .eq
  | ne => compareCode .ne
  | lt => compareCode .lt
  | le => compareCode .le
  | gt => compareCode .gt
  | ge => compareCode .ge

/-- Calls a function with the stack aligned: an odd number of pending words is made even. -/
def callCode (pending : Nat) (callee : String) : List Instr :=
  if pending % 2 = 1 then [.subBytes .rsp 8, .call callee, .addBytes .rsp 8] else [.call callee]

/-- There is a register for every argument that a call may have. -/
theorem length_argumentRegisters : argumentRegisters.length = maxArity :=
  rfl

mutual

/-- Pushes the value of an expression. -/
def Expr.valueCode (frame : Frame) (pending : Nat) : Expr → Except SemanticError (List Instr)
  | .num value => .ok (literalCode value)
  | .var name => do
    let address ← slotCode frame name
    return address ++ loadCode
  | .unary .plus operand => operand.valueCode frame pending
  | .unary .minus operand => do
    let code ← operand.valueCode frame pending
    return code ++ [.pop .rax, .neg .rax, .push .rax]
  | .unary .address operand => operand.addressCode frame pending .notAddressable
  | .unary .deref operand => do
    let address ← operand.valueCode frame pending
    return address ++ loadCode
  | .binary op lhs rhs => do
    let left ← lhs.valueCode frame pending
    let right ← rhs.valueCode frame (pending + 1)
    return left ++ right ++ [.pop .rdi, .pop .rax] ++ op.code ++ [.push .rax]
  | .assign lhs rhs => do
    let address ← lhs.addressCode frame pending .notAssignable
    let value ← rhs.valueCode frame (pending + 1)
    return address ++ value ++ [.pop .rdi, .pop .rax, .store .rax .rdi, .push .rdi]
  | .call callee args =>
    if args.length ≤ maxArity then do
      let code ← Expr.argumentCode frame pending args
      return code ++ (argumentRegisters.take args.length).map .pop ++ callCode pending callee ++
        [.push .rax]
    else .error (.tooManyArguments callee args.length)

/-- Pushes the address of a variable or of what a pointer points to; other expressions are
refused. -/
def Expr.addressCode (frame : Frame) (pending : Nat) (refuse : Expr → SemanticError) :
    Expr → Except SemanticError (List Instr)
  | .var name => slotCode frame name
  | .unary .deref operand => operand.valueCode frame pending
  | e => .error (refuse e)

/-- Pushes the values of arguments from the last to the first. -/
def Expr.argumentCode (frame : Frame) (pending : Nat) :
    List Expr → Except SemanticError (List Instr)
  | [] => .ok []
  | arg :: args => do
    let later ← Expr.argumentCode frame pending args
    let code ← arg.valueCode frame (pending + args.length)
    return later ++ code

end

end MiniC
