/-! The lines of an assembly listing: registers, instructions and labels. -/
namespace MiniC

/-- The registers that listings use. -/
inductive Reg where
  | rax
  | rdi
  | rsi
  | rdx
  | rcx
  | r8
  | r9
  | rsp
  | rbp
  deriving DecidableEq, Repr

/-- What a comparison of two words asks; the order is that of signed numbers. -/
inductive Relation where
  | eq
  | ne
  | lt
  | le
  | gt
  | ge
  deriving DecidableEq, Repr

/-- What a label of a construct marks. -/
inductive LabelPlace where
  | ifEnd
  | elseBegin
  | elseEnd
  | whileBegin
  | whileEnd
  | forBegin
  | forEnd
  deriving DecidableEq, Repr

/-- A label within a function: what it marks, and the number of the construct. -/
structure Label where
  place : LabelPlace
  number : UInt32
  deriving DecidableEq, Repr

/-- Instructions. The destination comes first. -/
inductive Instr where
  | push (src : Reg)
  | pushWord (value : Int64)
  | pop (dst : Reg)
  | mov (dst src : Reg)
  | movWord (dst : Reg) (value : Int64)
  /-- Reads the word at the address in `base`. -/
  | load (dst base : Reg)
  /-- Writes a register to the address in `base`. -/
  | store (base src : Reg)
  /-- Writes a register to the slot at an offset below the frame pointer. -/
  | spill (offset : Nat) (src : Reg)
  | add (dst src : Reg)
  | addBytes (dst : Reg) (count : Nat)
  | sub (dst src : Reg)
  | subBytes (dst : Reg) (count : Nat)
  | imul (dst src : Reg)
  | neg (dst : Reg)
  /-- Extends the sign of `rax` into `rdx`. -/
  | cqo
  /-- Divides the pair of `rdx` and `rax`; the quotient goes to `rax`. -/
  | idiv (src : Reg)
  | cmp (lhs rhs : Reg)
  | cmpZero (lhs : Reg)
  /-- Sets the low byte of `rax` to 1 or 0 by the last comparison. -/
  | set (relation : Relation)
  /-- Clears all of `rax` but its low byte. -/
  | movzx
  | jmp (target : Label)
  /-- Jumps if the last comparison found equal words. -/
  | je (target : Label)
  | call (callee : String)
  | ret
  deriving DecidableEq, Repr

/-- A line of a listing: where a function begins, a label, or an instruction. -/
inductive Line where
  | entry (function : String)
  | label (label : Label)
  | instr (instr : Instr)
  deriving DecidableEq, Repr

/-- The registers of a function's arguments, in order. -/
def argumentRegisters : List Reg :=
  [.rdi, .rsi, .rdx, .rcx, .r8, .r9]

end MiniC
