import MiniC.Proofs.Code.Inversion
import MiniC.Proofs.Evaluation
import MiniC.Proofs.Machine.Step

/-! Evaluation of expressions with pointers, on memory itself.

A variable is the word in its slot, at a fixed distance below the frame pointer, so a store through
a pointer may change it. -/
namespace MiniC

/-- What an evaluation comes to: a word, the memory after it, and pointers to the words that were
read and written, in order. -/
structure Effect where
  value : Int64
  mem : Memory
  footprint : List Int64

namespace Effect

/-- Reads the word that the value points to. -/
def load (r : Effect) : Effect :=
  ⟨r.mem.word (address r.value), r.mem, r.footprint ++ [r.value]⟩

theorem load_value (r : Effect) : r.load.value = r.mem.word (address r.value) := by
  rw [load]

theorem load_mem (r : Effect) : r.load.mem = r.mem := by
  rw [load]

/-- Negates the value. -/
def negate (r : Effect) : Effect :=
  { r with value := -r.value }

/-- The value of an operator on two operands, of which `rhs` comes after `lhs`. -/
def combine (lhs rhs : Effect) (value : Int64) : Effect :=
  ⟨value, rhs.mem, lhs.footprint ++ rhs.footprint⟩

/-- Writes the value of `r`, which comes after `target`, to where `target` points. -/
def store (target r : Effect) : Effect :=
  ⟨r.value, r.mem.write (address target.value) r.value,
    target.footprint ++ r.footprint ++ [target.value]⟩

end Effect

/-- Why an evaluation has no result. -/
inductive Fault where
  /-- A division by zero, or one whose quotient is no word. -/
  | division
  /-- A name has no slot, an expression without an address is assigned to or has its address taken,
  or a function is called. -/
  | undefined
  deriving DecidableEq

/-- The address of a variable. -/
def slotEffect (frame : Frame) (base : Int64) (mem : Memory) (name : String) :
    Except Fault Effect :=
  match frame.offset? name with
  | some offset => .ok ⟨base - .ofNat offset, mem, []⟩
  | none => .error .undefined

/-- The value of an operator on two words. -/
def BinOp.evalWords (op : BinOp) (a b : Int64) : Except Fault Int64 :=
  match op.eval a b with
  | some value => .ok value
  | none => .error .division

mutual

/-- The value of an expression where the frame pointer is `base`. Operands are evaluated from left
to right, and an assignment finds its target before its value. -/
def Expr.evalOn (frame : Frame) (base : Int64) (mem : Memory) : Expr → Except Fault Effect
  | .num value => .ok ⟨value, mem, []⟩
  | .var name => return (← slotEffect frame base mem name).load
  | .unary .plus operand => operand.evalOn frame base mem
  | .unary .minus operand => return (← operand.evalOn frame base mem).negate
  | .unary .address operand => operand.locate frame base mem
  | .unary .deref operand => return (← operand.evalOn frame base mem).load
  | .binary op lhs rhs => do
    let a ← lhs.evalOn frame base mem
    let b ← rhs.evalOn frame base a.mem
    return a.combine b (← op.evalWords a.value b.value)
  | .assign lhs rhs => do
    let target ← lhs.locate frame base mem
    return target.store (← rhs.evalOn frame base target.mem)
  | .call _ _ => .error .undefined

/-- The address of a variable, or the pointer that is dereferenced. -/
def Expr.locate (frame : Frame) (base : Int64) (mem : Memory) : Expr → Except Fault Effect
  | .var name => slotEffect frame base mem name
  | .unary .deref operand => operand.evalOn frame base mem
  | _ => .error .undefined

end

/-- Whether an expression calls a function. -/
def Expr.hasCall : Expr → Bool
  | .num _ | .var _ => false
  | .unary _ operand => operand.hasCall
  | .binary _ lhs rhs | .assign lhs rhs => lhs.hasCall || rhs.hasCall
  | .call _ _ => true

/-- How many words the code of an expression without calls has on the stack at most. -/
def Expr.operandWords : Expr → Nat
  | .num _ | .var _ | .call _ _ => 1
  | .unary _ operand => operand.operandWords
  | .binary _ lhs rhs | .assign lhs rhs => max lhs.operandWords (rhs.operandWords + 1)

theorem Expr.one_le_operandWords : ∀ e : Expr, 1 ≤ e.operandWords
  | .num _ | .var _ | .call _ _ => le_rfl
  | .unary _ operand => by
    rw [operandWords]
    exact operand.one_le_operandWords
  | .binary _ lhs _ | .assign lhs _ => by
    rw [operandWords]
    exact le_max_of_le_left lhs.one_le_operandWords

section Inversion

variable {frame : Frame} {base : Int64} {mem : Memory} {r : Effect}

theorem slotEffect_eq_ok {name : String} (h : slotEffect frame base mem name = .ok r) :
    ∃ offset, frame.offset? name = some offset ∧ r = ⟨base - .ofNat offset, mem, []⟩ := by
  unfold slotEffect at h
  split at h
  · next offset ho =>
    exact ⟨offset, ho, (Except.ok.inj h).symm⟩
  · cases h

theorem evalWords_eq_ok_iff {op : BinOp} {a b v : Int64} :
    op.evalWords a b = .ok v ↔ op.eval a b = some v := by
  unfold BinOp.evalWords
  split <;> simp_all

theorem evalOn_var {name : String} (h : (Expr.var name).evalOn frame base mem = .ok r) :
    ∃ slot, slotEffect frame base mem name = .ok slot ∧ r = slot.load := by
  simpa only [Expr.evalOn, bind_eq_ok_iff, pure_eq_ok_iff] using h

theorem evalOn_minus {e : Expr} (h : (Expr.unary .minus e).evalOn frame base mem = .ok r) :
    ∃ operand, e.evalOn frame base mem = .ok operand ∧ r = operand.negate := by
  simpa only [Expr.evalOn, bind_eq_ok_iff, pure_eq_ok_iff] using h

theorem evalOn_deref {e : Expr} (h : (Expr.unary .deref e).evalOn frame base mem = .ok r) :
    ∃ pointer, e.evalOn frame base mem = .ok pointer ∧ r = pointer.load := by
  simpa only [Expr.evalOn, bind_eq_ok_iff, pure_eq_ok_iff] using h

theorem evalOn_binary {op : BinOp} {lhs rhs : Expr}
    (h : (Expr.binary op lhs rhs).evalOn frame base mem = .ok r) :
    ∃ a b value, lhs.evalOn frame base mem = .ok a ∧ rhs.evalOn frame base a.mem = .ok b ∧
      op.eval a.value b.value = some value ∧ r = a.combine b value := by
  simp only [Expr.evalOn, bind_eq_ok_iff, pure_eq_ok_iff, evalWords_eq_ok_iff] at h
  obtain ⟨a, ha, b, hb, value, hvalue, rfl⟩ := h
  exact ⟨a, b, value, ha, hb, hvalue, rfl⟩

theorem evalOn_assign {lhs rhs : Expr}
    (h : (Expr.assign lhs rhs).evalOn frame base mem = .ok r) :
    ∃ target value, lhs.locate frame base mem = .ok target ∧
      rhs.evalOn frame base target.mem = .ok value ∧ r = target.store value := by
  simp only [Expr.evalOn, bind_eq_ok_iff, pure_eq_ok_iff] at h
  obtain ⟨target, htarget, value, hvalue, rfl⟩ := h
  exact ⟨target, value, htarget, hvalue, rfl⟩

end Inversion

section Definedness

variable (frame : Frame) (base : Int64) (e : Expr)

/-- An expression with code has a value, if no division faults. -/
def HasValue : Prop :=
  ∀ ⦃pending code⦄, e.valueCode frame pending = .ok code →
    ∀ mem, ErrorsIn (· = .division) (e.evalOn frame base mem)

/-- An expression whose address has code has an address, if no division faults. -/
def HasAddress : Prop :=
  ∀ ⦃pending refuse code⦄, e.addressCode frame pending refuse = .ok code →
    ∀ mem, ErrorsIn (· = .division) (e.locate frame base mem)

variable {frame base e}

theorem errors_slotEffect {name : String} {code : List Instr}
    (h : slotCode frame name = .ok code) (mem : Memory) :
    ErrorsIn (· = .division) (slotEffect frame base mem name) := by
  obtain ⟨offset, ho, -⟩ := slotCode_eq_ok h
  rw [slotEffect, ho]
  exact .ok _

theorem errors_evalWords (op : BinOp) (a b : Int64) :
    ErrorsIn (· = .division) (op.evalWords a b) := by
  unfold BinOp.evalWords
  split
  · exact .ok _
  · exact .error rfl

theorem hasAddress_of_hasValue (ih : ∀ pointer, e = .unary .deref pointer →
    HasValue frame base pointer) : HasAddress frame base e := by
  intro _ _ _ hc mem
  obtain ⟨name, rfl, hslot⟩ | ⟨pointer, rfl, hpointer⟩ := addressCode_eq_ok hc
  · exact errors_slotEffect hslot mem
  · exact ih pointer rfl hpointer mem

theorem hasValue_binary {op : BinOp} {lhs rhs : Expr} (ihl : HasValue frame base lhs)
    (ihr : HasValue frame base rhs) : HasValue frame base (.binary op lhs rhs) := by
  intro _ _ hc mem
  obtain ⟨left, right, hleft, hright, -⟩ := valueCode_binary hc
  rw [Expr.evalOn]
  exact (ihl hleft mem).bind fun a => (ihr hright a.mem).bind fun b =>
    (errors_evalWords op a.value b.value).bind fun _ => .pure _

theorem hasValue_assign {lhs rhs : Expr} (ihl : HasAddress frame base lhs)
    (ihr : HasValue frame base rhs) : HasValue frame base (.assign lhs rhs) := by
  intro _ _ hc mem
  obtain ⟨place, right, hplace, hright, -⟩ := valueCode_assign hc
  rw [Expr.evalOn]
  exact (ihl hplace mem).bind fun target => (ihr hright target.mem).bind fun _ => .pure _

theorem hasValue : ∀ e : Expr, e.hasCall = false →
    HasValue frame base e ∧ HasAddress frame base e
  | .num _, _ => ⟨fun _ _ _ _ => .ok _, hasAddress_of_hasValue nofun⟩
  | .var _, _ => by
    refine ⟨fun _ _ hc mem => ?_, hasAddress_of_hasValue nofun⟩
    obtain ⟨slot, hslot, -⟩ := valueCode_var hc
    exact (errors_slotEffect hslot mem).bind fun _ => .pure _
  | .unary .plus e, h =>
    ⟨fun _ _ hc => (hasValue e h).1 (valueCode_plus hc), hasAddress_of_hasValue nofun⟩
  | .unary .minus e, h => by
    refine ⟨fun _ _ hc mem => ?_, hasAddress_of_hasValue nofun⟩
    obtain ⟨operand, hoperand, -⟩ := valueCode_minus hc
    exact ((hasValue e h).1 hoperand mem).bind fun _ => .pure _
  | .unary .address e, h =>
    ⟨fun _ _ hc => (hasValue e h).2 (valueCode_address hc), hasAddress_of_hasValue nofun⟩
  | .unary .deref e, h => by
    have ih := hasValue e h
    refine ⟨fun _ _ hc mem => ?_, hasAddress_of_hasValue ?_⟩
    · obtain ⟨pointer, hpointer, -⟩ := valueCode_deref hc
      exact (ih.1 hpointer mem).bind fun _ => .pure _
    · rintro _ ⟨⟩
      exact ih.1
  | .binary op lhs rhs, h => by
    obtain ⟨hl, hr⟩ := Bool.or_eq_false_iff.mp h
    exact ⟨hasValue_binary (hasValue lhs hl).1 (hasValue rhs hr).1, hasAddress_of_hasValue nofun⟩
  | .assign lhs rhs, h => by
    obtain ⟨hl, hr⟩ := Bool.or_eq_false_iff.mp h
    exact ⟨hasValue_assign (hasValue lhs hl).2 (hasValue rhs hr).1, hasAddress_of_hasValue nofun⟩

end Definedness

end MiniC
