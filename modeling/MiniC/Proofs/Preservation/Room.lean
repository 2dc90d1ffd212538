import MiniC.Proofs.Code.Labels
import MiniC.Proofs.Preservation.State

/-! The stack that evaluations take, and what it means that code preserves them. -/
namespace MiniC

mutual

/-- How many words the code of an expression has on the stack at most. A call has its return
address there, and maybe a word of padding. -/
def Expr.stackWords : Expr → Nat
  | .num _ => 1
  | .var _ => 1
  | .unary _ operand => operand.stackWords
  | .binary _ lhs rhs => max lhs.stackWords (rhs.stackWords + 1)
  | .assign _ rhs => rhs.stackWords + 1
  | .call _ args => max (Expr.argumentWords args) 2

def Expr.argumentWords : List Expr → Nat
  | [] => 0
  | arg :: args => max (Expr.argumentWords args) (arg.stackWords + args.length)

end

mutual

def Stmt.stackWords : Stmt → Nat
  | .expr e => e.stackWords
  | .ret e => e.stackWords
  | .ifThen cond body => max cond.stackWords body.stackWords
  | .ifElse cond body otherwise =>
    max cond.stackWords (max body.stackWords otherwise.stackWords)
  | .whileLoop cond body => max cond.stackWords body.stackWords
  | .forLoop init cond step body =>
    max (max init.stackWords cond.stackWords) (max step.stackWords body.stackWords)
  | .block body => Stmt.stackWordsOfAll body

def Stmt.stackWordsOfAll : List Stmt → Nat
  | [] => 0
  | s :: ss => max s.stackWords (Stmt.stackWordsOfAll ss)

end

/-- The bytes that an activation takes: the saved frame pointer, the frame, and operands. -/
def Function.stackBytes (f : Function) : Nat :=
  8 + f.frame.byteSize + 8 * Stmt.stackWordsOfAll f.body

/-- The bytes that an activation of any function takes at most. -/
def Program.stackBytes (p : Program) : Nat :=
  p.foldr (fun f bytes => max f.stackBytes bytes) 0

theorem Program.stackBytes_of_mem {p : Program} {f : Function} (hf : f ∈ p) :
    f.stackBytes ≤ p.stackBytes := by
  induction p with
  | nil => cases hf
  | cons g fs ih =>
    rcases List.mem_cons.mp hf with rfl | hf
    · exact le_max_left _ _
    · exact (ih hf).trans (le_max_right _ _)

theorem Expr.one_le_stackWords : ∀ e : Expr, 1 ≤ e.stackWords
  | .num _ => by rw [stackWords]
  | .var _ => by rw [stackWords]
  | .unary _ operand => by
    rw [stackWords]
    exact one_le_stackWords operand
  | .binary _ lhs _ => by
    rw [stackWords]
    exact le_max_of_le_left (one_le_stackWords lhs)
  | .assign _ rhs => by
    rw [stackWords]
    exact Nat.le_add_left _ _
  | .call _ args => by
    rw [stackWords]
    exact le_max_of_le_right (by decide)

theorem Expr.length_le_argumentWords (args : List Expr) : args.length ≤ argumentWords args := by
  cases args with
  | nil => exact Nat.zero_le _
  | cons arg args =>
    have hone := arg.one_le_stackWords
    rw [argumentWords, List.length_cons]
    omega

/-- A function has returned to its caller. -/
structure Returns (low : Nat) (v : Int64) (m m' : Machine) : Prop where
  rax : m'.regs .rax = v
  rsp : m'.regs .rsp = m.regs .rsp + .ofNat 8
  rbp : m'.regs .rbp = m.regs .rbp
  keeps : Memory.Keeps (fun a => a < low ∨ m.top ≤ a) m.mem m'.mem

/-- An activation has ended: its frame is gone, and the frame pointer is that of the caller. -/
structure Leaves (base : Int64) (low : Nat) (v : Int64) (m m' : Machine) : Prop where
  rax : m'.regs .rax = v
  rsp : m'.regs .rsp = base + .ofNat 16
  rbp : m'.regs .rbp = m.word (address base)
  keeps : Memory.Keeps (fun a => a < low ∨ address base ≤ a) m.mem m'.mem

/-- How the code of a statement ends that stands before the line number `next`. -/
def Ends (frame : Frame) (base : Int64) (low next : Nat) (m : Machine) : Flow → Config → Prop
  | .next env, c => c.pc = next ∧ Settled frame base low env m c.machine
  | .returned v, c => c.pc = address (m.word (address base + 8)) ∧ Leaves base low v m c.machine

section Preserved

variable (p : Program) (listing : List Line) (fuel : Nat)

/-- The code of an expression pushes its value. -/
def ExprPreserved : Prop :=
  ∀ {depth : Nat} {frame : Frame} {base : Int64} {low pending pc : Nat} {env env' : Env}
    {e : Expr} {v : Int64} {code : List Instr} {m : Machine},
    e.eval p fuel depth env = some (v, env') → e.valueCode frame pending = .ok code →
    LinesAt listing pc (code.map .instr) →
    Ready frame base low (8 * e.stackWords + depth * p.stackBytes) env m →
    ∃ m', Reaches listing ⟨pc, m⟩ ⟨pc + code.length, m'⟩ ∧ Pushes frame base low env' v m m'

/-- The code of arguments pushes their values, the first value last. -/
def ArgumentsPreserved : Prop :=
  ∀ {depth : Nat} {frame : Frame} {base : Int64} {low pending pc : Nat} {env env' : Env}
    {args : List Expr} {vs : List Int64} {code : List Instr} {m : Machine},
    Expr.evalArguments p fuel depth env args = some (vs, env') →
    Expr.argumentCode frame pending args = .ok code → LinesAt listing pc (code.map .instr) →
    Ready frame base low (8 * Expr.argumentWords args + depth * p.stackBytes) env m →
    ∃ m', Reaches listing ⟨pc, m⟩ ⟨pc + code.length, m'⟩ ∧
      PushesAll frame base low env' vs m m'

/-- A function that is entered with its arguments in registers returns its value. -/
def CallPreserved : Prop :=
  ∀ {depth low : Nat} {callee : String} {args : List Int64} {v : Int64} {m : Machine},
    p.evalCall fuel depth callee args = some v →
    (argumentRegisters.take args.length).map m.regs = args →
    low + depth * p.stackBytes ≤ m.top → m.top + 8 ≤ 2 ^ 64 →
    ∃ start, lineNumber? listing (.entry callee) = some start ∧
      ∃ m', Reaches listing ⟨start, m⟩ ⟨address (m.word m.top), m'⟩ ∧ Returns low v m m'

/-- The code of a statement ends as the statement does. -/
def StmtPreserved : Prop :=
  ∀ {depth : Nat} {frame : Frame} {base : Int64} {low pc : Nat} {before : ConstructCounts}
    {env : Env} {s : Stmt} {flow : Flow} {code : List Line} {m : Machine},
    s.eval p fuel depth env = some flow → s.code frame before = .ok code →
    LinesAt listing pc code →
    Ready frame base low (8 * s.stackWords + depth * p.stackBytes) env m →
    ∃ c, Reaches listing ⟨pc, m⟩ c ∧ Ends frame base low (pc + code.length) m flow c

def AllPreserved : Prop :=
  ∀ {depth : Nat} {frame : Frame} {base : Int64} {low pc : Nat} {before : ConstructCounts}
    {env : Env} {ss : List Stmt} {flow : Flow} {code : List Line} {m : Machine},
    Stmt.evalAll p fuel depth env ss = some flow → Stmt.codeOfAll frame before ss = .ok code →
    LinesAt listing pc code →
    Ready frame base low (8 * Stmt.stackWordsOfAll ss + depth * p.stackBytes) env m →
    ∃ c, Reaches listing ⟨pc, m⟩ c ∧ Ends frame base low (pc + code.length) m flow c

def LoopPreserved : Prop :=
  ∀ {depth words : Nat} {frame : Frame} {base : Int64} {low pc : Nat}
    {before : ConstructCounts} {env : Env} {cond : Expr} {body : Stmt} {step : Option Expr}
    {flow : Flow} {first last : Label} {test inner after : List Line} {m : Machine},
    Stmt.evalLoop p fuel depth env cond body step = some flow →
    conditionCode frame cond last = .ok test → body.code frame before = .ok inner →
    stepCode frame step = .ok after →
    LinesAt listing pc (loopLines first last test inner after) →
    cond.stackWords ≤ words → body.stackWords ≤ words → (∀ e ∈ step, e.stackWords ≤ words) →
    Ready frame base low (8 * words + depth * p.stackBytes) env m →
    ∃ c, Reaches listing ⟨pc, m⟩ c ∧
      Ends frame base low (pc + (loopLines first last test inner after).length) m flow c

/-- The code of a program preserves every evaluation that a given fuel is enough for. -/
structure Preserved : Prop where
  expr : ExprPreserved p listing fuel
  arguments : ArgumentsPreserved p listing fuel
  call : CallPreserved p listing fuel
  stmt : StmtPreserved p listing fuel
  all : AllPreserved p listing fuel
  loop : LoopPreserved p listing fuel

end Preserved

/-- A listing that holds the code of every function, and in which names have one meaning. -/
structure Listing (p : Program) (listing : List Line) : Prop where
  labels : (labelsOf listing).Nodup
  entries : (entriesOf listing).Nodup
  fits : listing.length < 2 ^ 64
  function : ∀ f ∈ p, ∃ before code pc, f.code before = .ok code ∧ LinesAt listing pc code

end MiniC
