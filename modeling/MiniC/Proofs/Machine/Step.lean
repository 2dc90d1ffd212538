import MiniC.Code.Expression
import MiniC.Proofs.Machine.Memory

/-! A machine that runs listings. The address of a line of code is its number in the listing.
A configuration without a successor is stuck: a division faults, a literal does not fit its
instruction, a comparison was lost, or the listing has no such line or label. -/
namespace MiniC

/-- The address that a word stands for. -/
def address (w : Int64) : Nat :=
  w.toUInt64.toNat

theorem address_lt (w : Int64) : address w < 2 ^ 64 :=
  w.toUInt64.toNat_lt

theorem address_sub {w : Int64} {k : Nat} (h : k ≤ address w) :
    address (w - .ofNat k) = address w - k := by
  have hlt := address_lt w
  unfold address at *
  have hk : (Int64.ofNat k).toUInt64 = UInt64.ofNat k := rfl
  rw [Int64.toUInt64_sub, hk, UInt64.toNat_sub, Memory.toNat_ofNat (by omega)]
  omega

theorem address_add {w : Int64} {k : Nat} (h : address w + k < 2 ^ 64) :
    address (w + .ofNat k) = address w + k := by
  unfold address at *
  have hk : (Int64.ofNat k).toUInt64 = UInt64.ofNat k := rfl
  rw [Int64.toUInt64_add, hk, UInt64.toNat_add, Memory.toNat_ofNat (by omega)]
  omega

theorem address_ofNat {n : Nat} (h : n < 2 ^ 64) : address (.ofNat n) = n :=
  Memory.toNat_ofNat h

/-- Registers, the words that were compared last, and memory. Arithmetic instructions change the
flags, after which no comparison is known. -/
structure Machine where
  regs : Reg → Int64
  compared : Option (Int64 × Int64)
  mem : Memory

namespace Machine

def set (m : Machine) (r : Reg) (w : Int64) : Machine :=
  { m with regs := Function.update m.regs r w }

/-- The result of an arithmetic instruction. -/
def compute (m : Machine) (r : Reg) (w : Int64) : Machine :=
  { m.set r w with compared := none }

def store (m : Machine) (a : Nat) (w : Int64) : Machine :=
  { m with mem := m.mem.write a w }

/-- The word at an address. -/
def word (m : Machine) (a : Nat) : Int64 :=
  m.mem.word a

/-- The address of the word on top of the stack. -/
def top (m : Machine) : Nat :=
  address (m.regs .rsp)

def push (m : Machine) (w : Int64) : Machine :=
  (m.set .rsp (m.regs .rsp - .ofNat 8)).store (address (m.regs .rsp - .ofNat 8)) w

def pop (m : Machine) (r : Reg) : Machine :=
  (m.set .rsp (m.regs .rsp + .ofNat 8)).set r (m.word m.top)

end Machine

def Relation.holds : Relation → Int64 → Int64 → Bool
  | eq, a, b => a = b
  | ne, a, b => a ≠ b
  | lt, a, b => a < b
  | le, a, b => a ≤ b
  | gt, a, b => b < a
  | ge, a, b => b ≤ a

/-- The low byte of a word replaced by 1 or 0. -/
def setLowByte (w : Int64) (bit : Bool) : Int64 :=
  ((w.toUInt64 &&& ~~~255) ||| (if bit then 1 else 0)).toInt64

def lowByte (w : Int64) : Int64 :=
  (w.toUInt64 &&& 255).toInt64

/-- The quotient and the remainder of a pair of words by a word, unless the division faults. -/
def dividePair (high low divisor : Int64) : Option (Int64 × Int64) :=
  let n := high.toInt * 2 ^ 64 + address low
  let q := n.tdiv divisor.toInt
  if divisor ≠ 0 ∧ Int64.minValue.toInt ≤ q ∧ q ≤ Int64.maxValue.toInt then
    some (.ofInt q, .ofInt (n.tmod divisor.toInt))
  else none

/-- The effect of an instruction that the next line follows. -/
def Instr.exec (m : Machine) : Instr → Option Machine
  | push src => some (m.push (m.regs src))
  | pushWord value => if fitsPush value then some (m.push value) else none
  | pop dst => some (m.pop dst)
  | mov dst src => some (m.set dst (m.regs src))
  | movWord dst value => some (m.set dst value)
  | load dst base => some (m.set dst (m.word (address (m.regs base))))
  | store base src => some (m.store (address (m.regs base)) (m.regs src))
  | spill offset src => some (m.store (address (m.regs .rbp - .ofNat offset)) (m.regs src))
  | add dst src => some (m.compute dst (m.regs dst + m.regs src))
  | addBytes dst count => some (m.compute dst (m.regs dst + .ofNat count))
  | sub dst src => some (m.compute dst (m.regs dst - m.regs src))
  | subBytes dst count => some (m.compute dst (m.regs dst - .ofNat count))
  | imul dst src => some (m.compute dst (m.regs dst * m.regs src))
  | neg dst => some (m.compute dst (-m.regs dst))
  | cqo => some (m.set .rdx (if m.regs .rax < 0 then -1 else 0))
  | idiv src =>
    (dividePair (m.regs .rdx) (m.regs .rax) (m.regs src)).map fun (quotient, remainder) =>
      (m.compute .rax quotient).set .rdx remainder
  | cmp lhs rhs => some { m with compared := some (m.regs lhs, m.regs rhs) }
  | cmpZero lhs => some { m with compared := some (m.regs lhs, 0) }
  | set relation => m.compared.map fun (a, b) =>
      m.set .rax (setLowByte (m.regs .rax) (relation.holds a b))
  | movzx => some (m.set .rax (lowByte (m.regs .rax)))
  | jmp _ | je _ | call _ | ret => none

/-- The effect of consecutive instructions. -/
def Machine.execAll : List Instr → Machine → Option Machine
  | [], m => some m
  | i :: is, m => (i.exec m).bind (execAll is)

/-- A machine and the number of the line that it executes next. -/
structure Config where
  pc : Nat
  machine : Machine

/-- The number of the first line equal to one. -/
def lineNumber? (code : List Line) (line : Line) : Option Nat :=
  code.findIdx? (· = line)

namespace Config

def goto (code : List Line) (target : Line) (m : Machine) : Option Config :=
  (lineNumber? code target).map fun i => ⟨i, m⟩

/-- The configuration after one line. A call pushes the number of the next line, and a return
goes to the number on top of the stack. -/
def step (code : List Line) (c : Config) : Option Config :=
  match code[c.pc]? with
  | none => none
  | some (.entry _) => some ⟨c.pc + 1, c.machine⟩
  | some (.label _) => some ⟨c.pc + 1, c.machine⟩
  | some (.instr (.jmp target)) => goto code (.label target) c.machine
  | some (.instr (.je target)) =>
    match c.machine.compared with
    | none => none
    | some (a, b) =>
      if a = b then goto code (.label target) c.machine else some ⟨c.pc + 1, c.machine⟩
  | some (.instr (.call callee)) =>
    goto code (.entry callee) (c.machine.push (.ofNat (c.pc + 1)))
  | some (.instr .ret) =>
    let m := c.machine
    some ⟨address (m.word m.top), m.set .rsp (m.regs .rsp + .ofNat 8)⟩
  | some (.instr i) => (i.exec c.machine).map fun m => ⟨c.pc + 1, m⟩

end Config

/-- A listing takes one configuration to another in any number of steps. -/
def Reaches (code : List Line) : Config → Config → Prop :=
  Relation.ReflTransGen fun c d => c.step code = some d

namespace Reaches

variable {code : List Line} {c d e : Config}

theorem refl (code : List Line) (c : Config) : Reaches code c c :=
  Relation.ReflTransGen.refl

theorem trans (h : Reaches code c d) (h' : Reaches code d e) : Reaches code c e :=
  Relation.ReflTransGen.trans h h'

theorem single (h : c.step code = some d) : Reaches code c d :=
  Relation.ReflTransGen.single h

end Reaches

/-- The lines `part` stand in a listing from line number `pc` on. -/
def LinesAt (code : List Line) (pc : Nat) (part : List Line) : Prop :=
  ∃ before after, code = before ++ part ++ after ∧ pc = before.length

namespace LinesAt

variable {code part part' : List Line} {pc : Nat} {line : Line}

theorem left (h : LinesAt code pc (part ++ part')) : LinesAt code pc part := by
  obtain ⟨before, after, rfl, rfl⟩ := h
  exact ⟨before, part' ++ after, by simp, rfl⟩

theorem right (h : LinesAt code pc (part ++ part')) :
    LinesAt code (pc + part.length) part' := by
  obtain ⟨before, after, rfl, rfl⟩ := h
  exact ⟨before ++ part, after, by simp, by simp⟩

theorem head (h : LinesAt code pc (line :: part)) : LinesAt code pc [line] := by
  rw [← List.singleton_append] at h
  exact h.left

theorem tail (h : LinesAt code pc (line :: part)) : LinesAt code (pc + 1) part := by
  rw [← List.singleton_append] at h
  exact h.right

theorem getElem? (h : LinesAt code pc (line :: part)) : code[pc]? = some line := by
  obtain ⟨before, after, rfl, rfl⟩ := h
  simp

end LinesAt

section Steps

variable {code rest : List Line} {pc : Nat} {m m' : Machine} {i : Instr}

theorem step_of_exec (h : LinesAt code pc (.instr i :: rest)) (hi : i.exec m = some m') :
    Config.step code ⟨pc, m⟩ = some ⟨pc + 1, m'⟩ := by
  have hline := h.getElem?
  unfold Config.step
  cases i <;> simp_all [Instr.exec]

theorem reaches_of_exec (h : LinesAt code pc (.instr i :: rest)) (hi : i.exec m = some m') :
    Reaches code ⟨pc, m⟩ ⟨pc + 1, m'⟩ :=
  Reaches.single (step_of_exec h hi)

theorem reaches_of_execAll {is : List Instr} (h : LinesAt code pc (is.map .instr))
    (hm : m.execAll is = some m') : Reaches code ⟨pc, m⟩ ⟨pc + is.length, m'⟩ := by
  induction is generalizing pc m with
  | nil =>
    obtain rfl : m = m' := by simpa [Machine.execAll] using hm
    exact Reaches.refl code _
  | cons i is ih =>
    obtain ⟨mid, hi, his⟩ := Option.bind_eq_some_iff.mp hm
    have hrest := ih h.tail his
    rw [Nat.add_right_comm, Nat.add_assoc] at hrest
    exact (reaches_of_exec h hi).trans hrest

theorem reaches_label {l : Label} (h : LinesAt code pc (.label l :: rest)) :
    Reaches code ⟨pc, m⟩ ⟨pc + 1, m⟩ := by
  apply Reaches.single
  simp [Config.step, h.getElem?]

theorem reaches_entry {f : String} (h : LinesAt code pc (.entry f :: rest)) :
    Reaches code ⟨pc, m⟩ ⟨pc + 1, m⟩ := by
  apply Reaches.single
  simp [Config.step, h.getElem?]

theorem reaches_jmp {l : Label} {target : Nat} (h : LinesAt code pc (.instr (.jmp l) :: rest))
    (ht : lineNumber? code (.label l) = some target) : Reaches code ⟨pc, m⟩ ⟨target, m⟩ := by
  apply Reaches.single
  simp [Config.step, h.getElem?, Config.goto, ht]

theorem reaches_je_eq {l : Label} {target : Nat} {a b : Int64}
    (h : LinesAt code pc (.instr (.je l) :: rest)) (hc : m.compared = some (a, b)) (hab : a = b)
    (ht : lineNumber? code (.label l) = some target) : Reaches code ⟨pc, m⟩ ⟨target, m⟩ := by
  apply Reaches.single
  simp [Config.step, h.getElem?, Config.goto, ht, hc, hab]

theorem reaches_je_ne {l : Label} {a b : Int64}
    (h : LinesAt code pc (.instr (.je l) :: rest)) (hc : m.compared = some (a, b)) (hab : a ≠ b) :
    Reaches code ⟨pc, m⟩ ⟨pc + 1, m⟩ := by
  apply Reaches.single
  simp [Config.step, h.getElem?, hc, hab]

theorem reaches_call {f : String} {target : Nat} (h : LinesAt code pc (.instr (.call f) :: rest))
    (ht : lineNumber? code (.entry f) = some target) :
    Reaches code ⟨pc, m⟩ ⟨target, m.push (.ofNat (pc + 1))⟩ := by
  apply Reaches.single
  simp [Config.step, h.getElem?, Config.goto, ht]

theorem reaches_ret (h : LinesAt code pc (.instr .ret :: rest)) :
    Reaches code ⟨pc, m⟩ ⟨address (m.word m.top), m.set .rsp (m.regs .rsp + .ofNat 8)⟩ := by
  apply Reaches.single
  simp [Config.step, h.getElem?]

end Steps

end MiniC
