import MiniC.Proofs.Code.Jumps

/-! Paths through a listing. A path takes both sides of every conditional jump, and knows how far
the stack pointer and the frame pointer are from where the stack pointer was when it began. -/
namespace MiniC

/-- The distances of the pointers from where the stack pointer was at first, where they are
known. -/
@[ext] structure Pointers where
  rsp : Option Int
  rbp : Option Int

namespace Pointers

/-- The pointers where a function begins: the frame pointer is that of the caller. -/
def entry : Pointers :=
  ⟨some 0, none⟩

def get (r : Pointers) : Reg → Option Int
  | .rsp => r.rsp
  | .rbp => r.rbp
  | _ => none

def set (r : Pointers) (dst : Reg) (d : Option Int) : Pointers :=
  match dst with
  | .rsp => { r with rsp := d }
  | .rbp => { r with rbp := d }
  | _ => r

/-- How far the stack pointer is from the frame pointer. -/
def displacement (r : Pointers) : Option Int := do
  return (← r.rsp) - (← r.rbp)

end Pointers

/-- The pointers after an instruction. A call comes back with both as they were. -/
def Instr.move (r : Pointers) : Instr → Pointers
  | push _ | pushWord _ => r.set .rsp (r.rsp.map (· - 8))
  | pop dst => (r.set .rsp (r.rsp.map (· + 8))).set dst none
  | mov dst src => r.set dst (r.get src)
  | addBytes dst count => r.set dst ((r.get dst).map (· + count))
  | subBytes dst count => r.set dst ((r.get dst).map (· - count))
  | movWord dst _ | load dst _ | add dst _ | sub dst _ | imul dst _ | neg dst => r.set dst none
  | store _ _ | spill _ _ | cqo | idiv _ | cmp _ _ | cmpZero _ | set _ | movzx => r
  | jmp _ | je _ | call _ | ret => r

namespace Line

def move (r : Pointers) : Line → Pointers
  | instr i => i.move r
  | entry _ | label _ => r

/-- Whether the next line may follow. -/
def fallsThrough : Line → Bool
  | instr (.jmp _) | instr .ret => false
  | _ => true

end Line

/-- A line that a path comes to, and the pointers there. -/
structure Visit where
  line : Nat
  pointers : Pointers

/-- One line of a path. -/
inductive Follows (code : List Line) : Visit → Visit → Prop where
  | next {n r line} : code[n]? = some line → line.fallsThrough →
      Follows code ⟨n, r⟩ ⟨n + 1, line.move r⟩
  | jump {n m r line l} : code[n]? = some line → line.target? = some l →
      code[m]? = some (.label l) → Follows code ⟨n, r⟩ ⟨m, r⟩

/-- What paths from line number `first` come to. -/
def Visited (code : List Line) (first : Nat) : Visit → Prop :=
  Relation.ReflTransGen (Follows code) ⟨first, Pointers.entry⟩

/-- The registers of a machine are where a path takes them to be, if the stack pointer was `w` at
first. -/
structure Pointers.Agree (w : Int64) (r : Pointers) (m : Machine) : Prop where
  rsp : ∀ d ∈ r.rsp, m.regs .rsp = w + .ofInt d
  rbp : ∀ d ∈ r.rbp, m.regs .rbp = w + .ofInt d

namespace Pointers.Agree

variable {w x : Int64} {r : Pointers} {m : Machine} {d : Int}

theorem get (h : r.Agree w m) {src : Reg} (hd : r.get src = some d) :
    m.regs src = w + .ofInt d := by
  cases src
  case rsp => exact h.rsp d hd
  case rbp => exact h.rbp d hd
  all_goals cases hd

theorem set (h : r.Agree w m) {dst : Reg} {d : Option Int} (hx : ∀ d' ∈ d, x = w + .ofInt d') :
    (r.set dst d).Agree w (m.set dst x) := by
  cases dst
  case rsp => exact ⟨fun d' hd => hx d' hd, fun d' hd => h.rbp d' hd⟩
  case rbp => exact ⟨fun d' hd => h.rsp d' hd, fun d' hd => hx d' hd⟩
  all_goals exact ⟨fun d' hd => h.rsp d' hd, fun d' hd => h.rbp d' hd⟩

theorem of_regs_eq {m' : Machine} (h : r.Agree w m) (hregs : m'.regs = m.regs) :
    r.Agree w m' := by
  refine ⟨?_, ?_⟩ <;> rw [hregs]
  · exact h.rsp
  · exact h.rbp

theorem get_add (h : r.Agree w m) (dst : Reg) (n : Nat) :
    ∀ d ∈ (r.get dst).map (· + (n : Int)), m.regs dst + .ofNat n = w + .ofInt d := by
  intro d hd
  obtain ⟨d', hd', rfl⟩ := Option.map_eq_some_iff.mp hd
  rw [h.get hd', Int64.ofInt_add, Int64.ofInt_eq_ofNat, Int64.add_assoc]

theorem get_sub (h : r.Agree w m) (dst : Reg) (n : Nat) :
    ∀ d ∈ (r.get dst).map (· - (n : Int)), m.regs dst - .ofNat n = w + .ofInt d := by
  intro d hd
  obtain ⟨d', hd', rfl⟩ := Option.map_eq_some_iff.mp hd
  rw [h.get hd', Int64.ofInt_sub, Int64.ofInt_eq_ofNat, Int64.sub_eq_add_neg,
    Int64.sub_eq_add_neg, Int64.add_assoc]

theorem set_none (h : r.Agree w m) (dst : Reg) (x : Int64) :
    (r.set dst none).Agree w (m.set dst x) :=
  h.set (by simp)

theorem push (h : r.Agree w m) (x : Int64) :
    (r.set .rsp (r.rsp.map (· - 8))).Agree w (m.push x) := by
  have hset : (r.set .rsp (r.rsp.map (· - 8))).Agree w (m.set .rsp (m.regs .rsp - .ofNat 8)) :=
    h.set (h.get_sub .rsp 8)
  exact hset.of_regs_eq rfl

/-- An instruction moves the pointers as a path takes it to. -/
theorem move {m' : Machine} {i : Instr} (h : r.Agree w m) (hexec : i.exec m = some m') :
    (i.move r).Agree w m' := by
  cases i with
  | push src =>
    obtain rfl := Option.some.inj hexec
    exact h.push _
  | pop dst =>
    obtain rfl := Option.some.inj hexec
    exact (h.set (h.get_add .rsp 8)).set_none _ _
  | mov dst src =>
    obtain rfl := Option.some.inj hexec
    exact h.set fun d hd => h.get hd
  | pushWord value =>
    obtain ⟨-, rfl⟩ : fitsPush value ∧ m.push value = m' := by simpa [Instr.exec] using hexec
    exact h.push _
  | addBytes dst count =>
    obtain rfl := Option.some.inj hexec
    exact (h.set (h.get_add dst count)).of_regs_eq rfl
  | subBytes dst count =>
    obtain rfl := Option.some.inj hexec
    exact (h.set (h.get_sub dst count)).of_regs_eq rfl
  | movWord dst _ | load dst _ | add dst _ | sub dst _ | imul dst _ | neg dst =>
    obtain rfl := Option.some.inj hexec
    exact (h.set_none dst _).of_regs_eq rfl
  | store _ _ | spill _ _ | cmp _ _ | cmpZero _ =>
    obtain rfl := Option.some.inj hexec
    exact h.of_regs_eq rfl
  | cqo =>
    obtain rfl := Option.some.inj hexec
    exact h.set_none .rdx _
  | movzx =>
    obtain rfl := Option.some.inj hexec
    exact h.set_none .rax _
  | set relation =>
    obtain ⟨p, -, rfl⟩ := Option.map_eq_some_iff.mp hexec
    exact h.set_none .rax _
  | idiv src =>
    obtain ⟨p, -, rfl⟩ := Option.map_eq_some_iff.mp hexec
    have hquotient : r.Agree w (m.compute .rax p.1) := (h.set_none .rax _).of_regs_eq rfl
    exact hquotient.set_none .rdx _
  | jmp _ | je _ | call _ | ret => cases hexec

end Pointers.Agree

theorem getElem?_of_lineNumber? {code : List Line} {line : Line} {n : Nat}
    (h : lineNumber? code line = some n) : code[n]? = some line := by
  obtain ⟨hlt, heq, -⟩ := List.findIdx?_eq_some_iff_getElem.mp h
  rw [List.getElem?_eq_getElem hlt, of_decide_eq_true heq]

/-- A step of the machine within a function is a step of a path. -/
theorem follows_of_step {code : List Line} {c c' : Config} {w : Int64} {r : Pointers}
    (hstep : c.step code = some c') (h : r.Agree w c.machine)
    (hcall : ∀ f, code[c.pc]? ≠ some (.instr (.call f))) (hret : code[c.pc]? ≠ some (.instr .ret)) :
    ∃ r', Follows code ⟨c.pc, r⟩ ⟨c'.pc, r'⟩ ∧ r'.Agree w c'.machine := by
  unfold Config.step at hstep
  split at hstep
  · cases hstep
  · next hline =>
    obtain rfl := Option.some.inj hstep
    exact ⟨r, .next hline rfl, h⟩
  · next hline =>
    obtain rfl := Option.some.inj hstep
    exact ⟨r, .next hline rfl, h⟩
  · next hline =>
    obtain ⟨n, hn, rfl⟩ := Option.map_eq_some_iff.mp hstep
    exact ⟨r, .jump hline rfl (getElem?_of_lineNumber? hn), h⟩
  · next hline =>
    split at hstep
    · cases hstep
    · split at hstep
      · obtain ⟨n, hn, rfl⟩ := Option.map_eq_some_iff.mp hstep
        exact ⟨r, .jump hline rfl (getElem?_of_lineNumber? hn), h⟩
      · obtain rfl := Option.some.inj hstep
        exact ⟨r, .next hline rfl, h⟩
  · next hline => exact absurd hline (hcall _)
  · next hline => exact absurd hline hret
  · next i _ _ _ _ hline =>
    obtain ⟨m', hexec, rfl⟩ := Option.map_eq_some_iff.mp hstep
    refine ⟨i.move r, .next hline ?_, h.move hexec⟩
    cases i
    case jmp => cases hexec
    case ret => cases hexec
    all_goals rfl

end MiniC
