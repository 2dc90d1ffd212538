import MiniC.Proofs.Machine.Arithmetic
import MiniC.Proofs.Pointers.Evaluation

/-! The code of an expression with pointers computes its value on memory.

Pending operands are kept apart from the memory of the evaluation: they lie below the address where
the stack pointer started, and the evaluation stays above it. -/
namespace MiniC

/-- A machine on its way through code that started in the machine `start`. It has the memory of the
evaluation from the top of the stack that it started with, and the pending operands below that; no
byte below `low` has changed. -/
structure Mirrors (start : Machine) (low : Nat) (mem : Memory) (operands : List Int64)
    (m : Machine) : Prop where
  rbp : m.regs .rbp = start.regs .rbp
  rsp : m.regs .rsp = start.regs .rsp - .ofNat (8 * operands.length)
  operands : m.WordsAt m.top operands
  above : Memory.Keeps (start.top ≤ ·) mem m.mem
  below : Memory.Keeps (· < low) start.mem m.mem

/-- Pointers to words that lie above an address, and not across the end of memory. -/
def Above (bound : Nat) (pointers : List Int64) : Prop :=
  ∀ w ∈ pointers, bound ≤ address w ∧ address w + 8 ≤ 2 ^ 64

theorem Above.append {bound : Nat} {pointers pointers' : List Int64} :
    Above bound (pointers ++ pointers') ↔ Above bound pointers ∧ Above bound pointers' :=
  List.forall_mem_append

theorem address_add_eq_mod (w : Int64) (k : Nat) :
    address (w + .ofNat k) = (address w + k) % 2 ^ 64 := by
  have hk : (Int64.ofNat k).toUInt64 = UInt64.ofNat k := rfl
  unfold address
  rw [Int64.toUInt64_add, hk, UInt64.toNat_add, UInt64.toNat_ofNat', Nat.add_mod_mod]

/-- A word that crosses the end of memory has a byte at address zero. -/
theorem above_of_bytes {bound : Nat} {pointers : List Int64} (hpos : 0 < bound)
    (h : ∀ w ∈ pointers, ∀ i < 8, bound ≤ address (w + .ofNat i)) : Above bound pointers := by
  intro w hw
  have hlt := address_lt w
  have hfirst := h w hw 0 (by decide)
  rw [address_add_eq_mod, Nat.add_zero, Nat.mod_eq_of_lt hlt] at hfirst
  refine ⟨hfirst, ?_⟩
  by_contra hcross
  have hzero := h w hw (2 ^ 64 - address w) (by omega)
  rw [address_add_eq_mod, Nat.add_sub_of_le hlt.le, Nat.mod_self] at hzero
  omega

namespace Mirrors

variable {start m m' : Machine} {low : Nat} {mem : Memory} {stack : List Int64} {w v a b : Int64}

theorem refl (start : Machine) (low : Nat) : Mirrors start low start.mem [] start :=
  ⟨rfl, (Int64.sub_zero _).symm, trivial, .refl _ _, .refl _ _⟩

theorem top (h : Mirrors start low mem stack m) (hroom : low + 8 * stack.length ≤ start.top) :
    m.top = start.top - 8 * stack.length := by
  unfold Machine.top at *
  rw [h.rsp]
  exact address_sub (by omega)

theorem of_regs (h : Mirrors start low mem stack m) (hrbp : m'.regs .rbp = m.regs .rbp)
    (hrsp : m'.regs .rsp = m.regs .rsp) (hmem : m'.mem = m.mem) :
    Mirrors start low mem stack m' := by
  have htop : m'.top = m.top := congrArg address hrsp
  refine ⟨hrbp.trans h.rbp, hrsp.trans h.rsp, ?_, hmem ▸ h.above, hmem ▸ h.below⟩
  rw [htop]
  exact h.operands.of_mem_eq hmem

theorem of_computes (h : Mirrors start low mem stack m) (hc : Computes v m m') :
    Mirrors start low mem stack m' :=
  h.of_regs hc.rbp hc.rsp hc.mem

theorem push (h : Mirrors start low mem stack m)
    (hroom : low + 8 * (stack.length + 1) ≤ start.top) (w : Int64) :
    Mirrors start low mem (w :: stack) (m.push w) := by
  have htop := h.top (by omega)
  have hlt := address_lt (start.regs .rsp)
  have hstart : start.top < 2 ^ 64 := hlt
  have hnew : (m.push w).top + 8 = m.top := by
    rw [Machine.top_push w (by omega)]
    omega
  refine ⟨?_, ?_, ⟨m.word_push_top w, ?_⟩, ?_, ?_⟩
  · rw [m.regs_push_of_ne w (by decide), h.rbp]
  · rw [m.regs_push_rsp, h.rsp, Int64.sub_sub, ← Int64.ofNat_add, List.length_cons,
      Nat.mul_succ]
  · rw [hnew]
    exact h.operands.of_keeps (by omega) (Machine.keeps_push w (by omega) (by omega))
  · exact h.above.trans (Machine.keeps_push w (by omega) (by omega))
  · exact h.below.trans (Machine.keeps_push w (by omega) (by omega))

theorem pop {r : Reg} (h : Mirrors start low mem (w :: stack) m)
    (hroom : low + 8 * (stack.length + 1) ≤ start.top) (hrsp : r ≠ .rsp) (hrbp : r ≠ .rbp) :
    Mirrors start low mem stack (m.pop r) ∧ (m.pop r).regs r = w := by
  have htop := h.top (by rwa [List.length_cons])
  rw [List.length_cons] at htop
  obtain ⟨hw, hwords⟩ := h.operands
  have hsp : (m.pop r).regs .rsp = start.regs .rsp - .ofNat (8 * stack.length) := by
    rw [m.regs_pop_rsp hrsp, h.rsp, List.length_cons, Nat.mul_succ, Int64.ofNat_add,
      ← Int64.sub_sub, Int64.sub_add_cancel]
  have hnew : (m.pop r).top = m.top + 8 := by
    unfold Machine.top at *
    rw [hsp, address_sub (by omega)]
    omega
  refine ⟨⟨?_, hsp, ?_, h.above, h.below⟩, m.regs_pop_self.trans hw⟩
  · rw [m.regs_pop_of_ne hrbp.symm (by decide), h.rbp]
  · rw [hnew]
    exact hwords.of_mem_eq rfl

theorem word_eq (h : Mirrors start low mem stack m) {n : Nat} (hn : start.top ≤ n)
    (hlast : n + 8 ≤ 2 ^ 64) : m.word n = mem.word n :=
  h.above.word_eq hlast (by omega)

/-- A store above the top of the stack that the code started with reaches no pending operand. -/
theorem store (h : Mirrors start low mem stack m)
    (hroom : low + 8 * stack.length ≤ start.top) {n : Nat} (hn : start.top ≤ n)
    (hlast : n + 8 ≤ 2 ^ 64) (w : Int64) :
    Mirrors start low (mem.write n w) stack (m.store n w) := by
  have htop := h.top hroom
  have hbelow : ∀ {region : Nat → Prop}, (∀ x, region x → x < start.top) →
      Memory.Keeps region m.mem (m.store n w).mem := by
    intro region hregion
    apply Memory.Keeps.write _ _ hlast
    intro i _ hi
    have hlt := hregion _ hi
    omega
  refine ⟨h.rbp, h.rsp, ?_, ?_, ?_⟩
  · exact h.operands.of_keeps (by omega) (hbelow (by omega))
  · exact h.above.write_both n w
  · exact h.below.trans (hbelow (by omega))

end Mirrors

section Execution

variable {start m : Machine} {low pending : Nat} {mem : Memory} {stack : List Int64}
  {frame : Frame} {code : List Instr} {r : Effect}

theorem execAll_literalCode (h : Mirrors start low mem stack m)
    (hroom : low + 8 * (stack.length + 1) ≤ start.top) (w : Int64) :
    ∃ m', m.execAll (literalCode w) = some m' ∧ Mirrors start low mem (w :: stack) m' := by
  by_cases hfits : fitsPush w
  · have hexec : m.execAll (literalCode w) = some (m.push w) := by
      simp [literalCode, hfits, Machine.execAll, Instr.exec]
    exact ⟨_, hexec, h.push hroom w⟩
  · have hexec : m.execAll (literalCode w) = some ((m.set .rax w).push w) := by
      simp [literalCode, hfits, Machine.execAll, Instr.exec]
    have hset : Mirrors start low mem stack (m.set .rax w) :=
      h.of_regs (by simp) (by simp) rfl
    exact ⟨_, hexec, hset.push hroom w⟩

theorem execAll_slotCode {name : String} (hc : slotCode frame name = .ok code)
    (hr : slotEffect frame (start.regs .rbp) mem name = .ok r)
    (h : Mirrors start low mem stack m) (hroom : low + 8 * (stack.length + 1) ≤ start.top) :
    ∃ m', m.execAll code = some m' ∧ Mirrors start low r.mem (r.value :: stack) m' := by
  obtain ⟨offset, ho, rfl⟩ := slotCode_eq_ok hc
  obtain ⟨_, ho', rfl⟩ := slotEffect_eq_ok hr
  obtain rfl := Option.some.inj (ho.symm.trans ho')
  let slot := start.regs .rbp - .ofNat offset
  have hexec : m.execAll [.mov .rax .rbp, .subBytes .rax offset, .push .rax] =
      some (((m.set .rax (start.regs .rbp)).compute .rax slot).push slot) := by
    simp [Machine.execAll, Instr.exec, h.rbp, slot]
  have hset : Mirrors start low mem stack
      ((m.set .rax (start.regs .rbp)).compute .rax slot) :=
    h.of_regs (by simp) (by simp) rfl
  exact ⟨_, hexec, hset.push hroom slot⟩

theorem execAll_loadCode (h : Mirrors start low r.mem (r.value :: stack) m)
    (hroom : low + 8 * (stack.length + 1) ≤ start.top)
    (habove : Above start.top r.load.footprint) :
    ∃ m', m.execAll loadCode = some m' ∧
      Mirrors start low r.load.mem (r.load.value :: stack) m' := by
  obtain ⟨hpop, hrax⟩ := h.pop (r := .rax) hroom (by decide) (by decide)
  obtain ⟨hlow, hlast⟩ := (Above.append.mp habove).2 _ List.mem_cons_self
  have hword : (m.pop .rax).word (address r.value) = r.load.value :=
    (hpop.word_eq hlow hlast).trans r.load_value.symm
  have hexec : m.execAll loadCode =
      some (((m.pop .rax).set .rax r.load.value).push r.load.value) := by
    simp only [loadCode, Machine.execAll, Instr.exec, Option.bind_some, hrax, hword,
      Machine.regs_set_self]
  have hset : Mirrors start low r.load.mem stack ((m.pop .rax).set .rax r.load.value) := by
    rw [Effect.load_mem]
    exact hpop.of_regs (by simp) (by simp) rfl
  exact ⟨_, hexec, hset.push hroom r.load.value⟩

theorem execAll_negation (h : Mirrors start low r.mem (r.value :: stack) m)
    (hroom : low + 8 * (stack.length + 1) ≤ start.top) :
    ∃ m', m.execAll [.pop .rax, .neg .rax, .push .rax] = some m' ∧
      Mirrors start low r.negate.mem (r.negate.value :: stack) m' := by
  obtain ⟨hpop, hrax⟩ := h.pop (r := .rax) hroom (by decide) (by decide)
  have hexec : m.execAll [.pop .rax, .neg .rax, .push .rax] =
      some (((m.pop .rax).compute .rax (-r.value)).push (-r.value)) := by
    simp only [Machine.execAll, Instr.exec, Option.bind_some, hrax, Machine.regs_compute_self]
  have hset : Mirrors start low r.mem stack ((m.pop .rax).compute .rax (-r.value)) :=
    hpop.of_regs (by simp) (by simp) rfl
  exact ⟨_, hexec, hset.push hroom _⟩

/-- Two operands go to registers, the right one first. -/
theorem Mirrors.pop_operands {a b : Int64} (h : Mirrors start low mem (b :: a :: stack) m)
    (hroom : low + 8 * (stack.length + 2) ≤ start.top) :
    Mirrors start low mem stack ((m.pop .rdi).pop .rax) ∧
      ((m.pop .rdi).pop .rax).regs .rax = a ∧ ((m.pop .rdi).pop .rax).regs .rdi = b := by
  obtain ⟨hpop, hrdi⟩ := h.pop (r := .rdi) hroom (by decide) (by decide)
  obtain ⟨hpops, hrax⟩ := hpop.pop (r := .rax) (by omega) (by decide) (by decide)
  refine ⟨hpops, hrax, ?_⟩
  rw [Machine.regs_pop_of_ne _ (by decide) (by decide), hrdi]

theorem execAll_operator {op : BinOp} {a b v : Int64} (hv : op.eval a b = some v)
    (h : Mirrors start low mem (b :: a :: stack) m)
    (hroom : low + 8 * (stack.length + 2) ≤ start.top) :
    ∃ m', m.execAll ([.pop .rdi, .pop .rax] ++ op.code ++ [.push .rax]) = some m' ∧
      Mirrors start low mem (v :: stack) m' := by
  obtain ⟨hpops, hrax, hrdi⟩ := h.pop_operands hroom
  obtain ⟨m', hop, hcomputes⟩ := execAll_binOp hrax hrdi hv
  have hexec : m.execAll ([.pop .rdi, .pop .rax] ++ op.code ++ [.push .rax]) =
      some (m'.push v) := by
    rw [Machine.execAll_append, Machine.execAll_append]
    simp [Machine.execAll, Instr.exec, hop, hcomputes.rax]
  exact ⟨_, hexec, (hpops.of_computes hcomputes).push (by omega) v⟩

theorem execAll_assignment {target : Effect}
    (h : Mirrors start low r.mem (r.value :: target.value :: stack) m)
    (hroom : low + 8 * (stack.length + 2) ≤ start.top)
    (habove : Above start.top (target.store r).footprint) :
    ∃ m', m.execAll [.pop .rdi, .pop .rax, .store .rax .rdi, .push .rdi] = some m' ∧
      Mirrors start low (target.store r).mem ((target.store r).value :: stack) m' := by
  obtain ⟨hpops, hrax, hrdi⟩ := h.pop_operands hroom
  obtain ⟨hlow, hlast⟩ := (Above.append.mp habove).2 _ List.mem_cons_self
  have hexec : m.execAll [.pop .rdi, .pop .rax, .store .rax .rdi, .push .rdi] =
      some ((((m.pop .rdi).pop .rax).store (address target.value) r.value).push r.value) := by
    simp only [Machine.execAll, Instr.exec, Option.bind_some, hrax, hrdi, Machine.regs_store]
  exact ⟨_, hexec, (hpops.store (by omega) hlow hlast r.value).push (by omega) r.value⟩

/-- The code of an expression pushes its value, above what is pending already. -/
def PushesValue (frame : Frame) (start : Machine) (low : Nat) (e : Expr) : Prop :=
  ∀ ⦃pending mem stack m code r⦄, e.valueCode frame pending = .ok code →
    e.evalOn frame (start.regs .rbp) mem = .ok r → Above start.top r.footprint →
    low + 8 * (stack.length + e.operandWords) ≤ start.top → Mirrors start low mem stack m →
    ∃ m', m.execAll code = some m' ∧ Mirrors start low r.mem (r.value :: stack) m'

/-- The code of an address pushes it, above what is pending already. -/
def PushesAddress (frame : Frame) (start : Machine) (low : Nat) (e : Expr) : Prop :=
  ∀ ⦃pending refuse mem stack m code r⦄, e.addressCode frame pending refuse = .ok code →
    e.locate frame (start.regs .rbp) mem = .ok r → Above start.top r.footprint →
    low + 8 * (stack.length + e.operandWords) ≤ start.top → Mirrors start low mem stack m →
    ∃ m', m.execAll code = some m' ∧ Mirrors start low r.mem (r.value :: stack) m'

theorem pushesValue_num (value : Int64) : PushesValue frame start low (.num value) := by
  intro _ _ _ _ _ _ hc he _ hroom h
  obtain rfl := valueCode_num hc
  obtain rfl := Except.ok.inj he
  exact execAll_literalCode h hroom value

theorem pushesValue_var (name : String) : PushesValue frame start low (.var name) := by
  intro _ _ _ _ _ _ hc he habove hroom h
  obtain ⟨slot, hslot, rfl⟩ := valueCode_var hc
  obtain ⟨target, htarget, rfl⟩ := evalOn_var he
  obtain ⟨m₁, hexec₁, h₁⟩ := execAll_slotCode hslot htarget h hroom
  obtain ⟨m₂, hexec₂, h₂⟩ := execAll_loadCode h₁ hroom habove
  exact ⟨m₂, Machine.execAll_trans hexec₁ hexec₂, h₂⟩

theorem pushesAddress_var (name : String) : PushesAddress frame start low (.var name) := by
  intro _ _ _ _ _ _ _ hc he _ hroom h
  exact execAll_slotCode hc he h hroom

theorem pushesValue_plus {e : Expr} (ih : PushesValue frame start low e) :
    PushesValue frame start low (.unary .plus e) := by
  intro _ _ _ _ _ _ hc he habove hroom h
  exact ih (valueCode_plus hc) he habove hroom h

theorem pushesValue_minus {e : Expr} (ih : PushesValue frame start low e) :
    PushesValue frame start low (.unary .minus e) := by
  intro _ _ _ _ _ _ hc he habove hroom h
  obtain ⟨operand, hoperand, rfl⟩ := valueCode_minus hc
  obtain ⟨x, hx, rfl⟩ := evalOn_minus he
  have hone := e.one_le_operandWords
  rw [Expr.operandWords] at hroom
  obtain ⟨m₁, hexec₁, h₁⟩ := ih hoperand hx habove hroom h
  obtain ⟨m₂, hexec₂, h₂⟩ := execAll_negation h₁ (by omega)
  exact ⟨m₂, Machine.execAll_trans hexec₁ hexec₂, h₂⟩

theorem pushesValue_address {e : Expr} (ih : PushesAddress frame start low e) :
    PushesValue frame start low (.unary .address e) := by
  intro _ _ _ _ _ _ hc he habove hroom h
  exact ih (valueCode_address hc) he habove hroom h

theorem pushesValue_deref {e : Expr} (ih : PushesValue frame start low e) :
    PushesValue frame start low (.unary .deref e) := by
  intro _ _ _ _ _ _ hc he habove hroom h
  obtain ⟨pointer, hpointer, rfl⟩ := valueCode_deref hc
  obtain ⟨x, hx, rfl⟩ := evalOn_deref he
  have hone := e.one_le_operandWords
  rw [Expr.operandWords] at hroom
  obtain ⟨m₁, hexec₁, h₁⟩ := ih hpointer hx (Above.append.mp habove).1 hroom h
  obtain ⟨m₂, hexec₂, h₂⟩ := execAll_loadCode h₁ (by omega) habove
  exact ⟨m₂, Machine.execAll_trans hexec₁ hexec₂, h₂⟩

theorem pushesAddress_deref {e : Expr} (ih : PushesValue frame start low e) :
    PushesAddress frame start low (.unary .deref e) := by
  intro _ _ _ _ _ _ _ hc he habove hroom h
  exact ih hc he habove hroom h

theorem pushesValue_binary {op : BinOp} {lhs rhs : Expr} (ihl : PushesValue frame start low lhs)
    (ihr : PushesValue frame start low rhs) :
    PushesValue frame start low (.binary op lhs rhs) := by
  intro _ _ _ _ _ _ hc he habove hroom h
  obtain ⟨left, right, hleft, hright, rfl⟩ := valueCode_binary hc
  obtain ⟨a, b, v, ha, hb, hv, rfl⟩ := evalOn_binary he
  obtain ⟨habove₁, habove₂⟩ := Above.append.mp habove
  have hone := rhs.one_le_operandWords
  rw [Expr.operandWords] at hroom
  obtain ⟨m₁, hexec₁, h₁⟩ := ihl hleft ha habove₁ (by omega) h
  obtain ⟨m₂, hexec₂, h₂⟩ := ihr hright hb habove₂ (by rw [List.length_cons]; omega) h₁
  obtain ⟨m₃, hexec₃, h₃⟩ := execAll_operator hv h₂ (by omega)
  exact ⟨m₃, Machine.execAll_trans (Machine.execAll_trans hexec₁ hexec₂) hexec₃, h₃⟩

theorem pushesValue_assign {lhs rhs : Expr} (ihl : PushesAddress frame start low lhs)
    (ihr : PushesValue frame start low rhs) :
    PushesValue frame start low (.assign lhs rhs) := by
  intro _ _ _ _ _ _ hc he habove hroom h
  obtain ⟨place, right, hplace, hright, rfl⟩ := valueCode_assign hc
  obtain ⟨target, x, htarget, hx, rfl⟩ := evalOn_assign he
  obtain ⟨habove₁, habove₂⟩ := Above.append.mp (Above.append.mp habove).1
  have hone := rhs.one_le_operandWords
  rw [Expr.operandWords] at hroom
  obtain ⟨m₁, hexec₁, h₁⟩ := ihl hplace htarget habove₁ (by omega) h
  obtain ⟨m₂, hexec₂, h₂⟩ := ihr hright hx habove₂ (by rw [List.length_cons]; omega) h₁
  obtain ⟨m₃, hexec₃, h₃⟩ := execAll_assignment h₂ (by omega) habove
  exact ⟨m₃, Machine.execAll_trans (Machine.execAll_trans hexec₁ hexec₂) hexec₃, h₃⟩

/-- A call has no value here. -/
theorem pushesValue_call {callee : String} {args : List Expr} :
    PushesValue frame start low (.call callee args) := by
  intro _ _ _ _ _ _ _ he
  cases he

/-- Other expressions have no address. -/
theorem pushesAddress_of_locate {e : Expr}
    (he : ∀ base mem, e.locate frame base mem = .error .undefined) :
    PushesAddress frame start low e := by
  intro _ _ _ _ _ _ _ _ hsome
  rw [he] at hsome
  cases hsome

/-- Values and addresses refer to one another: below `&` and on the left of an assignment stands
an address, and the address of a dereferenced pointer is its value. -/
theorem pushes : ∀ e : Expr, PushesValue frame start low e ∧ PushesAddress frame start low e
  | .num value => ⟨pushesValue_num value, pushesAddress_of_locate fun _ _ => rfl⟩
  | .var name => ⟨pushesValue_var name, pushesAddress_var name⟩
  | .unary .plus e => ⟨pushesValue_plus (pushes e).1, pushesAddress_of_locate fun _ _ => rfl⟩
  | .unary .minus e => ⟨pushesValue_minus (pushes e).1, pushesAddress_of_locate fun _ _ => rfl⟩
  | .unary .address e =>
    ⟨pushesValue_address (pushes e).2, pushesAddress_of_locate fun _ _ => rfl⟩
  | .unary .deref e => ⟨pushesValue_deref (pushes e).1, pushesAddress_deref (pushes e).1⟩
  | .binary _ lhs rhs =>
    ⟨pushesValue_binary (pushes lhs).1 (pushes rhs).1, pushesAddress_of_locate fun _ _ => rfl⟩
  | .assign lhs rhs =>
    ⟨pushesValue_assign (pushes lhs).2 (pushes rhs).1, pushesAddress_of_locate fun _ _ => rfl⟩
  | .call _ _ =>
    ⟨pushesValue_call, pushesAddress_of_locate fun _ _ => rfl⟩

end Execution

/-- The code of an expression without calls computes its value on memory. Where no division faults,
the expression has a value, and where its evaluation stays above the top of the stack, the code ends
with the value on the stack and the memory above as the evaluation leaves it. Below, the code
changes nothing but the room for its operands. The operands must have that room, as those that wrap
around address zero would lie above the top of the stack. -/
theorem valueCode_computes {e : Expr} {frame : Frame} {pending : Nat} {code : List Instr}
    {m : Machine} (hcall : e.hasCall = false) (hc : e.valueCode frame pending = .ok code)
    (hdivision : e.evalOn frame (m.regs .rbp) m.mem ≠ .error .division)
    (hroom : 8 * e.operandWords ≤ m.top) :
    ∃ r, e.evalOn frame (m.regs .rbp) m.mem = .ok r ∧
      ((∀ w ∈ r.footprint, ∀ i < 8, m.top ≤ address (w + .ofNat i)) →
        ∃ m', (∀ listing pc, LinesAt listing pc (code.map .instr) →
            Reaches listing ⟨pc, m⟩ ⟨pc + code.length, m'⟩) ∧
          m'.regs .rsp = m.regs .rsp - 8 ∧ m'.word m'.top = r.value ∧
          m'.regs .rbp = m.regs .rbp ∧
          (∀ x : UInt64, m.top ≤ x.toNat → m'.mem x = r.mem x) ∧
          ∀ x : UInt64, x.toNat + 8 * e.operandWords < m.top → m'.mem x = m.mem x) := by
  cases hr : e.evalOn frame (m.regs .rbp) m.mem with
  | error fault =>
    obtain rfl := (hasValue e hcall).1 hc _ fault hr
    exact absurd hr hdivision
  | ok r =>
    refine ⟨r, rfl, fun hbytes => ?_⟩
    have hone := e.one_le_operandWords
    have habove : Above m.top r.footprint := above_of_bytes (by omega) hbytes
    have hwhole : m.top - 8 * e.operandWords + 8 * (([] : List Int64).length + e.operandWords) ≤
        m.top := by
      rw [List.length_nil]
      omega
    obtain ⟨m', hexec, h⟩ := (pushes e).1 hc hr habove hwhole (.refl m _)
    have hbelow : ∀ x : UInt64, x.toNat + 8 * e.operandWords < m.top → m'.mem x = m.mem x :=
      fun x hx => h.below x (Nat.lt_sub_of_add_lt hx)
    exact ⟨m', fun listing pc hl => reaches_of_execAll hl hexec, h.rsp, h.operands.1, h.rbp,
      h.above, hbelow⟩

/-- The expression `(*(y = &x) = 7) + x`. -/
def aliasing : Expr :=
  .binary .add (.assign (.unary .deref (.assign (.var "y") (.unary .address (.var "x")))) (.num 7))
    (.var "x")

/-- A machine whose memory is zero, at the start of the body of a function with two names. -/
def idle : Machine :=
  ⟨fun r => if r = .rbp then 1024 else if r = .rsp then 1008 else 0, none, fun _ => 0⟩

/-- A store through a pointer changes the variable that the right operand reads. -/
theorem aliasing_computes : ∃ code m',
    aliasing.valueCode (Frame.ofNames ["x", "y"]) 0 = .ok code ∧
      (∀ listing pc, LinesAt listing pc (code.map .instr) →
        Reaches listing ⟨pc, idle⟩ ⟨pc + code.length, m'⟩) ∧
      m'.regs .rsp = 1000 ∧ m'.word m'.top = 14 ∧ m'.mem 1016 = 7 := by
  obtain ⟨code, hc⟩ : ∃ code, aliasing.valueCode (Frame.ofNames ["x", "y"]) 0 = .ok code :=
    ⟨_, rfl⟩
  have heval : (aliasing.evalOn (Frame.ofNames ["x", "y"]) (idle.regs .rbp) idle.mem).map
      (fun r => (r.value, r.mem 1016, r.footprint)) = .ok (14, 7, [1008, 1016, 1016]) := by
    decide +kernel
  have hdivision : aliasing.evalOn (Frame.ofNames ["x", "y"]) (idle.regs .rbp) idle.mem ≠
      .error .division := by
    intro hfault
    rw [hfault] at heval
    cases heval
  obtain ⟨r, hr, h⟩ := valueCode_computes (by decide) hc hdivision (by decide)
  obtain ⟨_, hr', hparts⟩ := map_eq_ok_iff.mp heval
  obtain rfl := Except.ok.inj (hr.symm.trans hr')
  obtain ⟨hvalue, hbyte, hfootprint⟩ := by simpa only [Prod.mk.injEq] using hparts
  have habove : ∀ w ∈ r.footprint, ∀ i < 8, idle.top ≤ address (w + .ofNat i) := by
    intro w hw
    obtain rfl | rfl : w = 1008 ∨ w = 1016 := by simpa [hfootprint] using hw
    · decide +kernel
    · decide +kernel
  obtain ⟨m', hreach, hrsp, hword, -, hmem, -⟩ := h habove
  exact ⟨code, m', hc, hreach, hrsp, hword.trans hvalue, (hmem 1016 (by decide)).trans hbyte⟩

end MiniC
