import MiniC.Proofs.Preservation.Room

/-! The code of an expression pushes its value. -/
namespace MiniC

theorem LinesAt.instrs {code : List Line} {pc : Nat} {is js : List Instr}
    (h : LinesAt code pc ((is ++ js).map .instr)) :
    LinesAt code pc (is.map .instr) ∧ LinesAt code (pc + is.length) (js.map .instr) := by
  rw [List.map_append] at h
  have hright := h.right
  rw [List.length_map] at hright
  exact ⟨h.left, hright⟩

variable {p : Program} {listing : List Line} {fuel depth : Nat} {frame : Frame} {base : Int64}
  {low need pc pending : Nat} {env env' mid : Env} {v a b : Int64} {m m₁ m₂ : Machine}
  {code : List Instr}

theorem reaches_literalCode (w : Int64) (hl : LinesAt listing pc ((literalCode w).map .instr))
    (hr : Ready frame base low need env m) (hn : 8 ≤ need) :
    ∃ m', Reaches listing ⟨pc, m⟩ ⟨pc + (literalCode w).length, m'⟩ ∧
      Pushes frame base low env w m m' := by
  by_cases hfits : fitsPush w
  · have hexec : m.execAll (literalCode w) = some (m.push w) := by
      simp [literalCode, hfits, Machine.execAll, Instr.exec]
    exact ⟨_, reaches_of_execAll hl hexec, hr.settled.push hr hn w⟩
  · have hexec : m.execAll (literalCode w) = some ((m.set .rax w).push w) := by
      simp [literalCode, hfits, Machine.execAll, Instr.exec]
    have hset : Settled frame base low env m (m.set .rax w) :=
      hr.settled.of_regs (by simp) (by simp) rfl
    exact ⟨_, reaches_of_execAll hl hexec, hset.push hr hn w⟩

theorem reaches_slotCode {name : String} (hc : slotCode frame name = .ok code)
    (hl : LinesAt listing pc (code.map .instr)) (hr : Ready frame base low need env m)
    (hn : 8 ≤ need) :
    ∃ offset m', frame.offset? name = some offset ∧
      Reaches listing ⟨pc, m⟩ ⟨pc + code.length, m'⟩ ∧
      Pushes frame base low env (base - .ofNat offset) m m' := by
  obtain ⟨offset, ho, rfl⟩ := slotCode_eq_ok hc
  have hexec : m.execAll [.mov .rax .rbp, .subBytes .rax offset, .push .rax] =
      some (((m.set .rax base).compute .rax (base - .ofNat offset)).push
        (base - .ofNat offset)) := by
    simp [Machine.execAll, Instr.exec, hr.holds.rbp]
  have hset : Settled frame base low env m
      ((m.set .rax base).compute .rax (base - .ofNat offset)) :=
    hr.settled.of_regs (by simp) (by simp) rfl
  exact ⟨offset, _, ho, reaches_of_execAll hl hexec, hset.push hr hn _⟩

/-- A slot is read at the address that its code pushes. -/
theorem address_slot (hr : Ready frame base low need env m) {name : String} {offset : Nat}
    (ho : frame.offset? name = some offset) :
    address (base - .ofNat offset) = address base - offset :=
  address_sub ((hr.consistent.offset_bounds ho).2.trans hr.byteSize_le)

theorem reaches_loadCode (hp : Pushes frame base low env a m m₁)
    (hl : LinesAt listing pc (loadCode.map .instr)) (hr : Ready frame base low need env' m)
    (hn : 8 ≤ need) :
    ∃ m', Reaches listing ⟨pc, m₁⟩ ⟨pc + loadCode.length, m'⟩ ∧
      Pushes frame base low env (m₁.word (address a)) m m' := by
  obtain ⟨hpop, ha⟩ := hp.pop (r := .rax) (by decide) (by decide)
  have hexec : m₁.execAll loadCode = some (((m₁.pop .rax).set .rax (m₁.word (address a))).push
      (m₁.word (address a))) := by
    simp only [loadCode, Machine.execAll, Instr.exec, Option.bind_some, ha,
      Machine.regs_set_self]
    rfl
  have hset : Settled frame base low env m ((m₁.pop .rax).set .rax (m₁.word (address a))) :=
    hpop.of_regs (by simp) (by simp) rfl
  exact ⟨_, reaches_of_execAll hl hexec, hset.push hr hn _⟩

/-- Two operands go to registers, the right one first. -/
theorem pop_operands (ha : Pushes frame base low mid a m m₁)
    (hb : Pushes frame base low env' b m₁ m₂) (hr : Ready frame base low need env m)
    (hn : 8 ≤ need) :
    Settled frame base low env' m ((m₂.pop .rdi).pop .rax) ∧
      ((m₂.pop .rdi).pop .rax).regs .rax = a ∧ ((m₂.pop .rdi).pop .rax).regs .rdi = b := by
  obtain ⟨hpop, hrdi⟩ := hb.pop (r := .rdi) (by decide) (by decide)
  obtain ⟨hpops, hrax⟩ := (ha.settle hpop hr hn).pop (r := .rax) (by decide) (by decide)
  refine ⟨hpops, hrax, ?_⟩
  rw [Machine.regs_pop_of_ne _ (by decide) (by decide), hrdi]

theorem reaches_binOp {op : BinOp} (ha : Pushes frame base low mid a m m₁)
    (hb : Pushes frame base low env' b m₁ m₂) (hv : op.eval a b = some v)
    (hcode : code = [.pop .rdi, .pop .rax] ++ op.code ++ [.push .rax])
    (hl : LinesAt listing pc (code.map .instr)) (hr : Ready frame base low need env m)
    (hn : 8 ≤ need) :
    ∃ m', Reaches listing ⟨pc, m₂⟩ ⟨pc + code.length, m'⟩ ∧
      Pushes frame base low env' v m m' := by
  obtain ⟨hpops, hrax, hrdi⟩ := pop_operands ha hb hr hn
  obtain ⟨m', hop, hcomputes⟩ := execAll_binOp hrax hrdi hv
  have hexec : m₂.execAll code = some (m'.push v) := by
    rw [hcode, Machine.execAll_append, Machine.execAll_append]
    simp [Machine.execAll, Instr.exec, hop, hcomputes.rax]
  exact ⟨_, reaches_of_execAll hl hexec, (hpops.of_computes hcomputes).push hr hn v⟩

/-- A store to a slot changes nothing that code leaves alone. -/
theorem Settled.assign (h : Settled frame base low env' m m₁)
    (hr : Ready frame base low need env m) {name : String} {offset : Nat}
    (ho : frame.offset? name = some offset) (v : Int64) :
    Settled frame base low (env'.assign name v) m (m₁.store (address base - offset) v) := by
  obtain ⟨hlow, hhigh⟩ := hr.consistent.offset_bounds ho
  have hlt := address_lt base
  have hsize := hr.byteSize_le
  have hroom := hr.room
  have hbelow := hr.below
  refine ⟨h.holds.assign hr.consistent hsize ho, h.rsp, h.keeps.trans ?_⟩
  apply Memory.Keeps.write
  · omega
  · intro i hi hkept
    unfold Kept at hkept
    omega

theorem reaches_assign {name : String} {offset : Nat} (ho : frame.offset? name = some offset)
    (ha : Pushes frame base low mid (base - .ofNat offset) m m₁)
    (hb : Pushes frame base low env' v m₁ m₂)
    (hcode : code = [.pop .rdi, .pop .rax, .store .rax .rdi, .push .rdi])
    (hl : LinesAt listing pc (code.map .instr)) (hr : Ready frame base low need env m)
    (hn : 8 ≤ need) :
    ∃ m', Reaches listing ⟨pc, m₂⟩ ⟨pc + code.length, m'⟩ ∧
      Pushes frame base low (env'.assign name v) v m m' := by
  obtain ⟨hpops, hrax, hrdi⟩ := pop_operands ha hb hr hn
  have hexec : m₂.execAll code =
      some ((((m₂.pop .rdi).pop .rax).store (address base - offset) v).push v) := by
    simp only [hcode, Machine.execAll, Instr.exec, Option.bind_some, hrax, hrdi, address_slot hr ho,
      Machine.regs_store]
  exact ⟨_, reaches_of_execAll hl hexec, (hpops.assign hr ho v).push hr hn v⟩

/-- A call has come back, and the stack is as it was. -/
structure Called (low : Nat) (v : Int64) (m m' : Machine) : Prop where
  rax : m'.regs .rax = v
  rsp : m'.regs .rsp = m.regs .rsp
  rbp : m'.regs .rbp = m.regs .rbp
  keeps : Memory.Keeps (fun a => a < low ∨ m.top ≤ a) m.mem m'.mem

theorem argumentRegisters_ne {r : Reg} (hr : r ∈ argumentRegisters) : r ≠ .rsp ∧ r ≠ .rbp := by
  revert r
  decide

/-- Arguments are in registers, whatever happens to other registers. -/
theorem map_regs_congr {n : Nat} {vs : List Int64}
    (h : (argumentRegisters.take n).map m.regs = vs)
    (hregs : ∀ r ∈ argumentRegisters, m₁.regs r = m.regs r) :
    (argumentRegisters.take n).map m₁.regs = vs := by
  rw [← h]
  exact List.map_congr_left fun r hr => hregs r (List.mem_of_mem_take hr)

section Calls

variable {callee : String} {vs : List Int64}

theorem reaches_call_back (hp : CallPreserved p listing fuel) (hfits : listing.length < 2 ^ 64)
    (hv : p.evalCall fuel depth callee vs = some v)
    (hregs : (argumentRegisters.take vs.length).map m.regs = vs)
    (hl : LinesAt listing pc [.instr (.call callee)])
    (hroom : low + 8 + depth * p.stackBytes ≤ m.top) :
    ∃ m', Reaches listing ⟨pc, m⟩ ⟨pc + 1, m'⟩ ∧ Called low v m m' := by
  have htop : (m.push (.ofNat (pc + 1))).top = m.top - 8 := m.top_push _ (by omega)
  have hlt : m.top < 2 ^ 64 := address_lt _
  have hpc : pc < listing.length := (List.getElem?_eq_some_iff.mp hl.getElem?).1
  have hlow : low + depth * p.stackBytes ≤ (m.push (.ofNat (pc + 1))).top := by omega
  obtain ⟨start, hs, m', hr, hret⟩ := hp hv
    (map_regs_congr hregs fun r hr => m.regs_push_of_ne _ (argumentRegisters_ne hr).1)
    hlow (by omega)
  rw [Machine.word_push_top, address_ofNat (by omega)] at hr
  refine ⟨m', (reaches_call hl hs).trans hr, hret.rax, ?_, ?_, ?_⟩
  · rw [hret.rsp, Machine.regs_push_rsp, Int64.sub_add_cancel]
  · rw [hret.rbp, m.regs_push_of_ne _ (by decide)]
  · refine Memory.Keeps.trans (Machine.keeps_push _ (by omega) ?_) (hret.keeps.mono ?_)
    · intro a ha
      omega
    · intro a ha
      omega

/-- Padding does not show after a call. -/
theorem reaches_callCode (hp : CallPreserved p listing fuel) (hfits : listing.length < 2 ^ 64)
    (hv : p.evalCall fuel depth callee vs = some v)
    (hregs : (argumentRegisters.take vs.length).map m.regs = vs)
    (hl : LinesAt listing pc ((callCode pending callee).map .instr))
    (hroom : low + 16 + depth * p.stackBytes ≤ m.top) :
    ∃ m', Reaches listing ⟨pc, m⟩ ⟨pc + (callCode pending callee).length, m'⟩ ∧
      Called low v m m' := by
  unfold callCode at hl ⊢
  split at hl
  · next hodd =>
    rw [if_pos hodd]
    have hlt : m.top < 2 ^ 64 := address_lt _
    have htop : (m.compute .rsp (m.regs .rsp - .ofNat 8)).top = m.top - 8 := by
      unfold Machine.top
      rw [Machine.regs_compute_self]
      exact address_sub (by unfold Machine.top at hroom; omega)
    have hpad : Reaches listing ⟨pc, m⟩ ⟨pc + 1, m.compute .rsp (m.regs .rsp - .ofNat 8)⟩ :=
      reaches_of_exec hl rfl
    have hlow : low + 8 + depth * p.stackBytes ≤
        (m.compute .rsp (m.regs .rsp - .ofNat 8)).top := by omega
    obtain ⟨m₁, hcall, hback⟩ := reaches_call_back hp hfits hv
      (map_regs_congr hregs fun r hr => m.regs_compute_of_ne _ (argumentRegisters_ne hr).1)
      hl.tail.head hlow
    have hunpad : Reaches listing ⟨pc + 1 + 1, m₁⟩
        ⟨pc + 1 + 1 + 1, m₁.compute .rsp (m₁.regs .rsp + .ofNat 8)⟩ :=
      reaches_of_exec hl.tail.tail rfl
    refine ⟨_, (hpad.trans hcall).trans hunpad, ?_, ?_, ?_, ?_⟩
    · rw [m₁.regs_compute_of_ne _ (by decide), hback.rax]
    · rw [m₁.regs_compute_self, hback.rsp, Machine.regs_compute_self, Int64.sub_add_cancel]
    · rw [m₁.regs_compute_of_ne _ (by decide), hback.rbp, m.regs_compute_of_ne _ (by decide)]
    · refine hback.keeps.mono ?_
      intro a ha
      omega
  · next heven =>
    rw [if_neg heven]
    exact reaches_call_back hp hfits hv hregs hl (by omega)

/-- The code of a call takes arguments from the stack and pushes the value of the call. -/
theorem reaches_valueCode_call (hp : CallPreserved p listing fuel)
    (hfits : listing.length < 2 ^ 64) (hv : p.evalCall fuel depth callee vs = some v)
    (hlength : vs.length ≤ maxArity) (hvs : PushesAll frame base low env' vs m m₁)
    (hcode : code = (argumentRegisters.take vs.length).map .pop ++
      (callCode pending callee ++ [.push .rax]))
    (hl : LinesAt listing pc (code.map .instr)) (hr : Ready frame base low need env m)
    (hn : 8 * vs.length ≤ need) (hroom : 16 + depth * p.stackBytes ≤ need) :
    ∃ m', Reaches listing ⟨pc, m₁⟩ ⟨pc + code.length, m'⟩ ∧
      Pushes frame base low env' v m m' := by
  subst hcode
  obtain ⟨hlpop, hlrest⟩ := hl.instrs
  obtain ⟨hlcall, hlpush⟩ := hlrest.instrs
  have hroom' := hr.room
  have hbelow := hr.below
  have habove := hr.above
  have htop := hvs.top (by omega)
  have hregs : (argumentRegisters.take vs.length).length = vs.length := by
    rw [List.length_take, length_argumentRegisters]
    omega
  have hnot : ∀ r ∈ argumentRegisters.take vs.length, r ≠ .rsp ∧ r ≠ .rbp :=
    fun r hr => argumentRegisters_ne (List.mem_of_mem_take hr)
  obtain ⟨m₂, hpops, hmem, hrsp, hargs, hother⟩ := Machine.execAll_pops
    (List.Nodup.sublist (List.take_sublist _ _) (by decide)) (fun h => (hnot _ h).1 rfl) hregs
    hvs.words (by omega)
  have hset : Settled frame base low env' m m₂ := by
    refine ⟨hvs.holds.of_keeps hr.consistent hr.byteSize_le ?_ (hmem ▸ .refl _ _), ?_, ?_⟩
    · exact hother .rbp (fun h => (hnot _ h).2 rfl) (by decide)
    · rw [hrsp, hvs.rsp, Int64.sub_add_cancel]
    · rw [hmem]
      exact hvs.keeps
  have htop₂ := hset.top
  have hlow : low + 16 + depth * p.stackBytes ≤ m₂.top := by omega
  obtain ⟨m₃, hcall, hback⟩ := reaches_callCode hp hfits hv hargs hlcall hlow
  have hset' : Settled frame base low env' m m₃ := by
    refine ⟨hset.holds.of_keeps hr.consistent hr.byteSize_le hback.rbp ?_,
      hback.rsp.trans hset.rsp, hset.keeps.trans ?_⟩
    · refine hback.keeps.mono ?_
      intro a ha
      omega
    · refine hback.keeps.mono ?_
      intro a ha
      unfold Kept at ha
      omega
  have hexec : (Instr.push .rax).exec m₃ = some (m₃.push v) := by
    rw [Instr.exec, hback.rax]
  have hpush := reaches_of_exec hlpush hexec
  refine ⟨_, ?_, hset'.push hr (by omega) v⟩
  have hall := ((reaches_of_execAll hlpop hpops).trans hcall).trans hpush
  simpa [Nat.add_assoc] using hall

end Calls

theorem exprPreserved_succ (hp : Preserved p listing fuel) (hfits : listing.length < 2 ^ 64) :
    ExprPreserved p listing (fuel + 1) := by
  intro depth frame base low pending pc env env' e v code m heval hcode hl hr
  cases e with
  | num w =>
    obtain ⟨rfl, rfl⟩ := eval_num heval
    rw [valueCode_num hcode] at hl ⊢
    exact reaches_literalCode v hl hr (by rw [Expr.stackWords]; omega)
  | var name =>
    obtain ⟨hv, rfl⟩ := eval_var heval
    obtain ⟨slot, hslot, rfl⟩ := valueCode_var hcode
    obtain ⟨hlslot, hlload⟩ := hl.instrs
    rw [Expr.stackWords] at hr
    obtain ⟨offset, m₁, ho, hreach, hpush⟩ := reaches_slotCode hslot hlslot hr (by omega)
    obtain ⟨m₂, hreach', hload⟩ := reaches_loadCode hpush hlload hr (by omega)
    obtain ⟨offset', ho', hword⟩ := hpush.holds.slot name v hv
    obtain rfl := Option.some.inj (ho.symm.trans ho')
    rw [address_slot hr ho, hword] at hload
    rw [List.length_append, ← Nat.add_assoc]
    exact ⟨m₂, hreach.trans hreach', hload⟩
  | unary op e =>
    rw [Expr.stackWords] at hr
    have hone := e.one_le_stackWords
    cases op with
    | plus => exact hp.expr (eval_plus heval) (valueCode_plus hcode) hl hr
    | minus =>
      obtain ⟨w, hw, rfl⟩ := eval_minus heval
      obtain ⟨operand, ho, rfl⟩ := valueCode_minus hcode
      obtain ⟨hlo, hln⟩ := hl.instrs
      obtain ⟨m₁, hreach, hpush⟩ := hp.expr hw ho hlo hr
      obtain ⟨hpop, hrax⟩ := hpush.pop (r := .rax) (by decide) (by decide)
      have hexec : m₁.execAll [.pop .rax, .neg .rax, .push .rax] =
          some (((m₁.pop .rax).compute .rax (-w)).push (-w)) := by
        simp only [Machine.execAll, Instr.exec, Option.bind_some, hrax, Machine.regs_compute_self]
      have hset : Settled frame base low env' m ((m₁.pop .rax).compute .rax (-w)) :=
        hpop.of_regs (by simp) (by simp) rfl
      rw [List.length_append, ← Nat.add_assoc]
      exact ⟨_, hreach.trans (reaches_of_execAll hln hexec), hset.push hr (by omega) _⟩
    | address => cases heval
    | deref => cases heval
  | binary op lhs rhs =>
    obtain ⟨a, mid, b, ha, hb, hv⟩ := eval_binary heval
    obtain ⟨left, right, hleft, hright, rfl⟩ := valueCode_binary hcode
    obtain ⟨hlboth, hlop⟩ := hl.instrs
    obtain ⟨hll, hlr⟩ := hlboth.instrs
    rw [Expr.stackWords] at hr
    obtain ⟨m₁, hreach, hpush⟩ := hp.expr ha hleft hll (hr.mono (by omega))
    obtain ⟨m₂, hreach', hpush'⟩ := hp.expr hb hright hlr (hpush.ready hr (by omega))
    rw [List.length_append, ← Nat.add_assoc] at hlop
    obtain ⟨m₃, hreach'', hpush''⟩ := reaches_binOp hpush hpush' hv rfl hlop hr (by omega)
    refine ⟨m₃, ?_, hpush''⟩
    simpa [Nat.add_assoc] using (hreach.trans hreach').trans hreach''
  | assign lhs rhs =>
    obtain ⟨name, mid, rfl, hv, rfl⟩ := eval_assign heval
    obtain ⟨target, value, htarget, hvalue, rfl⟩ := valueCode_assign hcode
    obtain ⟨hlboth, hlstore⟩ := hl.instrs
    obtain ⟨hlt, hlv⟩ := hlboth.instrs
    rw [Expr.stackWords] at hr
    obtain ⟨offset, m₁, ho, hreach, hpush⟩ :=
      reaches_slotCode (by rwa [Expr.addressCode] at htarget) hlt hr (by omega)
    obtain ⟨m₂, hreach', hpush'⟩ := hp.expr hv hvalue hlv (hpush.ready hr (by omega))
    rw [List.length_append, ← Nat.add_assoc] at hlstore
    obtain ⟨m₃, hreach'', hpush''⟩ := reaches_assign ho hpush hpush' rfl hlstore hr (by omega)
    refine ⟨m₃, ?_, hpush''⟩
    simpa [Nat.add_assoc] using (hreach.trans hreach').trans hreach''
  | call callee args =>
    obtain ⟨vs, hvs, hv⟩ := eval_call heval
    obtain ⟨harity, values, hvalues, rfl⟩ := valueCode_call hcode
    obtain ⟨hlargs, hlcall⟩ := hl.instrs
    have hlength := length_of_evalArguments hvs
    have hwords := Expr.length_le_argumentWords args
    rw [Expr.stackWords] at hr
    obtain ⟨m₁, hreach, hpush⟩ := hp.arguments hvs hvalues hlargs (hr.mono (by omega))
    obtain ⟨m₂, hreach', hpush'⟩ := reaches_valueCode_call hp.call hfits hv (by omega) hpush
      (by rw [hlength]) hlcall hr (by omega) (by omega)
    rw [List.length_append, ← Nat.add_assoc]
    exact ⟨m₂, hreach.trans hreach', hpush'⟩

theorem argumentsPreserved_succ (hp : Preserved p listing fuel) :
    ArgumentsPreserved p listing (fuel + 1) := by
  intro depth frame base low pending pc env env' args vs code m heval hcode hl hr
  cases args with
  | nil =>
    obtain ⟨rfl, rfl⟩ := evalArguments_nil heval
    rw [argumentCode_nil hcode]
    exact ⟨m, .refl _ _, .nil hr⟩
  | cons arg args =>
    obtain ⟨later, mid, w, hlater, hw, rfl⟩ := evalArguments_cons heval
    obtain ⟨rest, first, hrest, hfirst, rfl⟩ := argumentCode_cons hcode
    obtain ⟨hlrest, hlfirst⟩ := hl.instrs
    have hlength := length_of_evalArguments hlater
    have hone := arg.one_le_stackWords
    rw [Expr.argumentWords] at hr
    obtain ⟨m₁, hreach, hpush⟩ := hp.arguments hlater hrest hlrest (hr.mono (by omega))
    obtain ⟨m₂, hreach', hpush'⟩ := hp.expr hw hfirst hlfirst (hpush.ready hr (by omega))
    rw [List.length_append, ← Nat.add_assoc]
    exact ⟨m₂, hreach.trans hreach', hpush.cons hpush' hr (by omega)⟩

end MiniC
