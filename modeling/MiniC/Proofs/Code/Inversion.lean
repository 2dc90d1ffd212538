import MiniC.Code.Statement
import MiniC.Proofs.Except

/-! What the code of each construct is made of, where it has code. -/
namespace MiniC

variable {frame : Frame} {pending : Nat} {before : ConstructCounts}

section Expressions

variable {code : List Instr}

theorem slotCode_eq_ok {name : String} (h : slotCode frame name = .ok code) :
    ∃ offset, frame.offset? name = some offset ∧
      code = [.mov .rax .rbp, .subBytes .rax offset, .push .rax] := by
  unfold slotCode at h
  split at h
  · next offset ho =>
    exact ⟨offset, ho, (Except.ok.inj h).symm⟩
  · cases h

theorem valueCode_num {value : Int64}
    (h : (Expr.num value).valueCode frame pending = .ok code) : code = literalCode value := by
  rw [Expr.valueCode] at h
  exact (Except.ok.inj h).symm

theorem valueCode_var {name : String}
    (h : (Expr.var name).valueCode frame pending = .ok code) :
    ∃ slot, slotCode frame name = .ok slot ∧ code = slot ++ loadCode := by
  simpa only [Expr.valueCode, bind_eq_ok_iff, pure_eq_ok_iff] using h

theorem valueCode_plus {e : Expr} (h : (Expr.unary .plus e).valueCode frame pending = .ok code) :
    e.valueCode frame pending = .ok code := by
  rwa [Expr.valueCode] at h

theorem valueCode_minus {e : Expr} (h : (Expr.unary .minus e).valueCode frame pending = .ok code) :
    ∃ operand, e.valueCode frame pending = .ok operand ∧
      code = operand ++ [.pop .rax, .neg .rax, .push .rax] := by
  simpa only [Expr.valueCode, bind_eq_ok_iff, pure_eq_ok_iff] using h

theorem valueCode_address {e : Expr}
    (h : (Expr.unary .address e).valueCode frame pending = .ok code) :
    e.addressCode frame pending .notAddressable = .ok code := by
  rwa [Expr.valueCode] at h

theorem valueCode_deref {e : Expr} (h : (Expr.unary .deref e).valueCode frame pending = .ok code) :
    ∃ pointer, e.valueCode frame pending = .ok pointer ∧ code = pointer ++ loadCode := by
  simpa only [Expr.valueCode, bind_eq_ok_iff, pure_eq_ok_iff] using h

theorem valueCode_binary {op : BinOp} {lhs rhs : Expr}
    (h : (Expr.binary op lhs rhs).valueCode frame pending = .ok code) :
    ∃ left right, lhs.valueCode frame pending = .ok left ∧
      rhs.valueCode frame (pending + 1) = .ok right ∧
      code = left ++ right ++ ([.pop .rdi, .pop .rax] ++ op.code ++ [.push .rax]) := by
  simp only [Expr.valueCode, bind_eq_ok_iff, pure_eq_ok_iff] at h
  obtain ⟨left, hl, right, hr, rfl⟩ := h
  exact ⟨left, right, hl, hr, by simp⟩

theorem valueCode_assign {lhs rhs : Expr}
    (h : (Expr.assign lhs rhs).valueCode frame pending = .ok code) :
    ∃ target value, lhs.addressCode frame pending .notAssignable = .ok target ∧
      rhs.valueCode frame (pending + 1) = .ok value ∧
      code = target ++ value ++ [.pop .rdi, .pop .rax, .store .rax .rdi, .push .rdi] := by
  simp only [Expr.valueCode, bind_eq_ok_iff, pure_eq_ok_iff] at h
  obtain ⟨target, ht, value, hv, rfl⟩ := h
  exact ⟨target, value, ht, hv, rfl⟩

theorem valueCode_call {callee : String} {args : List Expr}
    (h : (Expr.call callee args).valueCode frame pending = .ok code) :
    args.length ≤ maxArity ∧ ∃ values, Expr.argumentCode frame pending args = .ok values ∧
      code = values ++ ((argumentRegisters.take args.length).map .pop ++
        (callCode pending callee ++ [.push .rax])) := by
  rw [Expr.valueCode] at h
  split at h
  · next hlen =>
    simp only [bind_eq_ok_iff, pure_eq_ok_iff] at h
    obtain ⟨values, hv, rfl⟩ := h
    exact ⟨hlen, values, hv, by simp⟩
  · cases h

/-- Only variables and dereferenced pointers have an address. -/
theorem addressCode_eq_ok {refuse : Expr → SemanticError} {e : Expr}
    (h : e.addressCode frame pending refuse = .ok code) :
    (∃ name, e = .var name ∧ slotCode frame name = .ok code) ∨
      ∃ pointer, e = .unary .deref pointer ∧ pointer.valueCode frame pending = .ok code := by
  unfold Expr.addressCode at h
  split at h
  · exact .inl ⟨_, rfl, h⟩
  · exact .inr ⟨_, rfl, h⟩
  · cases h

theorem argumentCode_nil (h : Expr.argumentCode frame pending [] = .ok code) : code = [] := by
  rw [Expr.argumentCode] at h
  exact (Except.ok.inj h).symm

theorem argumentCode_cons {arg : Expr} {args : List Expr}
    (h : Expr.argumentCode frame pending (arg :: args) = .ok code) :
    ∃ later first, Expr.argumentCode frame pending args = .ok later ∧
      arg.valueCode frame (pending + args.length) = .ok first ∧ code = later ++ first := by
  simp only [Expr.argumentCode, bind_eq_ok_iff, pure_eq_ok_iff] at h
  obtain ⟨later, hl, first, hf, rfl⟩ := h
  exact ⟨later, first, hl, hf, rfl⟩

end Expressions

section Statements

variable {code : List Line}

theorem evaluateCode_eq_ok {e : Expr} (h : evaluateCode frame e = .ok code) :
    ∃ value, e.valueCode frame 0 = .ok value ∧
      code = value.map .instr ++ [.instr (.pop .rax)] := by
  simp only [evaluateCode, bind_eq_ok_iff, pure_eq_ok_iff] at h
  obtain ⟨value, hv, rfl⟩ := h
  exact ⟨value, hv, by simp⟩

theorem conditionCode_eq_ok {cond : Expr} {target : Label}
    (h : conditionCode frame cond target = .ok code) :
    ∃ value, evaluateCode frame cond = .ok value ∧
      code = value ++ [.instr (.cmpZero .rax), .instr (.je target)] := by
  simpa only [conditionCode, bind_eq_ok_iff, pure_eq_ok_iff] using h

theorem code_expr {e : Expr} (h : (Stmt.expr e).code frame before = .ok code) :
    evaluateCode frame e = .ok code := by
  rwa [Stmt.code] at h

theorem code_ret {e : Expr} (h : (Stmt.ret e).code frame before = .ok code) :
    ∃ value, evaluateCode frame e = .ok value ∧ code = value ++ epilogue := by
  simpa only [Stmt.code, bind_eq_ok_iff, pure_eq_ok_iff] using h

theorem code_ifThen {cond : Expr} {body : Stmt}
    (h : (Stmt.ifThen cond body).code frame before = .ok code) :
    ∃ test inner, conditionCode frame cond (before.label .ifEnd) = .ok test ∧
      body.code frame (before + .one .ifThen) = .ok inner ∧
      code = test ++ (inner ++ [.label (before.label .ifEnd)]) := by
  simp only [Stmt.code, bind_eq_ok_iff, pure_eq_ok_iff] at h
  obtain ⟨test, ht, inner, hi, rfl⟩ := h
  exact ⟨test, inner, ht, hi, by simp⟩

theorem code_ifElse {cond : Expr} {body otherwise : Stmt}
    (h : (Stmt.ifElse cond body otherwise).code frame before = .ok code) :
    ∃ test inner other, conditionCode frame cond (before.label .elseBegin) = .ok test ∧
      body.code frame (before + .one .ifElse) = .ok inner ∧
      otherwise.code frame (before + .one .ifElse + body.counts) = .ok other ∧
      code = test ++ (inner ++ (.instr (.jmp (before.label .elseEnd)) ::
        .label (before.label .elseBegin) :: (other ++ [.label (before.label .elseEnd)]))) := by
  simp only [Stmt.code, bind_eq_ok_iff, pure_eq_ok_iff] at h
  obtain ⟨test, ht, inner, hi, other, ho, rfl⟩ := h
  exact ⟨test, inner, other, ht, hi, ho, by simp⟩

/-- The code of what a loop does after its body. -/
def stepCode (frame : Frame) : Option Expr → Except SemanticError (List Line)
  | none => .ok []
  | some e => evaluateCode frame e

/-- The lines of a loop from its first label to its last. -/
def loopLines (beginning ending : Label) (test inner after : List Line) : List Line :=
  .label beginning :: (test ++ (inner ++ (after ++ [.instr (.jmp beginning), .label ending])))

theorem code_whileLoop {cond : Expr} {body : Stmt}
    (h : (Stmt.whileLoop cond body).code frame before = .ok code) :
    ∃ test inner, conditionCode frame cond (before.label .whileEnd) = .ok test ∧
      body.code frame (before + .one .whileLoop) = .ok inner ∧
      code = loopLines (before.label .whileBegin) (before.label .whileEnd) test inner [] := by
  simp only [Stmt.code, bind_eq_ok_iff, pure_eq_ok_iff] at h
  obtain ⟨test, ht, inner, hi, rfl⟩ := h
  exact ⟨test, inner, ht, hi, by simp [loopLines]⟩

theorem code_forLoop {init cond step : Expr} {body : Stmt}
    (h : (Stmt.forLoop init cond step body).code frame before = .ok code) :
    ∃ start test inner after, evaluateCode frame init = .ok start ∧
      conditionCode frame cond (before.label .forEnd) = .ok test ∧
      body.code frame (before + .one .forLoop) = .ok inner ∧
      evaluateCode frame step = .ok after ∧
      code = start ++
        loopLines (before.label .forBegin) (before.label .forEnd) test inner after := by
  simp only [Stmt.code, bind_eq_ok_iff, pure_eq_ok_iff] at h
  obtain ⟨start, hs, test, ht, inner, hi, after, ha, rfl⟩ := h
  exact ⟨start, test, inner, after, hs, ht, hi, ha, by simp [loopLines]⟩

theorem code_block {body : List Stmt} (h : (Stmt.block body).code frame before = .ok code) :
    Stmt.codeOfAll frame before body = .ok code := by
  rwa [Stmt.code] at h

theorem codeOfAll_nil (h : Stmt.codeOfAll frame before [] = .ok code) : code = [] := by
  rw [Stmt.codeOfAll] at h
  exact (Except.ok.inj h).symm

theorem codeOfAll_cons {s : Stmt} {ss : List Stmt}
    (h : Stmt.codeOfAll frame before (s :: ss) = .ok code) :
    ∃ first rest, s.code frame before = .ok first ∧
      Stmt.codeOfAll frame (before + s.counts) ss = .ok rest ∧ code = first ++ rest := by
  simp only [Stmt.codeOfAll, bind_eq_ok_iff, pure_eq_ok_iff] at h
  obtain ⟨first, hf, rest, hr, rfl⟩ := h
  exact ⟨first, rest, hf, hr, rfl⟩

theorem spillCode_nil (h : spillCode frame [] = .ok code) : code = [] := by
  rw [spillCode] at h
  exact (Except.ok.inj h).symm

theorem spillCode_cons {param : String} {reg : Reg} {rest : List (String × Reg)}
    (h : spillCode frame ((param, reg) :: rest) = .ok code) :
    ∃ offset later, frame.offset? param = some offset ∧ spillCode frame rest = .ok later ∧
      code = .instr (.spill offset reg) :: later := by
  rw [spillCode] at h
  split at h
  · next offset ho =>
    simp only [bind_eq_ok_iff, pure_eq_ok_iff] at h
    obtain ⟨later, hl, rfl⟩ := h
    exact ⟨offset, later, ho, hl, rfl⟩
  · cases h

theorem code_function {f : Function} (h : f.code before = .ok code) :
    f.params.length ≤ maxArity ∧ ∃ spills body,
      spillCode f.frame (f.params.zip argumentRegisters) = .ok spills ∧
      Stmt.codeOfAll f.frame before f.body = .ok body ∧
      code = .entry f.name :: (prologue f.frame ++ (spills ++ (body ++ epilogue))) := by
  rw [Function.code] at h
  split at h
  · next hlen =>
    simp only [bind_eq_ok_iff, pure_eq_ok_iff] at h
    obtain ⟨spills, hs, body, hb, rfl⟩ := h
    exact ⟨hlen, spills, body, hs, hb, by simp⟩
  · cases h

theorem codeAfter_nil (h : Program.codeAfter before [] = .ok code) : code = [] := by
  rw [Program.codeAfter] at h
  exact (Except.ok.inj h).symm

theorem codeAfter_cons {f : Function} {fs : List Function}
    (h : Program.codeAfter before (f :: fs) = .ok code) :
    ∃ first rest, f.code before = .ok first ∧
      Program.codeAfter (before + f.counts) fs = .ok rest ∧ code = first ++ rest := by
  simp only [Program.codeAfter, bind_eq_ok_iff, pure_eq_ok_iff] at h
  obtain ⟨first, hf, rest, hr, rfl⟩ := h
  exact ⟨first, rest, hf, hr, rfl⟩

end Statements

end MiniC
