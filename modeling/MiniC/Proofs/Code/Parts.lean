import Mathlib
import MiniC.Proofs.Code.Inversion

/-! The parts of a program that have code of their own, and the pieces that their code is made of:
the code of smaller parts, with fixed lines between them. -/
namespace MiniC

/-- What has code of its own. Parts of expressions know how many words are pending before them. -/
inductive Part where
  | value (pending : Nat) (e : Expr)
  | address (pending : Nat) (refuse : Expr → SemanticError) (e : Expr)
  | arguments (pending : Nat) (args : List Expr)
  | call (pending : Nat) (callee : String)
  | statement (before : ConstructCounts) (s : Stmt)
  | statements (before : ConstructCounts) (ss : List Stmt)
  | spills (bindings : List (String × Reg))

inductive Piece where
  | lines (code : List Line)
  | part (p : Part)

def Piece.instrs (is : List Instr) : Piece :=
  .lines (is.map .instr)

def Part.code (frame : Frame) : Part → Except SemanticError (List Line)
  | value pending e => (e.valueCode frame pending).map (List.map .instr)
  | address pending refuse e => (e.addressCode frame pending refuse).map (List.map .instr)
  | arguments pending args => (Expr.argumentCode frame pending args).map (List.map .instr)
  | call pending callee => .ok ((callCode pending callee).map .instr)
  | statement before s => s.code frame before
  | statements before ss => Stmt.codeOfAll frame before ss
  | spills bindings => spillCode frame bindings

/-- The code of consecutive pieces. -/
def Piece.codeOfAll (frame : Frame) : List Piece → Except SemanticError (List Line)
  | [] => .ok []
  | .lines code :: pieces => (codeOfAll frame pieces).map (code ++ ·)
  | .part p :: pieces => do return (← p.code frame) ++ (← codeOfAll frame pieces)

/-- The pieces that evaluate an expression into `rax`. -/
def evaluationPieces (e : Expr) : List Piece :=
  [.part (.value 0 e), .instrs [.pop .rax]]

/-- The pieces that evaluate a condition and jump if it is zero. -/
def conditionPieces (cond : Expr) (target : Label) : List Piece :=
  evaluationPieces cond ++ [.instrs [.cmpZero .rax, .je target]]

def Expr.pieces (pending : Nat) : Expr → List Piece
  | .num value => [.instrs (literalCode value)]
  | .var name => [.part (.address pending .notAddressable (.var name)), .instrs loadCode]
  | .unary .plus e => [.part (.value pending e)]
  | .unary .minus e => [.part (.value pending e), .instrs [.pop .rax, .neg .rax, .push .rax]]
  | .unary .address e => [.part (.address pending .notAddressable e)]
  | .unary .deref e => [.part (.value pending e), .instrs loadCode]
  | .binary op lhs rhs =>
    [.part (.value pending lhs), .part (.value (pending + 1) rhs),
      .instrs ([.pop .rdi, .pop .rax] ++ op.code ++ [.push .rax])]
  | .assign lhs rhs =>
    [.part (.address pending .notAssignable lhs), .part (.value (pending + 1) rhs),
      .instrs [.pop .rdi, .pop .rax, .store .rax .rdi, .push .rdi]]
  | .call callee args =>
    [.part (.arguments pending args), .instrs ((argumentRegisters.take args.length).map .pop),
      .part (.call pending callee), .instrs [.push .rax]]

def Stmt.pieces (before : ConstructCounts) : Stmt → List Piece
  | .expr e => evaluationPieces e
  | .ret e => evaluationPieces e ++ [.lines epilogue]
  | .ifThen cond body =>
    conditionPieces cond (before.label .ifEnd) ++
      [.part (.statement (before + .one .ifThen) body), .lines [.label (before.label .ifEnd)]]
  | .ifElse cond body otherwise =>
    conditionPieces cond (before.label .elseBegin) ++
      [.part (.statement (before + .one .ifElse) body),
        .lines [.instr (.jmp (before.label .elseEnd)), .label (before.label .elseBegin)],
        .part (.statement (before + .one .ifElse + body.counts) otherwise),
        .lines [.label (before.label .elseEnd)]]
  | .whileLoop cond body =>
    .lines [.label (before.label .whileBegin)] ::
      (conditionPieces cond (before.label .whileEnd) ++
        [.part (.statement (before + .one .whileLoop) body),
          .lines [.instr (.jmp (before.label .whileBegin)), .label (before.label .whileEnd)]])
  | .forLoop init cond step body =>
    evaluationPieces init ++ .lines [.label (before.label .forBegin)] ::
      (conditionPieces cond (before.label .forEnd) ++
        .part (.statement (before + .one .forLoop) body) ::
          (evaluationPieces step ++
            [.lines [.instr (.jmp (before.label .forBegin)), .label (before.label .forEnd)]]))
  | .block body => [.part (.statements before body)]

/-- Fixed lines that may be missing because of an error. -/
def Piece.ofCode : Except SemanticError (List Line) → List Piece
  | .ok code => [.lines code]
  | .error _ => []

/-- The pieces of a part in order. -/
def Part.pieces (frame : Frame) : Part → List Piece
  | value pending e => e.pieces pending
  | address pending _ (.unary .deref e) => [.part (.value pending e)]
  | address pending refuse e => Piece.ofCode ((address pending refuse e).code frame)
  | arguments _ [] => []
  | arguments pending (arg :: args) =>
    [.part (.arguments pending args), .part (.value (pending + args.length) arg)]
  | call pending callee => [.instrs (callCode pending callee)]
  | statement before s => s.pieces before
  | statements _ [] => []
  | statements before (s :: ss) =>
    [.part (.statement before s), .part (.statements (before + s.counts) ss)]
  | spills bindings => Piece.ofCode (spillCode frame bindings)

/-- The pieces of a function. -/
def Function.pieces (before : ConstructCounts) (f : Function) : List Piece :=
  [.lines (.entry f.name :: prologue f.frame), .part (.spills (f.params.zip argumentRegisters)),
    .part (.statements before f.body), .lines epilogue]

variable {frame : Frame} {pending : Nat} {before : ConstructCounts} {code : List Line}
  {ps qs : List Piece}


@[simp] theorem codeOfAll_nil_iff : Piece.codeOfAll frame [] = .ok code ↔ code = [] := by
  simp [Piece.codeOfAll, eq_comm]

@[simp] theorem codeOfAll_lines_iff {c : List Line} :
    Piece.codeOfAll frame (.lines c :: ps) = .ok code ↔
      ∃ b, Piece.codeOfAll frame ps = .ok b ∧ code = c ++ b := by
  rw [Piece.codeOfAll, map_eq_ok_iff]
  simp only [eq_comm]

@[simp] theorem codeOfAll_instrs_iff {is : List Instr} :
    Piece.codeOfAll frame (.instrs is :: ps) = .ok code ↔
      ∃ b, Piece.codeOfAll frame ps = .ok b ∧ code = is.map .instr ++ b :=
  codeOfAll_lines_iff

@[simp] theorem codeOfAll_part_iff {p : Part} :
    Piece.codeOfAll frame (.part p :: ps) = .ok code ↔
      ∃ a, p.code frame = .ok a ∧ ∃ b, Piece.codeOfAll frame ps = .ok b ∧ code = a ++ b := by
  simp only [Piece.codeOfAll, bind_eq_ok_iff, pure_eq_ok_iff]

theorem codeOfAll_append_iff :
    Piece.codeOfAll frame (ps ++ qs) = .ok code ↔
      ∃ a, Piece.codeOfAll frame ps = .ok a ∧ ∃ b, Piece.codeOfAll frame qs = .ok b ∧
        code = a ++ b := by
  induction ps generalizing code with
  | nil => simp
  | cons piece ps ih =>
    cases piece with
    | lines c =>
      simp only [List.cons_append, codeOfAll_lines_iff, ih]
      constructor
      · rintro ⟨_, ⟨a, ha, b, hb, rfl⟩, rfl⟩
        exact ⟨c ++ a, ⟨a, ha, rfl⟩, b, hb, by simp⟩
      · rintro ⟨_, ⟨a, ha, rfl⟩, b, hb, rfl⟩
        exact ⟨a ++ b, ⟨a, ha, b, hb, rfl⟩, by simp⟩
    | part p =>
      simp only [List.cons_append, codeOfAll_part_iff, ih]
      constructor
      · rintro ⟨c, hc, _, ⟨a, ha, b, hb, rfl⟩, rfl⟩
        exact ⟨c ++ a, ⟨c, hc, a, ha, rfl⟩, b, hb, by simp⟩
      · rintro ⟨_, ⟨c, hc, a, ha, rfl⟩, b, hb, rfl⟩
        exact ⟨c, hc, a ++ b, ⟨a, ha, b, hb, rfl⟩, by simp⟩

theorem codeOfAll_ofCode {c : Except SemanticError (List Line)} (h : c = .ok code) :
    Piece.codeOfAll frame (Piece.ofCode c) = .ok code := by
  simp [h, Piece.ofCode]

theorem codeOfAll_evaluation {e : Expr} (h : evaluateCode frame e = .ok code) :
    Piece.codeOfAll frame (evaluationPieces e) = .ok code := by
  obtain ⟨is, his, rfl⟩ := evaluateCode_eq_ok h
  simp [evaluationPieces, Part.code, map_eq_ok_iff, his]

theorem codeOfAll_condition {cond : Expr} {target : Label}
    (h : conditionCode frame cond target = .ok code) :
    Piece.codeOfAll frame (conditionPieces cond target) = .ok code := by
  obtain ⟨value, hv, rfl⟩ := conditionCode_eq_ok h
  have hvalue := codeOfAll_evaluation hv
  simp [conditionPieces, codeOfAll_append_iff, hvalue]

/-- The code of an expression is that of its pieces in a row. -/
theorem codeOfAll_exprPieces {e : Expr} {is : List Instr}
    (h : e.valueCode frame pending = .ok is) :
    Piece.codeOfAll frame (e.pieces pending) = .ok (is.map .instr) := by
  match e with
  | .num value =>
    obtain rfl := valueCode_num h
    simp [Expr.pieces]
  | .var name =>
    obtain ⟨slot, hs, rfl⟩ := valueCode_var h
    simp [Expr.pieces, Part.code, Expr.addressCode, map_eq_ok_iff, hs]
  | .unary .plus e =>
    have hoperand := valueCode_plus h
    simp [Expr.pieces, Part.code, map_eq_ok_iff, hoperand]
  | .unary .minus e =>
    obtain ⟨operand, ho, rfl⟩ := valueCode_minus h
    simp [Expr.pieces, Part.code, map_eq_ok_iff, ho]
  | .unary .address e =>
    have haddress := valueCode_address h
    simp [Expr.pieces, Part.code, map_eq_ok_iff, haddress]
  | .unary .deref e =>
    obtain ⟨pointer, hp, rfl⟩ := valueCode_deref h
    simp [Expr.pieces, Part.code, map_eq_ok_iff, hp]
  | .binary op lhs rhs =>
    obtain ⟨left, right, hl, hr, rfl⟩ := valueCode_binary h
    simp [Expr.pieces, Part.code, map_eq_ok_iff, hl, hr]
  | .assign lhs rhs =>
    obtain ⟨target, value, ht, hv, rfl⟩ := valueCode_assign h
    simp [Expr.pieces, Part.code, map_eq_ok_iff, ht, hv]
  | .call callee args =>
    obtain ⟨-, values, hv, rfl⟩ := valueCode_call h
    simp [Expr.pieces, Part.code, map_eq_ok_iff, hv]

theorem codeOfAll_stmtPieces {s : Stmt} (h : s.code frame before = .ok code) :
    Piece.codeOfAll frame (s.pieces before) = .ok code := by
  cases s with
  | expr e => exact codeOfAll_evaluation (code_expr h)
  | ret e =>
    obtain ⟨value, hv, rfl⟩ := code_ret h
    have hvalue := codeOfAll_evaluation hv
    simp [Stmt.pieces, codeOfAll_append_iff, hvalue]
  | ifThen cond body =>
    obtain ⟨test, inner, ht, hi, rfl⟩ := code_ifThen h
    have htest := codeOfAll_condition ht
    simp [Stmt.pieces, codeOfAll_append_iff, Part.code, htest, hi]
  | ifElse cond body otherwise =>
    obtain ⟨test, inner, other, ht, hi, ho, rfl⟩ := code_ifElse h
    have htest := codeOfAll_condition ht
    simp [Stmt.pieces, codeOfAll_append_iff, Part.code, htest, hi, ho]
  | whileLoop cond body =>
    obtain ⟨test, inner, ht, hi, rfl⟩ := code_whileLoop h
    have htest := codeOfAll_condition ht
    simp [Stmt.pieces, codeOfAll_append_iff, Part.code, htest, hi, loopLines]
  | forLoop init cond step body =>
    obtain ⟨start, test, inner, after, hs, ht, hi, ha, rfl⟩ := code_forLoop h
    have hstart := codeOfAll_evaluation hs
    have htest := codeOfAll_condition ht
    have hafter := codeOfAll_evaluation ha
    simp [Stmt.pieces, codeOfAll_append_iff, Part.code, hstart, htest, hi, hafter, loopLines]
  | block body =>
    have hbody := code_block h
    simp [Stmt.pieces, Part.code, hbody]

/-- The code of a part is that of its pieces in a row. -/
theorem codeOfAll_pieces {p : Part} (h : p.code frame = .ok code) :
    Piece.codeOfAll frame (p.pieces frame) = .ok code := by
  match p with
  | .value pending e =>
    obtain ⟨is, his, rfl⟩ := map_eq_ok_iff.mp h
    exact codeOfAll_exprPieces his
  | .address pending refuse e =>
    obtain ⟨is, his, rfl⟩ := map_eq_ok_iff.mp h
    rcases addressCode_eq_ok his with ⟨name, rfl, -⟩ | ⟨pointer, rfl, hp⟩
    · exact codeOfAll_ofCode h
    · simp [Part.pieces, Part.code, map_eq_ok_iff, hp]
  | .arguments pending [] =>
    rw [Part.code] at h
    obtain ⟨is, his, rfl⟩ := map_eq_ok_iff.mp h
    obtain rfl := argumentCode_nil his
    simp [Part.pieces]
  | .arguments pending (arg :: args) =>
    obtain ⟨is, his, rfl⟩ := map_eq_ok_iff.mp h
    obtain ⟨later, first, hl, hf, rfl⟩ := argumentCode_cons his
    simp [Part.pieces, Part.code, map_eq_ok_iff, hl, hf]
  | .call pending callee =>
    rw [Part.code, Except.ok.injEq] at h
    simp [Part.pieces, h]
  | .statement before s => exact codeOfAll_stmtPieces h
  | .statements before [] =>
    rw [Part.code] at h
    obtain rfl := codeOfAll_nil h
    simp [Part.pieces]
  | .statements before (s :: ss) =>
    obtain ⟨first, rest, hf, hr, rfl⟩ := codeOfAll_cons h
    simp [Part.pieces, Part.code, hf, hr]
  | .spills bindings => exact codeOfAll_ofCode h

theorem codeOfAll_functionPieces {f : Function} (h : f.code before = .ok code) :
    Piece.codeOfAll f.frame (f.pieces before) = .ok code := by
  obtain ⟨-, spills, body, hs, hb, rfl⟩ := code_function h
  simp [Function.pieces, Part.code, hs, hb]

noncomputable def Part.size : Part → Nat
  | value _ e => 2 * sizeOf e + 1
  | address _ _ e => 2 * sizeOf e
  | arguments _ args => 2 * sizeOf args
  | statement _ s => 2 * sizeOf s
  | statements _ ss => 2 * sizeOf ss
  | call _ _ | spills _ => 0

theorem not_mem_ofCode {c : Except SemanticError (List Line)} {p : Part} :
    .part p ∉ Piece.ofCode c := by
  cases c <;> simp [Piece.ofCode]

theorem size_lt_of_mem_exprPieces {e : Expr} {q : Part} (h : .part q ∈ e.pieces pending) :
    q.size < 2 * sizeOf e + 1 := by
  unfold Expr.pieces at h
  split at h
  all_goals
    simp only [Piece.instrs, List.mem_cons, List.not_mem_nil, or_false, false_or, reduceCtorEq,
      Piece.part.injEq] at h
  all_goals
    rcases h with rfl | rfl <;> simp [Part.size]
  all_goals omega

theorem size_lt_of_mem_stmtPieces {s : Stmt} {q : Part} (h : .part q ∈ s.pieces before) :
    q.size < 2 * sizeOf s := by
  cases s
  all_goals
    simp only [Stmt.pieces, evaluationPieces, conditionPieces, Piece.instrs, List.mem_append,
      List.mem_cons, List.not_mem_nil, or_false, false_or, reduceCtorEq, Piece.part.injEq] at h
    rcases h with rfl | rfl | rfl | rfl <;> simp [Part.size] <;> omega

/-- The pieces of a part are smaller than the part. -/
theorem size_lt_of_mem_pieces {p q : Part} (h : .part q ∈ p.pieces frame) : q.size < p.size := by
  unfold Part.pieces at h
  split at h
  case h_1 => exact size_lt_of_mem_exprPieces h
  case h_7 => exact size_lt_of_mem_stmtPieces h
  case h_3 => exact absurd h not_mem_ofCode
  case h_10 => exact absurd h not_mem_ofCode
  all_goals
    simp only [Piece.instrs, List.mem_cons, List.not_mem_nil, or_false, reduceCtorEq,
      Piece.part.injEq] at h
  case h_2 =>
    subst h
    simp [Part.size]
    omega
  all_goals
    rcases h with rfl | rfl <;> simp only [Part.size, List.cons.sizeOf_spec] <;> omega

theorem Part.pieces_induction (frame : Frame) {motive : Part → Prop}
    (h : ∀ p, (∀ q, .part q ∈ p.pieces frame → motive q) → motive p) (p : Part) : motive p :=
  h p fun q hq =>
    have := size_lt_of_mem_pieces hq
    pieces_induction frame h q
termination_by p.size

/-- What holds of all fixed lines, and of what is put together from them, holds of the code. -/
theorem Part.forall_code (Q : Part → Prop) {P : List Line → Prop} (hnil : P [])
    (happend : ∀ a b, P a → P b → P (a ++ b))
    (hlines : ∀ p, Q p → ∀ c, .lines c ∈ p.pieces frame → P c)
    (hparts : ∀ p, Q p → ∀ q, .part q ∈ p.pieces frame → Q q) {p : Part} (hp : Q p)
    (h : p.code frame = .ok code) : P code := by
  induction p using Part.pieces_induction frame generalizing code with
  | h p ih =>
    have hall : ∀ (ps : List Piece) (code : List Line), (∀ piece ∈ ps, piece ∈ p.pieces frame) →
        Piece.codeOfAll frame ps = .ok code → P code := by
      intro ps
      induction ps with
      | nil =>
        intro code _ hcode
        rwa [codeOfAll_nil_iff.mp hcode]
      | cons piece ps ihps =>
        intro code hmem hcode
        obtain ⟨hpiece, hps⟩ := List.forall_mem_cons.mp hmem
        cases piece with
        | lines c =>
          obtain ⟨b, hb, rfl⟩ := codeOfAll_lines_iff.mp hcode
          exact happend c b (hlines p hp c hpiece) (ihps b hps hb)
        | part q =>
          obtain ⟨a, ha, b, hb, rfl⟩ := codeOfAll_part_iff.mp hcode
          exact happend a b (ih q hpiece (hparts p hp q hpiece) ha) (ihps b hps hb)
    exact hall _ code (fun _ hpiece => hpiece) (codeOfAll_pieces h)

/-- The part `p` begins `d` lines into the code of some pieces. -/
inductive Piece.Begins (frame : Frame) : List Piece → Nat → Part → Prop where
  | here {p pieces} : Piece.Begins frame (.part p :: pieces) 0 p
  | inside {p q d pieces} : Piece.Begins frame (p.pieces frame) d q →
      Piece.Begins frame (.part p :: pieces) d q
  | afterLines {c q d pieces} : Piece.Begins frame pieces d q →
      Piece.Begins frame (.lines c :: pieces) (c.length + d) q
  | afterPart {p c q d pieces} : p.code frame = .ok c → Piece.Begins frame pieces d q →
      Piece.Begins frame (.part p :: pieces) (c.length + d) q

end MiniC
