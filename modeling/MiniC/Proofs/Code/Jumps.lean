import MiniC.Proofs.Code.Labels
import MiniC.Proofs.Code.Parts

/-! Jumps lead to labels of the same function, and only epilogues restore the frame pointer. -/
namespace MiniC

/-- The label that a line may jump to. -/
def Line.target? : Line → Option Label
  | instr (.jmp l) | instr (.je l) => some l
  | _ => none

def targetsOf (code : List Line) : List Label :=
  code.filterMap Line.target?

variable {frame : Frame} {pending : Nat} {before : ConstructCounts} {code a b : List Line}

@[simp] theorem targetsOf_append : targetsOf (a ++ b) = targetsOf a ++ targetsOf b :=
  List.filterMap_append

@[simp] theorem targetsOf_nil : targetsOf [] = [] :=
  rfl

@[simp] theorem targetsOf_label (l : Label) : targetsOf (.label l :: a) = targetsOf a :=
  rfl

@[simp] theorem targetsOf_entry (f : String) : targetsOf (.entry f :: a) = targetsOf a :=
  rfl

@[simp] theorem targetsOf_jmp (l : Label) :
    targetsOf (.instr (.jmp l) :: a) = l :: targetsOf a :=
  rfl

theorem targetsOf_epilogue : targetsOf epilogue = [] :=
  rfl

/-- Instructions that go nowhere else and leave the frame pointer alone. -/
def Instr.isStraight : Instr → Bool
  | jmp _ | je _ | ret | pop .rbp => false
  | _ => true

/-- Lines that the next line follows. -/
def Straight (code : List Line) : Prop :=
  ∀ line ∈ code, ∃ i, line = .instr i ∧ i.isStraight

theorem straight_append (ha : Straight a) (hb : Straight b) : Straight (a ++ b) :=
  List.forall_mem_append.mpr ⟨ha, hb⟩

theorem straight_map {is : List Instr} (h : ∀ i ∈ is, i.isStraight) : Straight (is.map .instr) := by
  intro line hline
  obtain ⟨i, hi, rfl⟩ := List.mem_map.mp hline
  exact ⟨i, rfl, h i hi⟩

theorem Straight.targetsOf (h : Straight code) : targetsOf code = [] := by
  rw [MiniC.targetsOf, List.filterMap_eq_nil_iff]
  intro line hline
  obtain ⟨i, rfl, hi⟩ := h line hline
  cases i <;> first | rfl | cases hi

theorem isStraight_of_mem_literalCode (value : Int64) :
    ∀ i ∈ literalCode value, i.isStraight := by
  unfold literalCode
  split <;> simp [Instr.isStraight]

theorem isStraight_of_mem_opCode (op : BinOp) : ∀ i ∈ op.code, i.isStraight := by
  cases op <;> decide

theorem isStraight_of_mem_callCode (callee : String) :
    ∀ i ∈ callCode pending callee, i.isStraight := by
  unfold callCode
  split <;> simp [Instr.isStraight]

theorem isStraight_of_mem_pops (count : Nat) :
    ∀ i ∈ (argumentRegisters.take count).map Instr.pop, i.isStraight := by
  have hregs : ∀ r ∈ argumentRegisters, (Instr.pop r).isStraight := by decide
  intro i hi
  obtain ⟨r, hr, rfl⟩ := List.mem_map.mp hi
  exact hregs r (List.mem_of_mem_take hr)

theorem straight_of_mem_exprPieces {e : Expr} (h : .lines code ∈ e.pieces pending) :
    Straight code := by
  unfold Expr.pieces at h
  split at h
  all_goals
    simp only [Piece.instrs, List.mem_cons, List.not_mem_nil, or_false, false_or, reduceCtorEq,
      Piece.lines.injEq] at h
  case h_1 value =>
    subst h
    exact straight_map (isStraight_of_mem_literalCode value)
  case h_7 op _ _ =>
    subst h
    have hop := isStraight_of_mem_opCode op
    refine straight_map fun i hi => ?_
    simp at hi
    rcases hi with rfl | rfl | hi | rfl
    · rfl
    · rfl
    · exact hop i hi
    · rfl
  case h_9 callee args =>
    rcases h with rfl | rfl
    · exact straight_map (isStraight_of_mem_pops args.length)
    · exact straight_map (by decide)
  all_goals
    subst h
    exact straight_map (by decide)

/-- Parts of expressions. -/
def Part.IsExpression : Part → Prop
  | value _ _ | address _ _ _ | arguments _ _ | call _ _ => True
  | statement _ _ | statements _ _ | spills _ => False

theorem lines_mem_ofCode {c : Except SemanticError (List Line)}
    (h : .lines code ∈ Piece.ofCode c) : c = .ok code := by
  cases c with
  | ok c =>
    obtain rfl : code = c := by simpa [Piece.ofCode] using h
    rfl
  | error e => simp [Piece.ofCode] at h

theorem straight_of_mem_pieces {p : Part} (hp : p.IsExpression)
    (h : .lines code ∈ p.pieces frame) : Straight code := by
  unfold Part.pieces at h
  split at h
  case h_1 => exact straight_of_mem_exprPieces h
  case h_3 hne =>
    obtain ⟨is, his, rfl⟩ := map_eq_ok_iff.mp (lines_mem_ofCode h)
    rcases addressCode_eq_ok his with ⟨name, rfl, hslot⟩ | ⟨pointer, rfl, -⟩
    · obtain ⟨offset, -, rfl⟩ := slotCode_eq_ok hslot
      exact straight_map (by simp [Instr.isStraight])
    · exact absurd rfl (hne pointer)
  case h_6 callee =>
    obtain rfl : code = _ := by simpa [Piece.instrs] using h
    exact straight_map (isStraight_of_mem_callCode callee)
  case h_7 => cases hp
  case h_10 => cases hp
  all_goals simp at h

theorem isExpression_of_mem_pieces {p q : Part} (hp : p.IsExpression)
    (h : .part q ∈ p.pieces frame) : q.IsExpression := by
  unfold Part.pieces at h
  split at h
  case h_1 e =>
    unfold Expr.pieces at h
    split at h
    all_goals
      simp only [Piece.instrs, List.mem_cons, List.not_mem_nil, or_false, false_or, reduceCtorEq,
        Piece.part.injEq] at h
    all_goals rcases h with rfl | rfl <;> trivial
  case h_3 => exact absurd h not_mem_ofCode
  case h_7 => cases hp
  case h_8 => cases hp
  case h_9 => cases hp
  case h_10 => cases hp
  all_goals
    simp only [Piece.instrs, List.mem_cons, List.not_mem_nil, or_false, reduceCtorEq,
      Piece.part.injEq] at h
  · subst h
    trivial
  · rcases h with rfl | rfl <;> trivial

/-- The code of expressions does not jump. -/
theorem straight_valueCode {e : Expr} {is : List Instr} (h : e.valueCode frame pending = .ok is) :
    Straight (is.map .instr) := by
  have hpart : (Part.value pending e).IsExpression := trivial
  have hcode : (Part.value pending e).code frame = .ok (is.map .instr) :=
    map_eq_ok_iff.mpr ⟨is, h, rfl⟩
  exact Part.forall_code Part.IsExpression (by simp [Straight]) (fun _ _ => straight_append)
    (fun _ hp _ => straight_of_mem_pieces hp) (fun _ hp _ => isExpression_of_mem_pieces hp)
    hpart hcode

section Targets

theorem straight_evaluateCode {e : Expr} (h : evaluateCode frame e = .ok code) :
    Straight code := by
  obtain ⟨is, his, rfl⟩ := evaluateCode_eq_ok h
  have hpop : Straight [.instr (.pop .rax)] := by simp [Straight, Instr.isStraight]
  exact straight_append (straight_valueCode his) hpop

theorem targetsOf_conditionCode {e : Expr} {l : Label} (h : conditionCode frame e l = .ok code) :
    targetsOf code = [l] := by
  obtain ⟨value, hv, rfl⟩ := conditionCode_eq_ok h
  rw [targetsOf_append, (straight_evaluateCode hv).targetsOf]
  rfl

mutual

/-- Jumps within a statement lead to its own labels. -/
theorem targetsOf_subset {frame : Frame} {before : ConstructCounts} {code : List Line} (s : Stmt)
    (h : s.code frame before = .ok code) : targetsOf code ⊆ labelsOf code := by
  intro l hl
  cases s with
  | expr e => simp [(straight_evaluateCode (code_expr h)).targetsOf] at hl
  | ret e =>
    obtain ⟨value, hv, rfl⟩ := code_ret h
    simp [(straight_evaluateCode hv).targetsOf, targetsOf_epilogue] at hl
  | ifThen cond body =>
    obtain ⟨test, inner, ht, hi, rfl⟩ := code_ifThen h
    simp [targetsOf_conditionCode ht] at hl ⊢
    rcases hl with rfl | hl
    · exact .inr (.inr rfl)
    · exact .inr (.inl (targetsOf_subset body hi hl))
  | ifElse cond body otherwise =>
    obtain ⟨test, inner, other, ht, hi, ho, rfl⟩ := code_ifElse h
    simp [targetsOf_conditionCode ht] at hl ⊢
    rcases hl with rfl | hl | rfl | hl
    · simp
    · simp [targetsOf_subset body hi hl]
    · simp
    · simp [targetsOf_subset otherwise ho hl]
  | whileLoop cond body =>
    obtain ⟨test, inner, ht, hi, rfl⟩ := code_whileLoop h
    simp [loopLines, targetsOf_conditionCode ht] at hl ⊢
    rcases hl with rfl | hl | rfl
    · simp
    · simp [targetsOf_subset body hi hl]
    · simp
  | forLoop init cond step body =>
    obtain ⟨start, test, inner, after, hs, ht, hi, ha, rfl⟩ := code_forLoop h
    simp [loopLines, targetsOf_conditionCode ht, (straight_evaluateCode hs).targetsOf,
      (straight_evaluateCode ha).targetsOf] at hl ⊢
    rcases hl with rfl | hl | rfl
    · simp
    · simp [targetsOf_subset body hi hl]
    · simp
  | block body => exact targetsOf_subset_of_all body (code_block h) hl

theorem targetsOf_subset_of_all {frame : Frame} {before : ConstructCounts} {code : List Line}
    (ss : List Stmt) (h : Stmt.codeOfAll frame before ss = .ok code) :
    targetsOf code ⊆ labelsOf code := by
  intro l hl
  cases ss with
  | nil =>
    rw [codeOfAll_nil h] at hl
    cases hl
  | cons s ss =>
    obtain ⟨first, rest, hf, hr, rfl⟩ := codeOfAll_cons h
    rw [targetsOf_append, List.mem_append] at hl
    rw [labelsOf_append, List.mem_append]
    rcases hl with hl | hl
    · exact .inl (targetsOf_subset s hf hl)
    · exact .inr (targetsOf_subset_of_all ss hr hl)

end

theorem targetsOf_prologue (frame : Frame) : targetsOf (prologue frame) = [] := by
  unfold prologue
  split <;> rfl

theorem straight_spillCode {bindings : List (String × Reg)}
    (h : spillCode frame bindings = .ok code) : Straight code := by
  induction bindings generalizing code with
  | nil =>
    rw [spillCode_nil h]
    simp [Straight]
  | cons binding rest ih =>
    obtain ⟨param, reg⟩ := binding
    obtain ⟨offset, later, -, hl, rfl⟩ := spillCode_cons h
    exact List.forall_mem_cons.mpr ⟨⟨_, rfl, rfl⟩, ih hl⟩

/-- Jumps within a function lead to its own labels. -/
theorem targetsOf_subset_function {f : Function} (h : f.code before = .ok code) :
    targetsOf code ⊆ labelsOf code := by
  obtain ⟨-, spills, body, hs, hb, rfl⟩ := code_function h
  have hbody := targetsOf_subset_of_all f.body hb
  simpa [targetsOf_prologue, targetsOf_epilogue, (straight_spillCode hs).targetsOf,
    labelsOf_prologue, labelsOf_epilogue, labelsOf_spillCode hs] using hbody

end Targets

section Epilogues

/-- The frame pointer is restored by epilogues only. -/
def RestoresInEpilogues (code : List Line) : Prop :=
  ∀ a b, code = a ++ .instr (.pop .rbp) :: b →
    ∃ a' b', a = a' ++ [.instr (.mov .rsp .rbp)] ∧ b = .instr .ret :: b'

theorem RestoresInEpilogues.append (ha : RestoresInEpilogues a) (hb : RestoresInEpilogues b) :
    RestoresInEpilogues (a ++ b) := by
  intro x y h
  rcases List.append_eq_append_iff.mp h with ⟨t, rfl, ht⟩ | ⟨t, rfl, ht⟩
  · obtain ⟨a', b', rfl, rfl⟩ := hb t y ht
    exact ⟨a ++ a', b', by simp, rfl⟩
  · cases t with
    | nil =>
      obtain ⟨a', b', hnil, -⟩ := hb [] y ht.symm
      simp at hnil
    | cons line t =>
      obtain ⟨rfl, rfl⟩ := List.cons.inj ht
      obtain ⟨a', b', rfl, rfl⟩ := ha x t rfl
      exact ⟨a', b' ++ b, rfl, rfl⟩

theorem restoresInEpilogues_of_not_mem (h : .instr (.pop .rbp) ∉ code) :
    RestoresInEpilogues code := by
  rintro x y rfl
  simp at h

theorem restoresInEpilogues_epilogue : RestoresInEpilogues epilogue := by
  intro x y h
  match x, h with
  | [], h => cases h
  | [_], h =>
    obtain ⟨rfl, rfl⟩ : _ = Line.instr (.mov .rsp .rbp) ∧ [Line.instr .ret] = y := by
      simpa [epilogue, eq_comm] using h
    exact ⟨[], [], rfl, rfl⟩
  | _ :: _ :: x, h => simp [epilogue, List.cons_eq_append_iff] at h

theorem Straight.restoresInEpilogues (h : Straight code) : RestoresInEpilogues code := by
  refine restoresInEpilogues_of_not_mem fun hmem => ?_
  obtain ⟨i, hi, hstraight⟩ := h _ hmem
  obtain rfl := Line.instr.inj hi
  cases hstraight

theorem restoresInEpilogues_of_mem_stmtPieces {s : Stmt} (h : .lines code ∈ s.pieces before) :
    RestoresInEpilogues code := by
  cases s
  all_goals
    simp only [Stmt.pieces, evaluationPieces, conditionPieces, Piece.instrs, List.mem_append,
      List.mem_cons, List.not_mem_nil, or_false, false_or, or_assoc, reduceCtorEq,
      Piece.lines.injEq] at h
  case ret =>
    rcases h with rfl | rfl
    · exact restoresInEpilogues_of_not_mem (by simp)
    · exact restoresInEpilogues_epilogue
  all_goals
    refine restoresInEpilogues_of_not_mem ?_
    rcases h with rfl | rfl | rfl | rfl | rfl | rfl | rfl <;> simp

theorem restoresInEpilogues_of_mem_pieces {p : Part} (h : .lines code ∈ p.pieces frame) :
    RestoresInEpilogues code := by
  cases p
  case statement => exact restoresInEpilogues_of_mem_stmtPieces h
  case statements ss => cases ss <;> simp [Part.pieces] at h
  case spills => exact (straight_spillCode (lines_mem_ofCode h)).restoresInEpilogues
  all_goals exact (straight_of_mem_pieces (by trivial) h).restoresInEpilogues

theorem restoresInEpilogues_function {f : Function} (h : f.code before = .ok code) :
    RestoresInEpilogues code := by
  obtain ⟨-, spills, body, hs, hb, rfl⟩ := code_function h
  have hcode : (Part.statements before f.body).code f.frame = .ok body := hb
  have hbody : RestoresInEpilogues body :=
    Part.forall_code (fun _ => True) (restoresInEpilogues_of_not_mem (by simp))
      (fun _ _ => RestoresInEpilogues.append) (fun _ _ _ => restoresInEpilogues_of_mem_pieces)
      (fun _ _ _ _ => trivial) trivial hcode
  have hopening : RestoresInEpilogues (.entry f.name :: prologue f.frame) := by
    refine restoresInEpilogues_of_not_mem ?_
    unfold prologue
    split <;> simp
  rw [← List.cons_append]
  exact hopening.append ((straight_spillCode hs).restoresInEpilogues.append
    (hbody.append restoresInEpilogues_epilogue))

end Epilogues

end MiniC
