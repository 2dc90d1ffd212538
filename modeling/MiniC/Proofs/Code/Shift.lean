import MiniC.Proofs.Code.Faults
import MiniC.Proofs.Code.Jumps

/-! Code that comes after more constructs has larger numbers in its labels, and is the same
otherwise. -/
namespace MiniC

/-- The label that marks the same place when more constructs come before it. -/
def Label.shift (earlier : ConstructCounts) (l : Label) : Label :=
  ⟨l.place, .ofNat (earlier.of l.place.construct) + l.number⟩

def Instr.shift (earlier : ConstructCounts) : Instr → Instr
  | jmp l => jmp (l.shift earlier)
  | je l => je (l.shift earlier)
  | i => i

/-- The line with all labels shifted, where it is one or jumps to one. -/
def Line.shift (earlier : ConstructCounts) : Line → Line
  | label l => label (l.shift earlier)
  | instr i => instr (i.shift earlier)
  | entry function => entry function

section Lines

variable {earlier before : ConstructCounts} {frame : Frame} {code : List Line}

theorem label_add (earlier before : ConstructCounts) (place : LabelPlace) :
    (earlier + before).label place = (before.label place).shift earlier := by
  rw [ConstructCounts.label, ConstructCounts.of_add, UInt32.ofNat_add]
  rfl

theorem Straight.map_shift (h : Straight code) : code.map (Line.shift earlier) = code := by
  have hline : ∀ line ∈ code, line.shift earlier = id line := by
    intro line hline
    obtain ⟨i, rfl, hi⟩ := h line hline
    cases i <;> first | rfl | cases hi
  rw [List.map_congr_left hline, List.map_id]

theorem map_shift_epilogue : epilogue.map (Line.shift earlier) = epilogue :=
  rfl

theorem conditionCode_shift {e : Expr} {l : Label} (h : conditionCode frame e l = .ok code) :
    conditionCode frame e (l.shift earlier) = .ok (code.map (Line.shift earlier)) := by
  obtain ⟨value, hv, rfl⟩ := conditionCode_eq_ok h
  rw [conditionCode, hv, List.map_append, (straight_evaluateCode hv).map_shift]
  rfl

mutual

/-- The code of a statement after more constructs. -/
theorem code_shift {frame : Frame} {before : ConstructCounts} {code : List Line} (s : Stmt)
    (h : s.code frame before = .ok code) :
    s.code frame (earlier + before) = .ok (code.map (Line.shift earlier)) := by
  cases s with
  | expr e =>
    rw [(straight_evaluateCode (code_expr h)).map_shift]
    exact code_expr h
  | ret e =>
    obtain ⟨value, hv, rfl⟩ := code_ret h
    rw [Stmt.code, hv, List.map_append, (straight_evaluateCode hv).map_shift, map_shift_epilogue]
    rfl
  | ifThen cond body =>
    obtain ⟨test, inner, ht, hi, rfl⟩ := code_ifThen h
    simp only [Stmt.code, label_add, ConstructCounts.add_assoc, conditionCode_shift ht,
      code_shift body hi]
    simp [bind, Except.bind, pure, Except.pure, Line.shift]
  | ifElse cond body otherwise =>
    obtain ⟨test, inner, other, ht, hi, ho, rfl⟩ := code_ifElse h
    rw [ConstructCounts.add_assoc] at ho
    simp only [Stmt.code, label_add, ConstructCounts.add_assoc, conditionCode_shift ht,
      code_shift body hi, code_shift otherwise ho]
    simp [bind, Except.bind, pure, Except.pure, Line.shift, Instr.shift]
  | whileLoop cond body =>
    obtain ⟨test, inner, ht, hi, rfl⟩ := code_whileLoop h
    simp only [Stmt.code, label_add, ConstructCounts.add_assoc, conditionCode_shift ht,
      code_shift body hi]
    simp [bind, Except.bind, pure, Except.pure, loopLines, Line.shift, Instr.shift]
  | forLoop init cond step body =>
    obtain ⟨start, test, inner, after, hs, ht, hi, ha, rfl⟩ := code_forLoop h
    simp only [Stmt.code, label_add, ConstructCounts.add_assoc, hs, conditionCode_shift ht,
      code_shift body hi, ha]
    simp [bind, Except.bind, pure, Except.pure, loopLines, Line.shift, Instr.shift,
      (straight_evaluateCode hs).map_shift, (straight_evaluateCode ha).map_shift]
  | block body => exact codeOfAll_shift body (code_block h)

theorem codeOfAll_shift {frame : Frame} {before : ConstructCounts} {code : List Line}
    (ss : List Stmt) (h : Stmt.codeOfAll frame before ss = .ok code) :
    Stmt.codeOfAll frame (earlier + before) ss = .ok (code.map (Line.shift earlier)) := by
  cases ss with
  | nil =>
    rw [codeOfAll_nil h]
    rfl
  | cons s ss =>
    obtain ⟨first, rest, hf, hr, rfl⟩ := codeOfAll_cons h
    simp only [Stmt.codeOfAll, ConstructCounts.add_assoc, code_shift s hf, codeOfAll_shift ss hr]
    simp [bind, Except.bind, pure, Except.pure]

end

end Lines

section Programs

variable {earlier before : ConstructCounts} {code : List Line}

theorem map_shift_prologue (frame : Frame) :
    (prologue frame).map (Line.shift earlier) = prologue frame := by
  unfold prologue
  split <;> rfl

theorem map_shift_spillCode {frame : Frame} {bindings : List (String × Reg)}
    (h : spillCode frame bindings = .ok code) : code.map (Line.shift earlier) = code := by
  induction bindings generalizing code with
  | nil =>
    rw [spillCode_nil h]
    rfl
  | cons b rest ih =>
    obtain ⟨param, reg⟩ := b
    obtain ⟨offset, later, -, hl, rfl⟩ := spillCode_cons h
    rw [List.map_cons, ih hl]
    rfl

theorem function_shift {f : Function} (h : f.code before = .ok code) :
    f.code (earlier + before) = .ok (code.map (Line.shift earlier)) := by
  obtain ⟨hlength, spills, body, hs, hb, rfl⟩ := code_function h
  simp only [Function.code, hlength, if_true, hs, codeOfAll_shift f.body hb]
  simp [bind, Except.bind, pure, Except.pure, map_shift_prologue, map_shift_spillCode hs,
    map_shift_epilogue, Line.shift]

/-- The code of functions after more constructs. -/
theorem codeAfter_shift {fs : List Function} (h : Program.codeAfter before fs = .ok code) :
    Program.codeAfter (earlier + before) fs = .ok (code.map (Line.shift earlier)) := by
  induction fs generalizing before code with
  | nil =>
    rw [codeAfter_nil h]
    rfl
  | cons f fs ih =>
    obtain ⟨first, rest, hf, hr, rfl⟩ := codeAfter_cons h
    simp only [Program.codeAfter, ConstructCounts.add_assoc, function_shift hf, ih hr]
    simp [bind, Except.bind, pure, Except.pure]

theorem codeAfter_append_ok {fs gs : List Function} {a b : List Line}
    (ha : Program.codeAfter before fs = .ok a)
    (hb : Program.codeAfter (before + Program.counts fs) gs = .ok b) :
    Program.codeAfter before (fs ++ gs) = .ok (a ++ b) := by
  induction fs generalizing before a with
  | nil =>
    have hzero : before + Program.counts [] = before := before.add_zero
    rw [codeAfter_nil ha]
    rwa [hzero] at hb
  | cons f fs ih =>
    obtain ⟨first, rest, hf, hr, rfl⟩ := codeAfter_cons ha
    have hcounts : Program.counts (f :: fs) = f.counts + Program.counts fs := rfl
    rw [hcounts, ← ConstructCounts.add_assoc] at hb
    simp only [List.cons_append, Program.codeAfter, hf, ih hr hb]
    simp [bind, Except.bind, pure, Except.pure]

/-- The numbers of a second program go on where those of the first end. -/
theorem code_append {p q : Program} {cp cq : List Line} (hp : p.code = .ok cp)
    (hq : q.code = .ok cq) : Program.code (p ++ q) = .ok (cp ++ cq.map (Line.shift p.counts)) := by
  have hshift : Program.codeAfter (p.counts + 0) q = .ok (cq.map (Line.shift p.counts)) :=
    codeAfter_shift hq
  rw [ConstructCounts.add_zero] at hshift
  exact codeAfter_append_ok hp (by rwa [ConstructCounts.zero_add])

/-- Programs one after the other have their code one after the other, or the first of their
errors. -/
theorem assemble_append (p q : Program) :
    assemble (p ++ q) =
      (do return (← assemble p) ++ (← assemble q).map (Line.shift p.counts)) := by
  have hfaults : Program.faults (p ++ q) = p.faults ++ q.faults := List.flatMap_append
  cases hp : assemble p with
  | error e =>
    obtain ⟨cause, hcause, rfl⟩ := assemble_eq_error_iff.mp hp
    refine assemble_eq_error_iff.mpr ⟨cause, ?_, rfl⟩
    rw [hfaults, List.head?_append, hcause, Option.some_or]
  | ok cp =>
    have hnone : p.faults.head? = none := by
      rw [Option.eq_none_iff_forall_ne_some]
      intro cause hcause
      have herror := assemble_eq_error_iff.mpr ⟨cause, hcause, rfl⟩
      cases hp.symm.trans herror
    cases hq : assemble q with
    | error e =>
      obtain ⟨cause, hcause, rfl⟩ := assemble_eq_error_iff.mp hq
      refine assemble_eq_error_iff.mpr ⟨cause, ?_, rfl⟩
      rw [hfaults, List.head?_append, hnone, Option.none_or, hcause]
    | ok cq =>
      exact mapError_eq_ok_iff.mpr
        (code_append (mapError_eq_ok_iff.mp hp) (mapError_eq_ok_iff.mp hq))

end Programs

end MiniC
