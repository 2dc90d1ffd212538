import MiniC.Proofs.Frame
import MiniC.Proofs.Stack.Path

/-! Read from top to bottom, the lines of a function tell where the stack pointer is at each of
them, and every line finds it where it needs it. -/
namespace MiniC

/-- How a line changes the number of pending words. The saved frame pointer is not pending. -/
def Line.depthChange : Line → Int
  | instr (.push src) => if src = .rbp then 0 else 1
  | instr (.pushWord _) => 1
  | instr (.pop dst) => if dst = .rbp then 0 else -1
  | _ => 0

/-- The number of pending words after some lines, as it is counted while they are written. -/
def depthOf (code : List Line) : Int :=
  (code.map Line.depthChange).sum

/-- The pointers when `n` words are pending below the frame. -/
def Pointers.level (frame : Frame) (n : Nat) : Pointers :=
  ⟨some (-8 - frame.byteSize - 8 * n), some (-8)⟩

/-- Lines at which the frame pointer is that of the caller. -/
def Line.IsOutside : Line → Prop
  | entry _ | instr (.push .rbp) | instr (.mov .rbp .rsp) | instr .ret => True
  | _ => False

/-- The pointers and the number of pending words before a line. -/
structure Mark where
  pointers : Pointers
  depth : Int

namespace Mark

def level (frame : Frame) (n : Nat) : Mark :=
  ⟨.level frame n, n⟩

/-- What is read off a line. Lines that only jumps lead to find no word pending. -/
def after (frame : Frame) (σ : Mark) (line : Line) : Mark :=
  ⟨if line.fallsThrough then line.move σ.pointers else .level frame 0, σ.depth + line.depthChange⟩

end Mark

/-- A line finds the pointers where it needs them. -/
structure Line.Fits (frame : Frame) (σ : Mark) (line : Line) : Prop where
  known : line.IsOutside ∨ ∃ d, σ.pointers.displacement = some d
  joins : ∀ l, line = .label l ∨ line.target? = some l → σ.pointers = .level frame 0
  call : ∀ f, line = .instr (.call f) → ∃ d, σ.pointers.rsp = some d ∧ d % 16 = 8
  ret : line = .instr .ret → σ.pointers.rsp = some 0
  counted : line.depthChange ≠ 0 → ∃ n, σ = .level frame n ∧ (line.depthChange < 0 → 0 < n)

/-- Lines that fit one after the other, and lead from one mark to another. -/
def Balanced (frame : Frame) (σ : Mark) : List Line → Mark → Prop
  | [], σ' => σ' = σ
  | line :: rest, σ' => line.Fits frame σ ∧ Balanced frame (σ.after frame line) rest σ'

variable {frame : Frame} {σ σ' : Mark} {a b : List Line}

theorem balanced_append :
    Balanced frame σ (a ++ b) σ' ↔ ∃ m, Balanced frame σ a m ∧ Balanced frame m b σ' := by
  induction a generalizing σ with
  | nil => simp [Balanced]
  | cons line a ih => simp [Balanced, ih, and_assoc]

theorem Balanced.foldl (h : Balanced frame σ a σ') : a.foldl (Mark.after frame) σ = σ' := by
  induction a generalizing σ with
  | nil => exact h.symm
  | cons line a ih => exact ih h.2

theorem depth_foldl (σ : Mark) (a : List Line) :
    (a.foldl (Mark.after frame) σ).depth = σ.depth + depthOf a := by
  induction a generalizing σ with
  | nil => simp [depthOf]
  | cons line a ih => simp [ih, depthOf, Mark.after, Int.add_assoc]

theorem displacement_level (n : Nat) :
    (Pointers.level frame n).displacement = some (-(frame.byteSize : Int) - 8 * n) := by
  simp [Pointers.level, Pointers.displacement]
  omega

/-- Instructions that neither move the pointers nor go elsewhere. -/
def Instr.isPlain : Instr → Bool
  | mov dst _ | movWord dst _ | load dst _ | add dst _ | sub dst _ | imul dst _ | neg dst
  | addBytes dst _ | subBytes dst _ => dst ≠ .rsp && dst ≠ .rbp
  | store _ _ | spill _ _ | cqo | idiv _ | cmp _ _ | cmpZero _ | set _ | movzx => true
  | push _ | pushWord _ | pop _ | jmp _ | je _ | call _ | ret => false

theorem Pointers.set_of_ne {r : Pointers} {dst : Reg} {d : Option Int}
    (h : dst ≠ .rsp ∧ dst ≠ .rbp) : r.set dst d = r := by
  cases dst <;> simp_all [Pointers.set]

theorem Instr.move_of_isPlain {i : Instr} (h : i.isPlain) (r : Pointers) : i.move r = r := by
  cases i
  all_goals simp only [isPlain, Bool.and_eq_true, decide_eq_true_eq, Bool.false_eq_true] at h
  all_goals first | rfl | exact Pointers.set_of_ne h

section Lines

variable {n : Nat} {line : Line} {i : Instr}

theorem after_of_isPlain (h : i.isPlain) :
    (Mark.level frame n).after frame (.instr i) = .level frame n := by
  have hmove := Instr.move_of_isPlain h (.level frame n)
  cases i <;> simp_all [Mark.after, Mark.level, Line.fallsThrough, Line.move, Line.depthChange,
    Instr.isPlain]

theorem after_push {src : Reg} (h : src ≠ .rbp) :
    (Mark.level frame n).after frame (.instr (.push src)) = .level frame (n + 1) := by
  simp [Mark.after, Mark.level, Line.fallsThrough, Line.move, Line.depthChange, h, Instr.move,
    Pointers.set, Pointers.level]
  omega

theorem after_pushWord {w : Int64} :
    (Mark.level frame n).after frame (.instr (.pushWord w)) = .level frame (n + 1) := by
  simp [Mark.after, Mark.level, Line.fallsThrough, Line.move, Line.depthChange, Instr.move,
    Pointers.set, Pointers.level]
  omega

theorem after_pop {dst : Reg} (h : dst ≠ .rsp ∧ dst ≠ .rbp) :
    (Mark.level frame (n + 1)).after frame (.instr (.pop dst)) = .level frame n := by
  simp [Mark.after, Mark.level, Line.fallsThrough, Line.move, Line.depthChange, h, Instr.move,
    Pointers.set, Pointers.level]
  omega

theorem after_label (l : Label) :
    (Mark.level frame n).after frame (.label l) = .level frame n := by
  simp [Mark.after, Line.fallsThrough, Line.move, Line.depthChange]

theorem after_je (l : Label) :
    (Mark.level frame n).after frame (.instr (.je l)) = .level frame n := by
  simp [Mark.after, Line.fallsThrough, Line.move, Line.depthChange, Instr.move]

theorem after_jmp (l : Label) :
    (Mark.level frame 0).after frame (.instr (.jmp l)) = .level frame 0 := by
  simp [Mark.after, Mark.level, Line.fallsThrough, Line.depthChange]

/-- What a line needs where the number of pending words is known. -/
theorem fits_level (hjoin : ∀ l, line = .label l ∨ line.target? = some l → n = 0)
    (hcall : ∀ f, line ≠ .instr (.call f)) (hret : line ≠ .instr .ret)
    (hpop : line.depthChange < 0 → 0 < n) : line.Fits frame (.level frame n) where
  known := .inr ⟨_, displacement_level n⟩
  joins l hl := by rw [hjoin l hl, Mark.level]
  call f hf := absurd hf (hcall f)
  ret h := absurd h hret
  counted _ := ⟨n, rfl, hpop⟩

theorem fits_of_isPlain (h : i.isPlain) : (Line.instr i).Fits frame (.level frame n) := by
  refine fits_level ?_ ?_ ?_ ?_
  all_goals cases i <;> simp_all [Line.target?, Line.depthChange, Instr.isPlain]

/-- Lines that only move the pointers fit everywhere in a frame. -/
theorem fits_move (hknown : (Line.instr i).IsOutside ∨ ∃ d, σ.pointers.displacement = some d)
    (hmove : (Line.instr i).fallsThrough ∧ (Line.instr i).target? = none)
    (hcall : ∀ f, i ≠ .call f) (hdepth : (Line.instr i).depthChange = 0) :
    (Line.instr i).Fits frame σ where
  known := hknown
  joins l hl := by simp [hmove.2] at hl
  call f hf := absurd (Line.instr.inj hf) (hcall f)
  ret h := by
    rw [h] at hmove
    cases hmove.1
  counted h := absurd hdepth h

end Lines

namespace Balanced

variable {rest : List Line} {n : Nat}

theorem plain {i : Instr} (hi : i.isPlain) (h : Balanced frame (.level frame n) rest σ') :
    Balanced frame (.level frame n) (.instr i :: rest) σ' :=
  ⟨fits_of_isPlain hi, by rwa [after_of_isPlain hi]⟩

theorem push {src : Reg} (hsrc : src ≠ .rbp)
    (h : Balanced frame (.level frame (n + 1)) rest σ') :
    Balanced frame (.level frame n) (.instr (.push src) :: rest) σ' := by
  refine ⟨fits_level ?_ ?_ ?_ ?_, by rwa [after_push hsrc]⟩
  all_goals simp [Line.target?, Line.depthChange, hsrc]

theorem pushWord {w : Int64} (h : Balanced frame (.level frame (n + 1)) rest σ') :
    Balanced frame (.level frame n) (.instr (.pushWord w) :: rest) σ' := by
  refine ⟨fits_level ?_ ?_ ?_ ?_, by rwa [after_pushWord]⟩
  all_goals simp [Line.target?, Line.depthChange]

theorem pop {dst : Reg} (hdst : dst ≠ .rsp ∧ dst ≠ .rbp)
    (h : Balanced frame (.level frame n) rest σ') :
    Balanced frame (.level frame (n + 1)) (.instr (.pop dst) :: rest) σ' := by
  refine ⟨fits_level ?_ ?_ ?_ ?_, by rwa [after_pop hdst]⟩
  all_goals simp [Line.target?, Line.depthChange]

theorem push_rax (h : Balanced frame (.level frame (n + 1)) rest σ') :
    Balanced frame (.level frame n) (.instr (.push .rax) :: rest) σ' :=
  push (by simp) h

theorem pop_rax (h : Balanced frame (.level frame n) rest σ') :
    Balanced frame (.level frame (n + 1)) (.instr (.pop .rax) :: rest) σ' :=
  pop (by simp) h

theorem pop_rdi (h : Balanced frame (.level frame n) rest σ') :
    Balanced frame (.level frame (n + 1)) (.instr (.pop .rdi) :: rest) σ' :=
  pop (by simp) h

theorem je {l : Label} (h : Balanced frame (.level frame 0) rest σ') :
    Balanced frame (.level frame 0) (.instr (.je l) :: rest) σ' := by
  refine ⟨fits_level ?_ ?_ ?_ ?_, by rwa [after_je]⟩
  all_goals simp [Line.depthChange]

theorem jmp {l : Label} (h : Balanced frame (.level frame 0) rest σ') :
    Balanced frame (.level frame 0) (.instr (.jmp l) :: rest) σ' := by
  refine ⟨fits_level ?_ ?_ ?_ ?_, by rwa [after_jmp]⟩
  all_goals simp [Line.depthChange]

theorem label {l : Label} (h : Balanced frame (.level frame 0) rest σ') :
    Balanced frame (.level frame 0) (.label l :: rest) σ' := by
  refine ⟨fits_level ?_ ?_ ?_ ?_, by rwa [after_label]⟩
  all_goals simp [Line.depthChange]

theorem nil : Balanced frame σ [] σ :=
  rfl

theorem pops {regs : List Reg} (h : ∀ r ∈ regs, r ≠ .rsp ∧ r ≠ .rbp) :
    Balanced frame (.level frame (n + regs.length)) (regs.map fun r => .instr (.pop r))
      (.level frame n) := by
  induction regs with
  | nil => exact nil
  | cons r regs ih =>
    obtain ⟨hr, hregs⟩ := List.forall_mem_cons.mp h
    exact pop hr (ih hregs)

/-- Arguments are popped into their registers. -/
theorem argument_pops {count : Nat} (h : count ≤ argumentRegisters.length) :
    Balanced frame (.level frame (n + count))
      (((argumentRegisters.take count).map .pop).map .instr) (.level frame n) := by
  have hregs : ∀ r ∈ argumentRegisters, r ≠ .rsp ∧ r ≠ .rbp := by decide
  have htaken : ∀ r ∈ argumentRegisters.take count, r ≠ .rsp ∧ r ≠ .rbp :=
    fun r hr => hregs r (List.mem_of_mem_take hr)
  have hpops : Balanced frame (.level frame (n + (argumentRegisters.take count).length))
      ((argumentRegisters.take count).map fun r => .instr (.pop r)) (.level frame n) :=
    pops htaken
  rw [List.length_take_of_le h] at hpops
  rwa [List.map_map]

theorem plains {is : List Instr} (h : ∀ i ∈ is, i.isPlain) :
    Balanced frame (.level frame n) (is.map .instr) (.level frame n) := by
  induction is with
  | nil => exact nil
  | cons i is ih =>
    obtain ⟨hi, his⟩ := List.forall_mem_cons.mp h
    exact plain hi (ih his)

theorem fits_call {d : Int} {m : Int} {callee : String} (hd : d % 16 = 8) :
    (Line.instr (.call callee)).Fits frame ⟨⟨some d, some (-8)⟩, m⟩ where
  known := .inr ⟨_, rfl⟩
  joins l hl := by simp [Line.target?] at hl
  call _ _ := ⟨d, rfl, hd⟩
  ret h := by cases h
  counted h := absurd rfl h

/-- The stack is aligned at a call, whose padding depends on the number of pending words. -/
theorem call (n : Nat) (callee : String) :
    Balanced frame (.level frame n) ((callCode n callee).map .instr) (.level frame n) := by
  obtain ⟨k, hk⟩ := frame.dvd_byteSize
  unfold frameAlignment at hk
  have hcall : ∀ m : Mark, m.after frame (.instr (.call callee)) = m := by
    intro m
    simp [Mark.after, Line.fallsThrough, Line.move, Line.depthChange, Instr.move]
  unfold callCode
  split
  · next hodd =>
    let padded : Mark := ⟨⟨some (-8 - frame.byteSize - 8 * n - 8), some (-8)⟩, n⟩
    have hdown : (Mark.level frame n).after frame (.instr (.subBytes .rsp 8)) = padded := by
      simp [Mark.after, Mark.level, Line.fallsThrough, Line.move, Line.depthChange, Instr.move,
        Pointers.set, Pointers.get, Pointers.level, padded]
    have hup : padded.after frame (.instr (.addBytes .rsp 8)) = .level frame n := by
      simp [Mark.after, Mark.level, Line.fallsThrough, Line.move, Line.depthChange, Instr.move,
        Pointers.set, Pointers.get, Pointers.level, padded]
    refine ⟨fits_move (.inr ⟨_, rfl⟩) ⟨rfl, rfl⟩ (by simp) rfl, ?_⟩
    rw [hdown]
    refine ⟨fits_call (by omega), ?_⟩
    rw [hcall]
    refine ⟨fits_move (.inr ⟨_, rfl⟩) ⟨rfl, rfl⟩ (by simp) rfl, ?_⟩
    rw [hup]
    exact nil
  · next heven =>
    refine ⟨fits_call (by omega), ?_⟩
    rw [hcall]
    exact nil

theorem epilogue : Balanced frame (.level frame 0) epilogue (.level frame 0) := by
  let based : Mark := ⟨⟨some (-8), some (-8)⟩, 0⟩
  have hmov : (Mark.level frame 0).after frame (.instr (.mov .rsp .rbp)) = based := rfl
  have hpop : based.after frame (.instr (.pop .rbp)) = ⟨.entry, 0⟩ := rfl
  refine ⟨fits_move (.inr ⟨_, rfl⟩) ⟨rfl, rfl⟩ (by simp) rfl, ?_⟩
  rw [hmov]
  refine ⟨fits_move (.inr ⟨_, rfl⟩) ⟨rfl, rfl⟩ (by simp) rfl, ?_⟩
  rw [hpop]
  refine ⟨⟨.inl trivial, ?_, ?_, fun _ => rfl, fun h => absurd rfl h⟩, rfl⟩
  · simp [Line.target?]
  · simp

theorem prologue (f : String) :
    Balanced frame ⟨.entry, 0⟩ (.entry f :: prologue frame) (.level frame 0) := by
  let based : Mark := ⟨⟨some (-8), some (-8)⟩, 0⟩
  have hbased : ((((⟨.entry, 0⟩ : Mark).after frame (.entry f)).after frame
      (.instr (.push .rbp))).after frame (.instr (.mov .rbp .rsp))) = based := rfl
  have hsub : based.after frame (.instr (.subBytes .rsp frame.byteSize)) = .level frame 0 := by
    simp [Mark.after, Line.fallsThrough, Line.move, Line.depthChange, Instr.move, Pointers.set,
      Pointers.get, Mark.level, Pointers.level, based]
  unfold MiniC.prologue
  refine ⟨⟨.inl trivial, ?_, ?_, ?_, fun h => absurd rfl h⟩,
    fits_move (.inl trivial) ⟨rfl, rfl⟩ (by simp) rfl,
    fits_move (.inl trivial) ⟨rfl, rfl⟩ (by simp) rfl, ?_⟩
  · simp [Line.target?]
  · simp
  · simp
  rw [hbased]
  split
  · refine ⟨fits_move (.inr ⟨_, rfl⟩) ⟨rfl, rfl⟩ (by simp) rfl, ?_⟩
    rw [hsub]
    exact nil
  · next hzero =>
    have hlevel : based = .level frame 0 := by
      simp [based, Mark.level, Pointers.level, Nat.eq_zero_of_not_pos hzero]
    rw [hlevel]
    exact nil

theorem spills {bindings : List (String × Reg)} {code : List Line}
    (h : spillCode frame bindings = .ok code) :
    Balanced frame (.level frame 0) code (.level frame 0) := by
  induction bindings generalizing code with
  | nil =>
    rw [spillCode_nil h]
    exact nil
  | cons binding rest ih =>
    obtain ⟨param, reg⟩ := binding
    obtain ⟨offset, later, -, hl, rfl⟩ := spillCode_cons h
    exact plain rfl (ih hl)

end Balanced

/-- The numbers of pending words before and after a part. -/
def Part.enters : Part → Nat
  | value pending _ | address pending _ _ | arguments pending _ | call pending _ => pending
  | statement _ _ | statements _ _ | spills _ => 0

def Part.leaves : Part → Nat
  | value pending _ | address pending _ _ => pending + 1
  | arguments pending args => pending + args.length
  | call pending _ => pending
  | statement _ _ | statements _ _ | spills _ => 0

/-- Pieces each of which takes up the pending words that the one before it leaves. -/
def Linked (frame : Frame) (σ : Mark) : List Piece → Mark → Prop
  | [], σ' => σ' = σ
  | .lines code :: pieces, σ' => ∃ m, Balanced frame σ code m ∧ Linked frame m pieces σ'
  | .part p :: pieces, σ' =>
    σ = .level frame p.enters ∧ Linked frame (.level frame p.leaves) pieces σ'

theorem linked_append {ps qs : List Piece} :
    Linked frame σ (ps ++ qs) σ' ↔ ∃ m, Linked frame σ ps m ∧ Linked frame m qs σ' := by
  induction ps generalizing σ with
  | nil => simp [Linked]
  | cons piece ps ih =>
    cases piece with
    | lines code =>
      simp only [List.cons_append, Linked, ih]
      constructor
      · rintro ⟨m, hm, m', hps, hqs⟩
        exact ⟨m', ⟨m, hm, hps⟩, hqs⟩
      · rintro ⟨m', ⟨m, hm, hps⟩, hqs⟩
        exact ⟨m, hm, m', hps, hqs⟩
    | part p =>
      simp only [List.cons_append, Linked, ih]
      constructor
      · rintro ⟨hσ, m, hps, hqs⟩
        exact ⟨m, ⟨hσ, hps⟩, hqs⟩
      · rintro ⟨m, ⟨hσ, hps⟩, hqs⟩
        exact ⟨hσ, m, hps, hqs⟩

theorem linked_evaluation (e : Expr) :
    Linked frame (.level frame 0) (evaluationPieces e) (.level frame 0) := by
  refine ⟨rfl, _, .pop_rax .nil, rfl⟩

theorem linked_condition (e : Expr) (l : Label) :
    Linked frame (.level frame 0) (conditionPieces e l) (.level frame 0) := by
  refine linked_append.mpr ⟨_, linked_evaluation e, _, .plain rfl (.je .nil), rfl⟩

theorem isPlain_of_mem_code (op : BinOp) : ∀ i ∈ op.code, i.isPlain := by
  cases op <;> decide

theorem linked_loadCode (n : Nat) :
    Linked frame (.level frame (n + 1)) [.instrs loadCode] (.level frame (n + 1)) :=
  ⟨_, .pop_rax (.plain rfl (.push_rax .nil)), rfl⟩

theorem linked_exprPieces {pending : Nat} {e : Expr} {is : List Instr}
    (h : e.valueCode frame pending = .ok is) :
    Linked frame (.level frame pending) (e.pieces pending) (.level frame (pending + 1)) := by
  match e with
  | .num value =>
    refine ⟨_, ?_, rfl⟩
    unfold literalCode
    split
    · exact .pushWord .nil
    · exact .plain rfl (.push_rax .nil)
  | .var name => exact ⟨rfl, linked_loadCode pending⟩
  | .unary .plus e => exact ⟨rfl, rfl⟩
  | .unary .minus e => exact ⟨rfl, _, .pop_rax (.plain rfl (.push_rax .nil)), rfl⟩
  | .unary .address e => exact ⟨rfl, rfl⟩
  | .unary .deref e => exact ⟨rfl, linked_loadCode pending⟩
  | .binary op lhs rhs =>
    have hop : Balanced frame (.level frame pending) (op.code.map .instr) (.level frame pending) :=
      .plains (isPlain_of_mem_code op)
    refine ⟨rfl, rfl, _, ?_, rfl⟩
    simp only [List.cons_append, List.nil_append, List.map_cons, List.map_append, List.map_nil]
    exact .pop_rdi (.pop_rax (balanced_append.mpr ⟨_, hop, .push_rax .nil⟩))
  | .assign lhs rhs =>
    exact ⟨rfl, rfl, _, .pop_rdi (.pop_rax (.plain rfl (.push (by simp) .nil))), rfl⟩
  | .call callee args =>
    obtain ⟨hlength, -⟩ := valueCode_call h
    rw [← length_argumentRegisters] at hlength
    exact ⟨rfl, _, .argument_pops hlength, rfl, _, .push_rax .nil, rfl⟩

theorem linked_stmtPieces (before : ConstructCounts) (s : Stmt) :
    Linked frame (.level frame 0) (s.pieces before) (.level frame 0) := by
  cases s with
  | expr e => exact linked_evaluation e
  | ret e => exact linked_append.mpr ⟨_, linked_evaluation e, _, .epilogue, rfl⟩
  | ifThen cond body =>
    exact linked_append.mpr ⟨_, linked_condition cond _, rfl, _, .label .nil, rfl⟩
  | ifElse cond body otherwise =>
    exact linked_append.mpr ⟨_, linked_condition cond _, rfl, _, .jmp (.label .nil), rfl, _,
      .label .nil, rfl⟩
  | whileLoop cond body =>
    exact ⟨_, .label .nil, linked_append.mpr ⟨_, linked_condition cond _, rfl, _,
      .jmp (.label .nil), rfl⟩⟩
  | forLoop init cond step body =>
    exact linked_append.mpr ⟨_, linked_evaluation init, _, .label .nil,
      linked_append.mpr ⟨_, linked_condition cond _, rfl,
        linked_append.mpr ⟨_, linked_evaluation step, _, .jmp (.label .nil), rfl⟩⟩⟩
  | block body => exact ⟨rfl, rfl⟩

theorem linked_ofCode {c : Except SemanticError (List Line)} {code : List Line} (h : c = .ok code)
    (hcode : Balanced frame σ code σ') : Linked frame σ (Piece.ofCode c) σ' := by
  rw [h]
  exact ⟨_, hcode, rfl⟩

/-- The pieces of a part lead from the words that are pending before it to those after it. -/
theorem linked_pieces {p : Part} {code : List Line} (h : p.code frame = .ok code) :
    Linked frame (.level frame p.enters) (p.pieces frame) (.level frame p.leaves) := by
  match p with
  | .value pending e =>
    obtain ⟨is, his, rfl⟩ := map_eq_ok_iff.mp h
    exact linked_exprPieces his
  | .address pending refuse e =>
    obtain ⟨is, his, rfl⟩ := map_eq_ok_iff.mp h
    rcases addressCode_eq_ok his with ⟨name, rfl, hslot⟩ | ⟨pointer, rfl, hp⟩
    · obtain ⟨offset, -, rfl⟩ := slotCode_eq_ok hslot
      exact linked_ofCode h (.plain rfl (.plain rfl (.push_rax .nil)))
    · exact ⟨rfl, rfl⟩
  | .arguments pending [] => exact rfl
  | .arguments pending (arg :: args) => exact ⟨rfl, rfl, rfl⟩
  | .call pending callee => exact ⟨_, .call pending callee, rfl⟩
  | .statement before s => exact linked_stmtPieces before s
  | .statements before [] => exact rfl
  | .statements before (s :: ss) => exact ⟨rfl, rfl, rfl⟩
  | .spills bindings => exact linked_ofCode h (.spills h)

theorem linked_functionPieces (before : ConstructCounts) (f : Function) :
    Linked f.frame ⟨.entry, 0⟩ (f.pieces before) (.level f.frame 0) :=
  ⟨_, .prologue f.name, rfl, rfl, _, .epilogue, rfl⟩

/-- Linked pieces have balanced code if their parts have. -/
theorem balanced_of_linked {ps : List Piece} {code : List Line} (h : Linked frame σ ps σ')
    (hcode : Piece.codeOfAll frame ps = .ok code)
    (hparts : ∀ q, .part q ∈ ps → ∀ c, q.code frame = .ok c →
      Balanced frame (.level frame q.enters) c (.level frame q.leaves)) :
    Balanced frame σ code σ' := by
  induction ps generalizing σ code with
  | nil =>
    rw [codeOfAll_nil_iff.mp hcode]
    exact h
  | cons piece ps ih =>
    have hrest : ∀ q, .part q ∈ ps → ∀ c, q.code frame = .ok c →
        Balanced frame (.level frame q.enters) c (.level frame q.leaves) :=
      fun q hq => hparts q (List.mem_cons_of_mem _ hq)
    cases piece with
    | lines c =>
      obtain ⟨b, hb, rfl⟩ := codeOfAll_lines_iff.mp hcode
      obtain ⟨m, hc, hps⟩ := h
      exact balanced_append.mpr ⟨m, hc, ih hps hb hrest⟩
    | part q =>
      obtain ⟨c, hc, b, hb, rfl⟩ := codeOfAll_part_iff.mp hcode
      obtain ⟨rfl, hps⟩ := h
      have hq := hparts q List.mem_cons_self c hc
      exact balanced_append.mpr ⟨_, hq, ih hps hb hrest⟩

/-- The code of a part takes the words that are pending before it to those after it. -/
theorem balanced_code {p : Part} {code : List Line} (h : p.code frame = .ok code) :
    Balanced frame (.level frame p.enters) code (.level frame p.leaves) := by
  induction p using Part.pieces_induction frame generalizing code with
  | h p ih =>
    exact balanced_of_linked (linked_pieces h) (codeOfAll_pieces h) fun q hq c hc => ih q hq hc

theorem balanced_function {before : ConstructCounts} {f : Function} {code : List Line}
    (h : f.code before = .ok code) :
    Balanced f.frame ⟨.entry, 0⟩ code (.level f.frame 0) :=
  balanced_of_linked (linked_functionPieces before f) (codeOfAll_functionPieces h)
    fun _ _ _ hc => balanced_code hc

/-- Where a part begins, the lines before it leave the words that it takes up. -/
theorem Piece.Begins.balanced {ps : List Piece} {code : List Line} {d : Nat} {q : Part}
    (h : Piece.Begins frame ps d q) (hlinked : Linked frame σ ps σ')
    (hcode : Piece.codeOfAll frame ps = .ok code) :
    ∃ a c b, q.code frame = .ok c ∧ code = a ++ (c ++ b) ∧ a.length = d ∧
      Balanced frame σ a (.level frame q.enters) := by
  induction h generalizing σ σ' code with
  | here =>
    obtain ⟨c, hc, b, -, rfl⟩ := codeOfAll_part_iff.mp hcode
    exact ⟨[], c, b, hc, rfl, rfl, hlinked.1.symm⟩
  | inside _ ih =>
    obtain ⟨c, hc, b, -, rfl⟩ := codeOfAll_part_iff.mp hcode
    obtain ⟨a', c', b', hc', rfl, rfl, ha'⟩ := ih (linked_pieces hc) (codeOfAll_pieces hc)
    rw [hlinked.1]
    exact ⟨a', c', b' ++ b, hc', by simp, rfl, ha'⟩
  | @afterLines c q d pieces _ ih =>
    obtain ⟨b, hb, rfl⟩ := codeOfAll_lines_iff.mp hcode
    obtain ⟨m, hc, hps⟩ := hlinked
    obtain ⟨a', c', b', hc', rfl, rfl, ha'⟩ := ih hps hb
    exact ⟨c ++ a', c', b', hc', by simp, by simp, balanced_append.mpr ⟨m, hc, ha'⟩⟩
  | @afterPart p c q d pieces hc _ ih =>
    obtain ⟨c₁, hc₁, b, hb, rfl⟩ := codeOfAll_part_iff.mp hcode
    obtain rfl : c = c₁ := Except.ok.inj (hc.symm.trans hc₁)
    obtain ⟨rfl, hps⟩ := hlinked
    obtain ⟨a', c', b', hc', rfl, rfl, ha'⟩ := ih hps hb
    exact ⟨c ++ a', c', b', hc', by simp, by simp,
      balanced_append.mpr ⟨_, balanced_code hc, ha'⟩⟩

end MiniC
