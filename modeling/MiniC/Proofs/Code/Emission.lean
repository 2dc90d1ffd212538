import MiniC.Proofs.Code.Inversion
import MiniC.Proofs.Frame

/-! The order in which code is emitted.

The expressions of a function in this order decide with which error the emission ends, and which
slots the code addresses one after the other. One induction over the code shows both. -/
namespace MiniC

/-- Whether an expression has an address. -/
def Expr.isPlace : Expr → Bool
  | .var _ | .unary .deref _ => true
  | _ => false

mutual

/-- An expression and all expressions in it, as code is emitted for them: each before those in it,
operands from the left, and arguments from the last to the first. -/
def Expr.emitted : Expr → List Expr
  | .num value => [.num value]
  | .var name => [.var name]
  | .unary op operand => .unary op operand :: operand.emitted
  | .binary op lhs rhs => .binary op lhs rhs :: (lhs.emitted ++ rhs.emitted)
  | .assign lhs rhs => .assign lhs rhs :: (lhs.emitted ++ rhs.emitted)
  | .call callee args => .call callee args :: Expr.emittedOfAll args

/-- All expressions in the arguments of a call. -/
def Expr.emittedOfAll : List Expr → List Expr
  | [] => []
  | arg :: args => Expr.emittedOfAll args ++ arg.emitted

end

mutual

/-- All expressions of a statement, as code is emitted for them: the step of a `for` comes after its
body. -/
def Stmt.emitted : Stmt → List Expr
  | .expr value => value.emitted
  | .ret value => value.emitted
  | .ifThen cond body => cond.emitted ++ body.emitted
  | .ifElse cond body otherwise => cond.emitted ++ (body.emitted ++ otherwise.emitted)
  | .whileLoop cond body => cond.emitted ++ body.emitted
  | .forLoop init cond step body => init.emitted ++ (cond.emitted ++ (body.emitted ++ step.emitted))
  | .block body => Stmt.emittedOfAll body

/-- All expressions of consecutive statements. -/
def Stmt.emittedOfAll : List Stmt → List Expr
  | [] => []
  | s :: ss => s.emitted ++ Stmt.emittedOfAll ss

end

/-- What is wrong with an expression itself, whatever is in it. -/
def Expr.fault? : Expr → Option SemanticError
  | .call callee args =>
    if args.length ≤ maxArity then none else some (.tooManyArguments callee args.length)
  | .assign lhs _ => if lhs.isPlace then none else some (.notAssignable lhs)
  | .unary .address operand => if operand.isPlace then none else some (.notAddressable operand)
  | _ => none

/-- The variable that an expression is. -/
def Expr.variable? : Expr → Option String
  | .var name => some name
  | _ => none

/-- The faults of some expressions, in order. -/
def faultsOf (es : List Expr) : List SemanticError :=
  es.filterMap Expr.fault?

/-- The variables among some expressions, in order. -/
def variablesOf (es : List Expr) : List String :=
  es.filterMap Expr.variable?

/-- The faults of a function: too many parameters, then those of its body. -/
def Function.faults (f : Function) : List SemanticError :=
  (if f.params.length ≤ maxArity then [] else [.tooManyParameters f.name f.params.length]) ++
    faultsOf (Stmt.emittedOfAll f.body)

/-- The faults of a program, in order of its functions. -/
def Program.faults (p : Program) : List SemanticError :=
  p.flatMap Function.faults

/-- The slot that an instruction addresses, by its offset. -/
def Instr.slotOffset? : Instr → Option Nat
  | .spill offset _ => some offset
  | .subBytes .rax offset => some offset
  | _ => none

/-- The slot that a line addresses. -/
def Line.slotOffset? : Line → Option Nat
  | .instr i => i.slotOffset?
  | _ => none

/-- The names have slots. -/
def Frame.Covers (frame : Frame) (names : List String) : Prop :=
  ∀ name ∈ names, (frame.offset? name).isSome

/-- The offset of a name that has a slot. -/
def Frame.slotOf (frame : Frame) (name : String) : Nat :=
  (frame.offset? name).getD 0

namespace Frame.Covers

variable {frame : Frame} {names names' : List String}

theorem append : frame.Covers (names ++ names') ↔ frame.Covers names ∧ frame.Covers names' :=
  List.forall_mem_append

theorem declare (h : frame.Covers names) (name : String) :
    (frame.declare name).Covers (names ++ [name]) := by
  intro other hmem
  by_cases hother : other = name
  · rw [hother]
    exact isSome_offset?_declare frame name
  · rw [offset?_declare_of_ne frame hother]
    exact h other (by simpa [hother] using hmem)

theorem ofNames (names : List String) : (Frame.ofNames names).Covers names := by
  unfold Frame.ofNames
  induction names using List.reverseRecOn with
  | nil => exact List.forall_mem_nil _
  | append_singleton names name ih =>
    rw [List.foldl_append]
    exact ih.declare name

theorem offset?_eq (h : frame.Covers names) {name : String} (hname : name ∈ names) :
    frame.offset? name = some (frame.slotOf name) := by
  obtain ⟨offset, ho⟩ := Option.isSome_iff_exists.mp (h name hname)
  rw [Frame.slotOf, ho, Option.getD_some]

end Frame.Covers

/-- A computation ends with the first of some faults. If there is none, then it gives code that
addresses the slots at some offsets, in order. -/
def Emits {α : Type} (offset? : α → Option Nat) (faults : List SemanticError) (offsets : List Nat)
    (x : Except SemanticError (List α)) : Prop :=
  match faults with
  | [] => ∃ code, x = .ok code ∧ code.filterMap offset? = offsets
  | cause :: _ => x = .error cause

namespace Emits

variable {α β : Type} {a? : α → Option Nat} {b? : β → Option Nat}
  {faults faults' : List SemanticError} {offsets offsets' : List Nat}
  {x : Except SemanticError (List α)} {k : List α → Except SemanticError (List β)}

theorem ok {code : List α} (h : code.filterMap a? = offsets) : Emits a? [] offsets (.ok code) :=
  ⟨code, rfl, h⟩

theorem error (cause : SemanticError) : Emits a? (cause :: faults) offsets (.error cause) :=
  rfl

/-- What is emitted first has its faults first. -/
theorem bind (hx : Emits a? faults offsets x)
    (hk : ∀ code, code.filterMap a? = offsets → Emits b? faults' offsets' (k code)) :
    Emits b? (faults ++ faults') offsets' (x >>= k) := by
  cases faults with
  | nil =>
    obtain ⟨code, rfl, hcode⟩ := hx
    exact hk code hcode
  | cons cause faults =>
    obtain rfl : x = .error cause := hx
    rfl

/-- What is done with the code that was emitted does not fail. -/
theorem map (hx : Emits a? faults offsets x) {g : List α → List β}
    (hg : ∀ code, code.filterMap a? = offsets → (g code).filterMap b? = offsets') :
    Emits b? faults offsets' (x >>= fun code => pure (g code)) := by
  have h := hx.bind (k := fun code => pure (g code)) fun code hcode => .ok (hg code hcode)
  rwa [List.append_nil] at h

/-- Code that addresses no slot is put after what was emitted. -/
theorem followed (hx : Emits a? faults offsets x) {back : List α}
    (hback : back.filterMap a? = []) :
    Emits a? faults offsets (x >>= fun code => pure (code ++ back)) :=
  hx.map fun code hcode => by rw [List.filterMap_append, hcode, hback, List.append_nil]

theorem eq_error_iff (h : Emits a? faults offsets x) {cause : SemanticError} :
    x = .error cause ↔ faults.head? = some cause := by
  cases faults with
  | nil =>
    obtain ⟨code, rfl, -⟩ := h
    simp
  | cons first faults =>
    obtain rfl : x = .error first := h
    simp

theorem offsets_eq (h : Emits a? faults offsets x) {code : List α} (hx : x = .ok code) :
    code.filterMap a? = offsets := by
  subst hx
  cases faults with
  | nil =>
    obtain ⟨_, ⟨⟩, hoffsets⟩ := h
    exact hoffsets
  | cons first faults => cases h

end Emits

section Lists

variable {es es' : List Expr} {e : Expr}

@[simp] theorem faultsOf_append : faultsOf (es ++ es') = faultsOf es ++ faultsOf es' :=
  List.filterMap_append

@[simp] theorem variablesOf_append : variablesOf (es ++ es') = variablesOf es ++ variablesOf es' :=
  List.filterMap_append

theorem filterMap_slotOffset?_instrs (code : List Instr) :
    (code.map Line.instr).filterMap Line.slotOffset? = code.filterMap Instr.slotOffset? :=
  List.filterMap_map

end Lists

variable {frame : Frame} {pending : Nat}

/-- The offsets of the slots of the variables among some expressions. -/
def Frame.offsetsOf (frame : Frame) (es : List Expr) : List Nat :=
  (variablesOf es).map frame.slotOf

@[simp] theorem Frame.offsetsOf_append (frame : Frame) (es es' : List Expr) :
    frame.offsetsOf (es ++ es') = frame.offsetsOf es ++ frame.offsetsOf es' := by
  simp [offsetsOf]

/-- The computation emits the code of some expressions. -/
abbrev EmitsOf {α : Type} (frame : Frame) (offset? : α → Option Nat) (es : List Expr)
    (x : Except SemanticError (List α)) : Prop :=
  Emits offset? (faultsOf es) (frame.offsetsOf es) x

section Expressions

theorem emits_slotCode {name : String} (h : frame.Covers [name]) :
    EmitsOf frame Instr.slotOffset? [.var name] (slotCode frame name) := by
  rw [slotCode, h.offset?_eq List.mem_cons_self]
  exact .ok rfl

theorem addressCode_of_not_isPlace {e : Expr} (h : e.isPlace = false)
    (refuse : Expr → SemanticError) : e.addressCode frame pending refuse = .error (refuse e) := by
  unfold Expr.addressCode
  split
  · cases h
  · cases h
  · rfl

/-- Two parts, one after the other. -/
theorem EmitsOf.append {α : Type} {offset? : α → Option Nat} {es es' : List Expr}
    {x y : Except SemanticError (List α)} (hx : EmitsOf frame offset? es x)
    (hy : EmitsOf frame offset? es' y) {g : List α → List α → List α}
    (hg : ∀ code code', (g code code').filterMap offset? =
      code.filterMap offset? ++ code'.filterMap offset?) :
    EmitsOf frame offset? (es ++ es')
      (x >>= fun code => y >>= fun code' => pure (g code code')) := by
  rw [EmitsOf, faultsOf_append, frame.offsetsOf_append]
  refine hx.bind fun code hcode => hy.map fun code' hcode' => ?_
  rw [hg, hcode, hcode']

/-- An address is emitted like the value of a variable or of a pointer. -/
theorem emits_addressCode {e : Expr} {refuse : Expr → SemanticError} (h : e.isPlace)
    (hnames : frame.Covers e.names)
    (ih : ∀ pointer, e = .unary .deref pointer →
      EmitsOf frame Instr.slotOffset? pointer.emitted (pointer.valueCode frame pending)) :
    EmitsOf frame Instr.slotOffset? e.emitted (e.addressCode frame pending refuse) := by
  unfold Expr.addressCode
  split
  · exact emits_slotCode hnames
  · exact ih _ rfl
  · next hvar hderef =>
    unfold Expr.isPlace at h
    split at h
    · exact absurd rfl (hvar _)
    · exact absurd rfl (hderef _)
    · cases h

variable {α : Type} {offset? : α → Option Nat} {e : Expr} {es : List Expr}

/-- An expression without a fault that is no variable adds nothing to what is emitted. -/
theorem EmitsOf.cons {x : Except SemanticError (List α)} (h : EmitsOf frame offset? es x)
    (hfault : e.fault? = none) (hvariable : e.variable? = none) :
    EmitsOf frame offset? (e :: es) x := by
  rwa [EmitsOf, faultsOf, Frame.offsetsOf, variablesOf, List.filterMap_cons_none hfault,
    List.filterMap_cons_none hvariable]

theorem emits_of_fault {cause : SemanticError} (h : e.fault? = some cause) :
    EmitsOf frame offset? (e :: es) (.error cause : Except _ (List α)) := by
  rw [EmitsOf, faultsOf, List.filterMap_cons_some h]
  exact .error cause

theorem BinOp.filterMap_code (op : BinOp) : op.code.filterMap Instr.slotOffset? = [] := by
  cases op <;> rfl

theorem filterMap_pops (registers : List Reg) :
    (registers.map Instr.pop).filterMap Instr.slotOffset? = [] := by
  rw [List.filterMap_map]
  exact List.filterMap_eq_nil_iff.mpr fun _ _ => rfl

theorem filterMap_callCode (pending : Nat) (callee : String) :
    (callCode pending callee).filterMap Instr.slotOffset? = [] := by
  unfold callCode
  split <;> rfl

mutual

theorem emits_valueCode : ∀ (e : Expr) (pending : Nat), frame.Covers e.names →
    EmitsOf frame Instr.slotOffset? e.emitted (e.valueCode frame pending)
  | .num value, _, _ => by
    rw [Expr.valueCode]
    refine .ok ?_
    unfold literalCode
    split <;> rfl
  | .var name, _, hnames => by
    rw [Expr.valueCode]
    exact (emits_slotCode hnames).followed rfl
  | .unary .plus e, pending, hnames => by
    rw [Expr.valueCode]
    exact emits_valueCode e pending hnames
  | .unary .minus e, pending, hnames => by
    rw [Expr.valueCode]
    exact (emits_valueCode e pending hnames).followed rfl
  | .unary .address e, pending, hnames => by
    rw [Expr.valueCode, Expr.emitted]
    by_cases hplace : e.isPlace
    · refine (emits_addressCode hplace hnames ?_).cons (if_pos hplace) rfl
      rintro pointer rfl
      exact emits_valueCode pointer pending hnames
    · rw [addressCode_of_not_isPlace (by simpa using hplace)]
      exact emits_of_fault (if_neg hplace)
  | .unary .deref e, pending, hnames => by
    rw [Expr.valueCode]
    exact (emits_valueCode e pending hnames).followed rfl
  | .binary op lhs rhs, pending, hnames => by
    obtain ⟨hl, hr⟩ := Frame.Covers.append.mp hnames
    rw [Expr.valueCode]
    refine (emits_valueCode lhs pending hl).append (emits_valueCode rhs (pending + 1) hr) ?_
    intro left right
    have hpops : [Instr.pop .rdi, .pop .rax].filterMap Instr.slotOffset? = [] := rfl
    have hpush : [Instr.push .rax].filterMap Instr.slotOffset? = [] := rfl
    simp only [List.filterMap_append, hpops, hpush, op.filterMap_code, List.append_nil]
  | .assign lhs rhs, pending, hnames => by
    obtain ⟨hl, hr⟩ := Frame.Covers.append.mp hnames
    rw [Expr.valueCode, Expr.emitted]
    by_cases hplace : lhs.isPlace
    · have htarget : EmitsOf frame Instr.slotOffset? lhs.emitted
          (lhs.addressCode frame pending .notAssignable) := by
        refine emits_addressCode hplace hl ?_
        rintro pointer rfl
        exact emits_valueCode pointer pending hl
      refine .cons (htarget.append (emits_valueCode rhs (pending + 1) hr) ?_) (if_pos hplace) rfl
      intro target value
      simp [Instr.slotOffset?]
    · rw [addressCode_of_not_isPlace (by simpa using hplace)]
      exact emits_of_fault (if_neg hplace)
  | .call callee args, pending, hnames => by
    rw [Expr.valueCode, Expr.emitted]
    by_cases hlength : args.length ≤ maxArity
    · rw [if_pos hlength]
      refine .cons ((emits_argumentCode args pending hnames).map fun code hcode => ?_)
        (if_pos hlength) rfl
      rw [List.filterMap_append, List.filterMap_append, List.filterMap_append, hcode,
        filterMap_pops, filterMap_callCode, List.append_nil, List.append_nil]
      exact List.append_nil _
    · rw [if_neg hlength]
      exact emits_of_fault (if_neg hlength)

theorem emits_argumentCode : ∀ (args : List Expr) (pending : Nat),
    frame.Covers (Expr.namesOfAll args) →
    EmitsOf frame Instr.slotOffset? (Expr.emittedOfAll args) (Expr.argumentCode frame pending args)
  | [], _, _ => by
    rw [Expr.argumentCode]
    exact .ok rfl
  | arg :: args, pending, hnames => by
    obtain ⟨hfirst, hrest⟩ := Frame.Covers.append.mp hnames
    rw [Expr.argumentCode]
    exact (emits_argumentCode args pending hrest).append
      (emits_valueCode arg _ hfirst) fun _ _ => List.filterMap_append

end

end Expressions

section Statements

theorem emits_evaluateCode {e : Expr} (hnames : frame.Covers e.names) :
    EmitsOf frame Line.slotOffset? e.emitted (evaluateCode frame e) := by
  refine (emits_valueCode e 0 hnames).map fun code hcode => ?_
  rw [filterMap_slotOffset?_instrs, List.filterMap_append, hcode]
  exact List.append_nil _

theorem emits_conditionCode {e : Expr} {target : Label} (hnames : frame.Covers e.names) :
    EmitsOf frame Line.slotOffset? e.emitted (conditionCode frame e target) :=
  (emits_evaluateCode hnames).followed rfl

mutual

theorem emits_code : ∀ (s : Stmt) (before : ConstructCounts), frame.Covers s.names →
    EmitsOf frame Line.slotOffset? s.emitted (s.code frame before)
  | .expr e, _, hnames => by
    rw [Stmt.code]
    exact emits_evaluateCode hnames
  | .ret e, _, hnames => by
    rw [Stmt.code]
    exact (emits_evaluateCode hnames).followed rfl
  | .ifThen cond body, before, hnames => by
    obtain ⟨hc, hb⟩ := Frame.Covers.append.mp hnames
    rw [Stmt.code]
    refine (emits_conditionCode hc).append (emits_code body _ hb) fun test inner => ?_
    simp [Line.slotOffset?]
  | .ifElse cond body otherwise, before, hnames => by
    obtain ⟨hcb, ho⟩ := Frame.Covers.append.mp hnames
    obtain ⟨hc, hb⟩ := Frame.Covers.append.mp hcb
    rw [Stmt.code, Stmt.emitted, EmitsOf, faultsOf_append, faultsOf_append]
    refine (emits_conditionCode hc).bind fun test htest => (emits_code body _ hb).bind
      fun inner hinner => (emits_code otherwise _ ho).map fun other hother => ?_
    simp [List.filterMap_cons, htest, hinner, hother, Line.slotOffset?, Instr.slotOffset?]
  | .whileLoop cond body, before, hnames => by
    obtain ⟨hc, hb⟩ := Frame.Covers.append.mp hnames
    rw [Stmt.code]
    refine (emits_conditionCode hc).append (emits_code body _ hb) fun test inner => ?_
    simp [List.filterMap_cons, Line.slotOffset?, Instr.slotOffset?]
  | .forLoop init cond step body, before, hnames => by
    simp only [Stmt.names, Frame.Covers.append] at hnames
    obtain ⟨⟨⟨hi, hc⟩, hs⟩, hb⟩ := hnames
    rw [Stmt.code, Stmt.emitted, EmitsOf, faultsOf_append, faultsOf_append, faultsOf_append]
    refine (emits_evaluateCode hi).bind fun start hstart => (emits_conditionCode hc).bind
      fun test htest => (emits_code body _ hb).bind fun inner hinner =>
        (emits_evaluateCode hs).map fun after hafter => ?_
    simp [List.filterMap_cons, hstart, htest, hinner, hafter, Line.slotOffset?,
      Instr.slotOffset?]
  | .block body, before, hnames => by
    rw [Stmt.code]
    exact emits_codeOfAll body before hnames

theorem emits_codeOfAll : ∀ (ss : List Stmt) (before : ConstructCounts),
    frame.Covers (Stmt.namesOfAll ss) →
    EmitsOf frame Line.slotOffset? (Stmt.emittedOfAll ss) (Stmt.codeOfAll frame before ss)
  | [], _, _ => by
    rw [Stmt.codeOfAll]
    exact .ok rfl
  | s :: ss, before, hnames => by
    obtain ⟨hfirst, hrest⟩ := Frame.Covers.append.mp hnames
    rw [Stmt.codeOfAll]
    exact (emits_code s before hfirst).append (emits_codeOfAll ss _ hrest) fun _ _ =>
      List.filterMap_append

end

theorem emits_spillCode {bindings : List (String × Reg)}
    (hnames : frame.Covers (bindings.map Prod.fst)) :
    Emits Line.slotOffset? [] ((bindings.map Prod.fst).map frame.slotOf)
      (spillCode frame bindings) := by
  induction bindings with
  | nil => exact .ok rfl
  | cons binding rest ih =>
    obtain ⟨param, reg⟩ := binding
    rw [spillCode, hnames.offset?_eq List.mem_cons_self]
    have hrest : frame.Covers (rest.map Prod.fst) := fun name hname =>
      hnames name (List.mem_cons_of_mem _ hname)
    refine (ih hrest).map fun code hcode => ?_
    rw [List.map_cons, List.map_cons, ← hcode]
    rfl

end Statements

/-- The names whose slots the code of a function addresses: parameters, then the variables of the
body. -/
def Function.accessed (f : Function) : List String :=
  f.params ++ variablesOf (Stmt.emittedOfAll f.body)

section Programs

theorem filterMap_prologue (frame : Frame) : (prologue frame).filterMap Line.slotOffset? = [] := by
  unfold prologue
  split <;> rfl

theorem emits_function (f : Function) (before : ConstructCounts) :
    Emits Line.slotOffset? f.faults (f.accessed.map f.frame.slotOf) (f.code before) := by
  have hnames : f.frame.Covers f.names := Frame.Covers.ofNames f.names
  obtain ⟨hparams, hbody⟩ := Frame.Covers.append.mp hnames
  rw [Function.code, Function.faults]
  by_cases hlength : f.params.length ≤ maxArity
  · have hspilled : (f.params.zip argumentRegisters).map Prod.fst = f.params :=
      List.map_fst_zip hlength
    rw [if_pos hlength, if_pos hlength, Function.accessed, List.map_append]
    refine (emits_spillCode ?_).bind fun spills hspills =>
      (emits_codeOfAll f.body before hbody).map fun body hcode => ?_
    · rwa [hspilled]
    · rw [hspilled] at hspills
      have hepilogue : epilogue.filterMap Line.slotOffset? = [] := rfl
      simp [List.filterMap_cons, filterMap_prologue, hspills, hcode, hepilogue, Line.slotOffset?,
        Frame.offsetsOf]
  · rw [if_neg hlength, if_neg hlength]
    exact .error _

theorem emits_codeAfter (fs : List Function) (before : ConstructCounts) :
    Emits Line.slotOffset? (Program.faults fs) (fs.flatMap fun f => f.accessed.map f.frame.slotOf)
      (Program.codeAfter before fs) := by
  induction fs generalizing before with
  | nil => exact .ok rfl
  | cons f fs ih =>
    rw [Program.codeAfter, Program.faults, List.flatMap_cons, List.flatMap_cons]
    refine (emits_function f before).bind fun code hcode => (ih _).map fun rest hrest => ?_
    rw [List.filterMap_append, hcode, hrest]

end Programs

end MiniC
