import MiniC.Compile
import MiniC.Proofs.Except
import MiniC.Proofs.Frame

/-! The names of parameters and variables do not show in the code.

Renaming commutes with code generation, errors included: slots depend on nothing but which names
are equal, and a name appears in the code by the offset of its slot only. -/
namespace MiniC

mutual

/-- The expression with its variables renamed. Callees keep their names. -/
def Expr.rename (ρ : String → String) : Expr → Expr
  | .num value => .num value
  | .var name => .var (ρ name)
  | .unary op operand => .unary op (operand.rename ρ)
  | .binary op lhs rhs => .binary op (lhs.rename ρ) (rhs.rename ρ)
  | .assign lhs rhs => .assign (lhs.rename ρ) (rhs.rename ρ)
  | .call callee args => .call callee (Expr.renameAll ρ args)

def Expr.renameAll (ρ : String → String) : List Expr → List Expr
  | [] => []
  | e :: es => e.rename ρ :: Expr.renameAll ρ es

end

mutual

def Stmt.rename (ρ : String → String) : Stmt → Stmt
  | .expr e => .expr (e.rename ρ)
  | .ret e => .ret (e.rename ρ)
  | .ifThen cond body => .ifThen (cond.rename ρ) (body.rename ρ)
  | .ifElse cond body otherwise =>
    .ifElse (cond.rename ρ) (body.rename ρ) (otherwise.rename ρ)
  | .whileLoop cond body => .whileLoop (cond.rename ρ) (body.rename ρ)
  | .forLoop init cond step body =>
    .forLoop (init.rename ρ) (cond.rename ρ) (step.rename ρ) (body.rename ρ)
  | .block body => .block (Stmt.renameAll ρ body)

def Stmt.renameAll (ρ : String → String) : List Stmt → List Stmt
  | [] => []
  | s :: ss => s.rename ρ :: Stmt.renameAll ρ ss

end

/-- The function with its parameters and variables renamed. -/
def Function.rename (ρ : String → String) (f : Function) : Function :=
  ⟨f.name, f.params.map ρ, Stmt.renameAll ρ f.body⟩

def SemanticError.rename (ρ : String → String) : SemanticError → SemanticError
  | .tooManyParameters function count => .tooManyParameters function count
  | .tooManyArguments callee count => .tooManyArguments callee count
  | .notAssignable target => .notAssignable (target.rename ρ)
  | .notAddressable operand => .notAddressable (operand.rename ρ)
  | .noSlot name => .noSlot (ρ name)

/-- Each function of one program is renamed in the other, in such a way that its different names
stay different. -/
def Program.Renamed : Program → Program → Prop :=
  List.Forall₂ fun f g =>
    ∃ ρ : String → String, Set.InjOn ρ {name | name ∈ f.names} ∧ g = f.rename ρ

section Names

variable {ρ : String → String}

mutual

theorem Expr.names_rename : ∀ e : Expr, (e.rename ρ).names = e.names.map ρ
  | .num _ => rfl
  | .var _ => rfl
  | .unary _ operand => operand.names_rename
  | .binary _ lhs rhs => by
    rw [Expr.rename, Expr.names, Expr.names, List.map_append, lhs.names_rename, rhs.names_rename]
  | .assign lhs rhs => by
    rw [Expr.rename, Expr.names, Expr.names, List.map_append, lhs.names_rename, rhs.names_rename]
  | .call _ args => Expr.namesOfAll_rename args

theorem Expr.namesOfAll_rename : ∀ es : List Expr,
    Expr.namesOfAll (Expr.renameAll ρ es) = (Expr.namesOfAll es).map ρ
  | [] => rfl
  | e :: es => by
    rw [Expr.renameAll, Expr.namesOfAll, Expr.namesOfAll, List.map_append, e.names_rename,
      Expr.namesOfAll_rename es]

end

theorem Expr.length_renameAll (es : List Expr) : (Expr.renameAll ρ es).length = es.length := by
  induction es with
  | nil => rfl
  | cons e es ih => rw [Expr.renameAll, List.length_cons, List.length_cons, ih]

mutual

theorem Stmt.names_rename : ∀ s : Stmt, (s.rename ρ).names = s.names.map ρ
  | .expr e => e.names_rename
  | .ret e => e.names_rename
  | .ifThen cond body | .whileLoop cond body => by
    simp only [Stmt.rename, Stmt.names, List.map_append, cond.names_rename, body.names_rename]
  | .ifElse cond body otherwise => by
    simp only [Stmt.rename, Stmt.names, List.map_append, cond.names_rename, body.names_rename,
      otherwise.names_rename]
  | .forLoop init cond step body => by
    simp only [Stmt.rename, Stmt.names, List.map_append, init.names_rename, cond.names_rename,
      step.names_rename, body.names_rename]
  | .block body => Stmt.namesOfAll_rename body

theorem Stmt.namesOfAll_rename : ∀ ss : List Stmt,
    Stmt.namesOfAll (Stmt.renameAll ρ ss) = (Stmt.namesOfAll ss).map ρ
  | [] => rfl
  | s :: ss => by
    rw [Stmt.renameAll, Stmt.namesOfAll, Stmt.namesOfAll, List.map_append, s.names_rename,
      Stmt.namesOfAll_rename ss]

end

theorem Function.names_rename (f : Function) : (f.rename ρ).names = f.names.map ρ := by
  rw [Function.names, Function.names, List.map_append, ← Stmt.namesOfAll_rename]
  rfl

mutual

theorem Stmt.counts_rename : ∀ s : Stmt, (s.rename ρ).counts = s.counts
  | .expr _ | .ret _ => rfl
  | .ifThen _ body | .whileLoop _ body | .forLoop _ _ _ body => by
    rw [Stmt.rename, Stmt.counts, Stmt.counts, body.counts_rename]
  | .ifElse _ body otherwise => by
    rw [Stmt.rename, Stmt.counts, Stmt.counts, body.counts_rename, otherwise.counts_rename]
  | .block body => Stmt.countsOfAll_rename body

theorem Stmt.countsOfAll_rename : ∀ ss : List Stmt,
    Stmt.countsOfAll (Stmt.renameAll ρ ss) = Stmt.countsOfAll ss
  | [] => rfl
  | s :: ss => by
    rw [Stmt.renameAll, Stmt.countsOfAll, Stmt.countsOfAll, s.counts_rename,
      Stmt.countsOfAll_rename ss]

end

end Names

/-- First occurrences stand at the same places after a renaming that keeps names apart. -/
theorem eraseDups_map {ρ : String → String} {names : List String}
    (hρ : Set.InjOn ρ {name | name ∈ names}) : (names.map ρ).eraseDups = names.eraseDups.map ρ := by
  induction names using List.reverseRecOn with
  | nil => rfl
  | append_singleton names name ih =>
    have hsub : {other | other ∈ names} ⊆ {other | other ∈ names ++ [name]} :=
      fun _ hother => List.mem_append_left _ hother
    have hmem : ρ name ∈ names.map ρ ↔ name ∈ names := by
      refine ⟨fun h => ?_, List.mem_map_of_mem⟩
      obtain ⟨other, hother, heq⟩ := List.mem_map.mp h
      obtain rfl := hρ (hsub hother) (List.mem_append_right _ (List.mem_singleton_self _)) heq
      exact hother
    rw [List.map_append, List.map_singleton, Frame.eraseDups_concat, Frame.eraseDups_concat,
      ih (hρ.mono hsub)]
    simp only [hmem]
    split
    · rfl
    · rw [List.map_append, List.map_singleton]

namespace Frame

/-- What has a slot in one frame has the same slot in the other under its new name. -/
def RenamedTo (frame : Frame) (ρ : String → String) (frame' : Frame) (names : List String) : Prop :=
  ∀ name ∈ names, frame'.offset? (ρ name) = frame.offset? name

variable {ρ : String → String} {frame frame' : Frame} {names names' : List String}

theorem renamedTo_ofNames (hρ : Set.InjOn ρ {name | name ∈ names}) :
    (ofNames names).RenamedTo ρ (ofNames (names.map ρ)) names := by
  intro name hname
  have hmem : name ∈ (ofNames names).names := by
    rw [← Array.mem_toList_iff, toList_names_ofNames, List.mem_eraseDups]
    exact hname
  obtain ⟨slot, hslot⟩ := Array.mem_iff_getElem?.mp hmem
  have hslot' : (ofNames (names.map ρ)).names[slot]? = some (ρ name) := by
    rw [← Array.getElem?_toList, toList_names_ofNames] at hslot ⊢
    rw [eraseDups_map hρ, List.getElem?_map, hslot, Option.map_some]
  rw [(consistent_ofNames names).offset?_of_getElem? hslot,
    (consistent_ofNames (names.map ρ)).offset?_of_getElem? hslot']

theorem byteSize_ofNames_map (hρ : Set.InjOn ρ {name | name ∈ names}) :
    (ofNames (names.map ρ)).byteSize = (ofNames names).byteSize := by
  have hsize : (ofNames (names.map ρ)).size = (ofNames names).size := by
    rw [size, size, ← Array.length_toList, ← Array.length_toList, toList_names_ofNames,
      toList_names_ofNames, eraseDups_map hρ, List.length_map]
  rw [byteSize, byteSize, hsize]

theorem renamedTo_append : frame.RenamedTo ρ frame' (names ++ names') ↔
    frame.RenamedTo ρ frame' names ∧ frame.RenamedTo ρ frame' names' :=
  List.forall_mem_append

end Frame

section Expressions

variable {ρ : String → String} {frame frame' : Frame}

theorem slotCode_rename {name : String} (h : frame.RenamedTo ρ frame' [name]) :
    slotCode frame' (ρ name) = (slotCode frame name).mapError (SemanticError.rename ρ) := by
  rw [slotCode, slotCode, h name (List.mem_singleton_self name)]
  cases frame.offset? name <;> rfl

mutual

/-- The code of a renamed expression is that of the expression itself. -/
theorem Expr.valueCode_rename : ∀ (e : Expr) (pending : Nat), frame.RenamedTo ρ frame' e.names →
    (e.rename ρ).valueCode frame' pending =
      (e.valueCode frame pending).mapError (SemanticError.rename ρ)
  | .num _, _, _ => rfl
  | .var name, pending, h => by
    rw [Expr.rename, Expr.valueCode, Expr.valueCode, mapError_bind, slotCode_rename h]
    rfl
  | .unary .plus operand, pending, h => operand.valueCode_rename pending h
  | .unary .minus operand, pending, h => by
    rw [Expr.rename, Expr.valueCode, Expr.valueCode, mapError_bind,
      operand.valueCode_rename pending h]
    rfl
  | .unary .address operand, pending, h =>
    operand.addressCode_rename pending .notAddressable (fun _ => rfl) h
  | .unary .deref operand, pending, h => by
    rw [Expr.rename, Expr.valueCode, Expr.valueCode, mapError_bind,
      operand.valueCode_rename pending h]
    rfl
  | .binary op lhs rhs, pending, h => by
    obtain ⟨hl, hr⟩ := Frame.renamedTo_append.mp h
    simp only [Expr.rename, Expr.valueCode, mapError_bind, lhs.valueCode_rename pending hl,
      rhs.valueCode_rename (pending + 1) hr]
    rfl
  | .assign lhs rhs, pending, h => by
    obtain ⟨hl, hr⟩ := Frame.renamedTo_append.mp h
    simp only [Expr.rename, Expr.valueCode, mapError_bind,
      lhs.addressCode_rename pending .notAssignable (fun _ => rfl) hl,
      rhs.valueCode_rename (pending + 1) hr]
    rfl
  | .call callee args, pending, h => by
    simp only [Expr.rename, Expr.valueCode, Expr.length_renameAll]
    split
    · rw [mapError_bind, Expr.argumentCode_rename args pending h]
      rfl
    · rfl

theorem Expr.addressCode_rename : ∀ (e : Expr) (pending : Nat) (refuse : Expr → SemanticError),
    (∀ e, refuse (e.rename ρ) = (refuse e).rename ρ) → frame.RenamedTo ρ frame' e.names →
    (e.rename ρ).addressCode frame' pending refuse =
      (e.addressCode frame pending refuse).mapError (SemanticError.rename ρ)
  | .var _, _, _, _, h => slotCode_rename h
  | .unary .deref operand, pending, _, _, h => operand.valueCode_rename pending h
  | .num value, _, _, hr, _ => congrArg Except.error (hr (.num value))
  | .unary .plus operand, _, _, hr, _ => congrArg Except.error (hr (.unary .plus operand))
  | .unary .minus operand, _, _, hr, _ => congrArg Except.error (hr (.unary .minus operand))
  | .unary .address operand, _, _, hr, _ => congrArg Except.error (hr (.unary .address operand))
  | .binary op lhs rhs, _, _, hr, _ => congrArg Except.error (hr (.binary op lhs rhs))
  | .assign lhs rhs, _, _, hr, _ => congrArg Except.error (hr (.assign lhs rhs))
  | .call callee args, _, _, hr, _ => congrArg Except.error (hr (.call callee args))

theorem Expr.argumentCode_rename : ∀ (es : List Expr) (pending : Nat),
    frame.RenamedTo ρ frame' (Expr.namesOfAll es) →
    Expr.argumentCode frame' pending (Expr.renameAll ρ es) =
      (Expr.argumentCode frame pending es).mapError (SemanticError.rename ρ)
  | [], _, _ => rfl
  | e :: es, pending, h => by
    obtain ⟨he, hes⟩ := Frame.renamedTo_append.mp h
    simp only [Expr.renameAll, Expr.argumentCode, mapError_bind, Expr.length_renameAll,
      Expr.argumentCode_rename es pending hes, e.valueCode_rename (pending + es.length) he]
    rfl

end

theorem evaluateCode_rename {e : Expr} (h : frame.RenamedTo ρ frame' e.names) :
    evaluateCode frame' (e.rename ρ) =
      (evaluateCode frame e).mapError (SemanticError.rename ρ) := by
  rw [evaluateCode, evaluateCode, mapError_bind, e.valueCode_rename 0 h]
  rfl

theorem conditionCode_rename {e : Expr} (target : Label)
    (h : frame.RenamedTo ρ frame' e.names) :
    conditionCode frame' (e.rename ρ) target =
      (conditionCode frame e target).mapError (SemanticError.rename ρ) := by
  rw [conditionCode, conditionCode, mapError_bind, evaluateCode_rename h]
  rfl

end Expressions

section Statements

variable {ρ : String → String} {frame frame' : Frame}

mutual

theorem Stmt.code_rename : ∀ (s : Stmt) (before : ConstructCounts),
    frame.RenamedTo ρ frame' s.names →
    (s.rename ρ).code frame' before =
      (s.code frame before).mapError (SemanticError.rename ρ)
  | .expr e, _, h => evaluateCode_rename h
  | .ret e, _, h => by
    rw [Stmt.rename, Stmt.code, Stmt.code, mapError_bind, evaluateCode_rename h]
    rfl
  | .ifThen cond body, before, h => by
    obtain ⟨hc, hb⟩ := Frame.renamedTo_append.mp h
    simp only [Stmt.rename, Stmt.code, mapError_bind, conditionCode_rename _ hc,
      body.code_rename _ hb]
    rfl
  | .ifElse cond body otherwise, before, h => by
    obtain ⟨hcb, ho⟩ := Frame.renamedTo_append.mp h
    obtain ⟨hc, hb⟩ := Frame.renamedTo_append.mp hcb
    simp only [Stmt.rename, Stmt.code, mapError_bind, conditionCode_rename _ hc,
      body.code_rename _ hb, body.counts_rename, otherwise.code_rename _ ho]
    rfl
  | .whileLoop cond body, before, h => by
    obtain ⟨hc, hb⟩ := Frame.renamedTo_append.mp h
    simp only [Stmt.rename, Stmt.code, mapError_bind, conditionCode_rename _ hc,
      body.code_rename _ hb]
    rfl
  | .forLoop init cond step body, before, h => by
    obtain ⟨hics, hb⟩ := Frame.renamedTo_append.mp h
    obtain ⟨hic, hs⟩ := Frame.renamedTo_append.mp hics
    obtain ⟨hi, hc⟩ := Frame.renamedTo_append.mp hic
    simp only [Stmt.rename, Stmt.code, mapError_bind, evaluateCode_rename hi,
      conditionCode_rename _ hc, body.code_rename _ hb, evaluateCode_rename hs]
    rfl
  | .block body, before, h => Stmt.codeOfAll_rename body before h

theorem Stmt.codeOfAll_rename : ∀ (ss : List Stmt) (before : ConstructCounts),
    frame.RenamedTo ρ frame' (Stmt.namesOfAll ss) →
    Stmt.codeOfAll frame' before (Stmt.renameAll ρ ss) =
      (Stmt.codeOfAll frame before ss).mapError (SemanticError.rename ρ)
  | [], _, _ => rfl
  | s :: ss, before, h => by
    obtain ⟨hs, hss⟩ := Frame.renamedTo_append.mp h
    simp only [Stmt.renameAll, Stmt.codeOfAll, mapError_bind, s.code_rename _ hs,
      s.counts_rename, Stmt.codeOfAll_rename ss _ hss]
    rfl

end

theorem spillCode_rename {bindings : List (String × Reg)}
    (h : frame.RenamedTo ρ frame' (bindings.map Prod.fst)) :
    spillCode frame' (bindings.map (Prod.map ρ id)) =
      (spillCode frame bindings).mapError (SemanticError.rename ρ) := by
  induction bindings with
  | nil => rfl
  | cons binding bindings ih =>
    obtain ⟨hparam, hrest⟩ := List.forall_mem_cons.mp h
    obtain ⟨param, reg⟩ := binding
    rw [List.map_cons, Prod.map_apply, spillCode, spillCode, hparam]
    cases frame.offset? param with
    | none => rfl
    | some offset =>
      simp only [mapError_bind, ih hrest]
      rfl

end Statements

section Programs

variable {ρ : String → String} {f : Function} {p q : Program}

theorem Function.frame_rename (f : Function) :
    (f.rename ρ).frame = Frame.ofNames (f.names.map ρ) := by
  rw [Function.frame, f.names_rename]

theorem Function.renamedTo_frame (hρ : Set.InjOn ρ {name | name ∈ f.names}) :
    f.frame.RenamedTo ρ (f.rename ρ).frame f.names := by
  rw [f.frame_rename]
  exact Frame.renamedTo_ofNames hρ

theorem Function.prologue_rename (hρ : Set.InjOn ρ {name | name ∈ f.names}) :
    prologue (f.rename ρ).frame = prologue f.frame := by
  rw [prologue, prologue, f.frame_rename, Frame.byteSize_ofNames_map hρ, Function.frame]

theorem Function.code_rename (hρ : Set.InjOn ρ {name | name ∈ f.names}) (before : ConstructCounts) :
    (f.rename ρ).code before = (f.code before).mapError (SemanticError.rename ρ) := by
  obtain ⟨hparams, hbody⟩ := Frame.renamedTo_append.mp (Function.renamedTo_frame hρ)
  have hbindings : f.frame.RenamedTo ρ (f.rename ρ).frame
      ((f.params.zip argumentRegisters).map Prod.fst) := by
    intro name hname
    obtain ⟨binding, hbinding, rfl⟩ := List.mem_map.mp hname
    exact hparams _ (List.of_mem_zip hbinding).1
  have hzip : (f.rename ρ).params.zip argumentRegisters =
      (f.params.zip argumentRegisters).map (Prod.map ρ id) :=
    List.zip_map_left
  have hlength : (f.rename ρ).params.length = f.params.length :=
    List.length_map _
  have hcode : Stmt.codeOfAll (f.rename ρ).frame before (f.rename ρ).body = _ :=
    Stmt.codeOfAll_rename f.body before hbody
  rw [Function.code, Function.code, hlength, hzip, spillCode_rename hbindings, hcode,
    Function.prologue_rename hρ]
  split
  · simp only [mapError_bind]
    rfl
  · rfl

/-- Renamed programs have the same code or none. -/
theorem codeAfter_renamed (h : p.Renamed q) (before : ConstructCounts) (code : List Line) :
    Program.codeAfter before q = .ok code ↔ Program.codeAfter before p = .ok code := by
  induction h generalizing before code with
  | nil => exact Iff.rfl
  | @cons f g p q hf _ ih =>
    obtain ⟨ρ, hρ, rfl⟩ := hf
    have hcounts : (f.rename ρ).counts = f.counts := Stmt.countsOfAll_rename f.body
    simp only [Program.codeAfter, bind_eq_ok_iff, pure_eq_ok_iff, Function.code_rename hρ,
      mapError_eq_ok_iff, hcounts, ih]

/-- Programs that differ in the names of parameters and variables only have the same listing,
or none. -/
theorem assembly_renamed (h : p.Renamed q) (text : String) :
    q.assembly = .ok text ↔ p.assembly = .ok text := by
  simp only [Program.assembly, assemble, Program.code, map_eq_ok_iff, mapError_eq_ok_iff,
    codeAfter_renamed h 0]

end Programs

/-- A function with a repeated parameter, and a variable that is called like it. -/
def mixing : Function where
  name := "mix"
  params := ["a", "b", "a"]
  body := [
    .expr (.assign (.var "mix") (.unary .address (.var "b"))),
    .whileLoop (.var "a") (.ret (.call "mix" [.var "b", .unary .deref (.var "mix")]))]

/-- The parameters change places, and the variable has the name of a callee. -/
def mixed : String → String
  | "a" => "b"
  | "b" => "a"
  | _ => "main"

theorem mixing_renamed :
    Program.Renamed [mixing, .main [.ret (.var "a")]]
      [mixing.rename mixed, .main [.ret (.var "x")]] ∧
    ∃ text, Program.assembly [mixing, .main [.ret (.var "a")]] = .ok text ∧
      Program.assembly [mixing.rename mixed, .main [.ret (.var "x")]] = .ok text := by
  have hmixed : ∀ name ∈ mixing.names, ∀ other ∈ mixing.names, mixed name = mixed other →
      name = other := by decide
  have hfirst : Set.InjOn mixed {name | name ∈ mixing.names} :=
    fun name hname other hother => hmixed name hname other hother
  have hsecond :
      Set.InjOn (fun _ => "x") {name | name ∈ (Function.main [.ret (.var "a")]).names} := by
    rintro name hname other hother -
    exact (List.mem_singleton.mp hname).trans (List.mem_singleton.mp hother).symm
  have hrenamed : Program.Renamed [mixing, .main [.ret (.var "a")]]
      [mixing.rename mixed, .main [.ret (.var "x")]] :=
    .cons ⟨mixed, hfirst, rfl⟩ (.cons ⟨_, hsecond, rfl⟩ .nil)
  exact ⟨hrenamed, _, rfl, (assembly_renamed hrenamed _).mpr rfl⟩

end MiniC
