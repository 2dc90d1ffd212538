import MiniC.Proofs.Code.Faults
import MiniC.Proofs.Grammar.Admission
import MiniC.Proofs.Grammar.Completeness

/-! The only errors of code generation for a program from the parser: an expression without an
address is assigned to or has its address taken. -/
namespace MiniC

/-- An expression stands where an address is needed, and has none. -/
inductive SemanticError.IsMisplaced : SemanticError → Prop where
  | notAssignable {e : Expr} : e.isPlace = false → IsMisplaced (.notAssignable e)
  | notAddressable {e : Expr} : e.isPlace = false → IsMisplaced (.notAddressable e)

section Admissible

mutual

theorem Expr.isAdmissible_of_mem_emitted : ∀ e : Expr, e.isAdmissible →
    ∀ e' ∈ e.emitted, e'.isAdmissible
  | .num _, h => List.forall_mem_singleton.mpr h
  | .var _, h => List.forall_mem_singleton.mpr h
  | .unary _ operand, h =>
    List.forall_mem_cons.mpr ⟨h, Expr.isAdmissible_of_mem_emitted operand h⟩
  | .binary _ lhs rhs, h => by
    obtain ⟨hl, hr⟩ := Bool.and_eq_true_iff.mp h
    exact List.forall_mem_cons.mpr ⟨h, List.forall_mem_append.mpr
      ⟨Expr.isAdmissible_of_mem_emitted lhs hl, Expr.isAdmissible_of_mem_emitted rhs hr⟩⟩
  | .assign lhs rhs, h => by
    obtain ⟨hl, hr⟩ := Bool.and_eq_true_iff.mp h
    exact List.forall_mem_cons.mpr ⟨h, List.forall_mem_append.mpr
      ⟨Expr.isAdmissible_of_mem_emitted lhs hl, Expr.isAdmissible_of_mem_emitted rhs hr⟩⟩
  | .call _ args, h =>
    List.forall_mem_cons.mpr
      ⟨h, Expr.isAdmissible_of_mem_emittedOfAll args (Bool.and_eq_true_iff.mp h).2⟩

theorem Expr.isAdmissible_of_mem_emittedOfAll : ∀ es : List Expr, Expr.allAdmissible es →
    ∀ e' ∈ Expr.emittedOfAll es, e'.isAdmissible
  | [], _ => List.forall_mem_nil _
  | e :: es, h => by
    obtain ⟨hfirst, hrest⟩ := Bool.and_eq_true_iff.mp h
    exact List.forall_mem_append.mpr ⟨Expr.isAdmissible_of_mem_emittedOfAll es hrest,
      Expr.isAdmissible_of_mem_emitted e hfirst⟩

end

mutual

theorem Stmt.isAdmissible_of_mem_emitted : ∀ s : Stmt, s.isAdmissible →
    ∀ e ∈ s.emitted, e.isAdmissible
  | .expr e, h => e.isAdmissible_of_mem_emitted h
  | .ret e, h => e.isAdmissible_of_mem_emitted h
  | .ifThen cond body, h => by
    obtain ⟨hc, hb⟩ := Bool.and_eq_true_iff.mp h
    exact List.forall_mem_append.mpr
      ⟨cond.isAdmissible_of_mem_emitted hc, Stmt.isAdmissible_of_mem_emitted body hb⟩
  | .ifElse cond body otherwise, h => by
    simp only [Stmt.isAdmissible, Bool.and_eq_true] at h
    obtain ⟨⟨⟨hc, hb⟩, -⟩, ho⟩ := h
    exact List.forall_mem_append.mpr ⟨cond.isAdmissible_of_mem_emitted hc,
      List.forall_mem_append.mpr ⟨Stmt.isAdmissible_of_mem_emitted body hb,
        Stmt.isAdmissible_of_mem_emitted otherwise ho⟩⟩
  | .whileLoop cond body, h => by
    obtain ⟨hc, hb⟩ := Bool.and_eq_true_iff.mp h
    exact List.forall_mem_append.mpr
      ⟨cond.isAdmissible_of_mem_emitted hc, Stmt.isAdmissible_of_mem_emitted body hb⟩
  | .forLoop init cond step body, h => by
    simp only [Stmt.isAdmissible, Bool.and_eq_true] at h
    obtain ⟨⟨⟨hi, hc⟩, hs⟩, hb⟩ := h
    exact List.forall_mem_append.mpr ⟨init.isAdmissible_of_mem_emitted hi,
      List.forall_mem_append.mpr ⟨cond.isAdmissible_of_mem_emitted hc,
        List.forall_mem_append.mpr ⟨Stmt.isAdmissible_of_mem_emitted body hb,
          step.isAdmissible_of_mem_emitted hs⟩⟩⟩
  | .block body, h => Stmt.isAdmissible_of_mem_emittedOfAll body h

theorem Stmt.isAdmissible_of_mem_emittedOfAll : ∀ ss : List Stmt, Stmt.allAdmissible ss →
    ∀ e ∈ Stmt.emittedOfAll ss, e.isAdmissible
  | [], _ => List.forall_mem_nil _
  | s :: ss, h => by
    obtain ⟨hfirst, hrest⟩ := Bool.and_eq_true_iff.mp h
    exact List.forall_mem_append.mpr ⟨Stmt.isAdmissible_of_mem_emitted s hfirst,
      Stmt.isAdmissible_of_mem_emittedOfAll ss hrest⟩

end

/-- Within the limits only the places of expressions can be wrong. -/
theorem isMisplaced_of_mem_faults {p : Program} (h : ∀ f ∈ p, f.isAdmissible)
    {cause : SemanticError} (hcause : cause ∈ p.faults) : cause.IsMisplaced := by
  obtain ⟨text, hviolation⟩ : ∃ text, p.Violation cause text := ⟨_, violation_of_mem_faults hcause⟩
  cases hviolation with
  | @parameters f hf hlength =>
    have hadmissible := h f hf
    simp only [Function.isAdmissible, Bool.and_eq_true, decide_eq_true_eq] at hadmissible
    exact absurd hadmissible.1.2 (Nat.not_le.mpr hlength)
  | @arguments f callee args hf he hlength =>
    have hbody := (Bool.and_eq_true_iff.mp (h f hf)).2
    have hcall := Stmt.isAdmissible_of_mem_emittedOfAll _ hbody _ he
    simp only [Expr.isAdmissible, Bool.and_eq_true, decide_eq_true_eq] at hcall
    exact absurd hcall.1.2 (Nat.not_le.mpr hlength)
  | target _ _ hplace => exact .notAssignable hplace
  | operand _ _ hplace => exact .notAddressable hplace

theorem onlyMisplaced_codeAfter {fs : List Function} (h : ∀ f ∈ fs, f.isAdmissible)
    (before : ConstructCounts) :
    ErrorsIn SemanticError.IsMisplaced (Program.codeAfter before fs) := fun _ hcause =>
  isMisplaced_of_mem_faults h
    (List.mem_of_head? ((emits_codeAfter fs before).eq_error_iff.mp hcause))

end Admissible

/-- How the errors begin that programs from the parser do not have. The last one belongs to no error
at all. -/
def limitMessages : List String :=
  ["function \"", "call to \"", "no stack slot for \"", "cannot load from "]

theorem ne_append_of_take {s t : String} {n : Nat} (hs : n ≤ s.toList.length)
    (ht : n ≤ t.toList.length) (h : s.toList.take n ≠ t.toList.take n) (rest rest' : String) :
    s ++ rest ≠ t ++ rest' := by
  intro he
  have htake := congrArg (fun text => text.toList.take n) he
  simp only [String.toList_append, List.take_append_of_le_length hs,
    List.take_append_of_le_length ht] at htake
  exact h htake

theorem SemanticError.IsMisplaced.message {cause : SemanticError} (h : cause.IsMisplaced) :
    (∃ e : Expr, e.isPlace = false ∧
      (cause.message = "left-hand side of assignment is not an lvalue: " ++ e.oneLine ∨
        cause.message = "cannot take the address of " ++ e.oneLine)) ∧
    ∀ start ∈ limitMessages, ∀ rest, cause.message ≠ start ++ rest := by
  -- Eight characters tell the two messages from all others.
  have hstart : ∀ text ∈ ["left-hand side of assignment is not an lvalue: ",
      "cannot take the address of "], ∀ start ∈ limitMessages, 8 ≤ text.toList.length ∧
      8 ≤ start.toList.length ∧ text.toList.take 8 ≠ start.toList.take 8 := by
    decide +kernel
  cases h with
  | @notAssignable e he =>
    refine ⟨⟨e, he, .inl rfl⟩, fun start hmem => ?_⟩
    obtain ⟨htext, hlength, hne⟩ := hstart _ List.mem_cons_self start hmem
    exact ne_append_of_take htext hlength hne _
  | @notAddressable e he =>
    refine ⟨⟨e, he, .inr rfl⟩, fun start hmem => ?_⟩
    obtain ⟨htext, hlength, hne⟩ := hstart _ (List.mem_cons_of_mem _ List.mem_cons_self) start hmem
    exact ne_append_of_take htext hlength hne _

/-- A program from the parser is within the limits of code generation, and if it has no code, then
the message says that an expression has no address. -/
theorem parseTokens_admissible {source : String} {dialect : Dialect} {tokens : List Token}
    {p : Program} (h : parseTokens source dialect tokens = .ok p) :
    (∀ f ∈ p, f.isAdmissible) ∧ ∀ error, assemble p = .error error →
      (∃ e : Expr, e.isPlace = false ∧
        (error.message = "left-hand side of assignment is not an lvalue: " ++ e.oneLine ∨
          error.message = "cannot take the address of " ++ e.oneLine)) ∧
      ∀ start ∈ limitMessages, ∀ rest, error.message ≠ start ++ rest := by
  have hadmissible := (derives_of_parse (mapError_eq_ok_iff.mp h)).isAdmissible
  refine ⟨hadmissible, fun error herror => ?_⟩
  obtain ⟨cause, hcause, rfl⟩ := mapError_eq_error_iff.mp herror
  exact (onlyMisplaced_codeAfter hadmissible 0 cause hcause).message

/-- A function without code, as it takes the address of a number. -/
def misplacing : Function where
  name := "pick"
  params := ["a"]
  body := [
    .ifElse (.var "a") (.whileLoop (.var "a") (.ret (.call "pick" [.unary .address (.num 1)])))
      (.ret (.var "a"))]

theorem misplacing_refused : ∃ tokens error,
    parseTokens "" .functions tokens = .ok [misplacing] ∧ misplacing.isAdmissible ∧
    assemble [misplacing] = .error error ∧ error.message = "cannot take the address of 1" ∧
    ∀ start ∈ limitMessages, ∀ rest, error.message ≠ start ++ rest := by
  have hderives : Program.Derives .functions (Program.texts [misplacing]) [misplacing] :=
    Program.derives_texts (by decide)
  obtain ⟨tokens, htokens⟩ := exists_parse_of_derives hderives
  have hparse : parseTokens "" .functions tokens = .ok [misplacing] :=
    mapError_eq_ok_iff.mpr htokens
  have herror : assemble [misplacing] =
      .error (.semantic (.notAddressable (.num 1))) := rfl
  obtain ⟨hadmissible, hrefused⟩ := parseTokens_admissible hparse
  exact ⟨tokens, _, hparse, hadmissible misplacing List.mem_cons_self, herror, by decide +kernel,
    (hrefused _ herror).2⟩

end MiniC
