import MiniC.Compile
import MiniC.Proofs.Code.Emission

/-! Which programs have no code, and what their errors say. -/
namespace MiniC

/-- Something in a program that has no code, with the error about it and the words of the error. -/
inductive Program.Violation (p : Program) : SemanticError → String → Prop where
  | parameters {f : Function} : f ∈ p → 6 < f.params.length →
      Program.Violation p (.tooManyParameters f.name f.params.length)
        ("function \"" ++ f.name ++ "\" takes " ++ toString f.params.length ++
          " parameters, at most 6 are supported")
  | arguments {f : Function} {callee : String} {args : List Expr} : f ∈ p →
      .call callee args ∈ Stmt.emittedOfAll f.body → 6 < args.length →
      Program.Violation p (.tooManyArguments callee args.length)
        ("call to \"" ++ callee ++ "\" passes " ++ toString args.length ++
          " arguments, at most 6 are supported")
  | target {f : Function} {lhs rhs : Expr} : f ∈ p →
      .assign lhs rhs ∈ Stmt.emittedOfAll f.body → lhs.isPlace = false →
      Program.Violation p (.notAssignable lhs)
        ("left-hand side of assignment is not an lvalue: " ++ lhs.oneLine)
  | operand {f : Function} {e : Expr} : f ∈ p →
      .unary .address e ∈ Stmt.emittedOfAll f.body → e.isPlace = false →
      Program.Violation p (.notAddressable e) ("cannot take the address of " ++ e.oneLine)

section Faults

variable {p : Program} {f : Function} {cause : SemanticError} {text : String}

/-- The words of a limit, which is written out in an error. -/
theorem append_limit (start what : String) :
    start ++ (" " ++ what ++ ", at most ") ++ toString maxArity ++ " are supported" =
      start ++ (" " ++ what ++ ", at most 6 are supported") := by
  have hlimit : ", at most " ++ toString maxArity ++ " are supported" =
      ", at most 6 are supported" :=
    rfl
  rw [← hlimit]
  simp only [String.append_assoc]

theorem message_tooManyParameters (function : String) (count : Nat) :
    (SemanticError.tooManyParameters function count).message =
      "function \"" ++ function ++ "\" takes " ++ toString count ++
        " parameters, at most 6 are supported" :=
  append_limit ("function \"" ++ function ++ "\" takes " ++ toString count) "parameters"

theorem message_tooManyArguments (callee : String) (count : Nat) :
    (SemanticError.tooManyArguments callee count).message =
      "call to \"" ++ callee ++ "\" passes " ++ toString count ++
        " arguments, at most 6 are supported" :=
  append_limit ("call to \"" ++ callee ++ "\" passes " ++ toString count) "arguments"

theorem violation_of_fault {e : Expr} (hf : f ∈ p) (he : e ∈ Stmt.emittedOfAll f.body)
    (h : e.fault? = some cause) : p.Violation cause cause.message := by
  unfold Expr.fault? at h
  split at h
  · split_ifs at h with hlength
    obtain rfl := Option.some.inj h
    rw [message_tooManyArguments]
    exact .arguments hf he (Nat.lt_of_not_le hlength)
  · split_ifs at h with hplace
    obtain rfl := Option.some.inj h
    exact .target hf he (by simpa using hplace)
  · split_ifs at h with hplace
    obtain rfl := Option.some.inj h
    exact .operand hf he (by simpa using hplace)
  · cases h

theorem violation_of_mem_faults (h : cause ∈ p.faults) : p.Violation cause cause.message := by
  obtain ⟨f, hf, hcause⟩ := List.mem_flatMap.mp h
  rcases List.mem_append.mp hcause with hparams | hbody
  · split_ifs at hparams with hlength
    · cases hparams
    · obtain rfl := List.mem_singleton.mp hparams
      rw [message_tooManyParameters]
      exact .parameters hf (Nat.lt_of_not_le hlength)
  · obtain ⟨e, he, hfault⟩ := List.mem_filterMap.mp hbody
    exact violation_of_fault hf he hfault

theorem mem_faults_of_fault {e : Expr} (hf : f ∈ p) (he : e ∈ Stmt.emittedOfAll f.body)
    (h : e.fault? = some cause) : cause ∈ p.faults :=
  List.mem_flatMap.mpr
    ⟨f, hf, List.mem_append_right _ (List.mem_filterMap.mpr ⟨e, he, h⟩)⟩

theorem Program.Violation.mem_faults (h : p.Violation cause text) : cause ∈ p.faults := by
  cases h with
  | @parameters f hf hlength =>
    refine List.mem_flatMap.mpr ⟨f, hf, List.mem_append_left _ ?_⟩
    rw [if_neg (show ¬ f.params.length ≤ maxArity from Nat.not_le.mpr hlength)]
    exact List.mem_singleton_self _
  | arguments hf he hlength => exact mem_faults_of_fault hf he (if_neg (Nat.not_le.mpr hlength))
  | target hf he hplace => exact mem_faults_of_fault hf he (if_neg (by simp [hplace]))
  | operand hf he hplace => exact mem_faults_of_fault hf he (if_neg (by simp [hplace]))

/-- The error of a program is its first fault. -/
theorem assemble_eq_error_iff {error : CompileError} :
    assemble p = .error error ↔ ∃ cause, p.faults.head? = some cause ∧ error = .semantic cause := by
  have hcode : ∀ cause, p.code = .error cause ↔ p.faults.head? = some cause := fun cause =>
    (emits_codeAfter p 0).eq_error_iff
  rw [assemble, mapError_eq_error_iff]
  simp only [hcode, eq_comm]

end Faults

/-- A program has no code if and only if something in it violates what code generation demands. The
error is that of the first violation, in the order in which code is emitted. -/
theorem assemble_refuses (p : Program) :
    ((∃ error, assemble p = .error error) ↔ ∃ cause text, p.Violation cause text) ∧
    ∀ error, assemble p = .error error → ∃ cause, error = .semantic cause ∧
      p.faults.head? = some cause ∧ p.Violation cause error.message := by
  refine ⟨⟨?_, ?_⟩, ?_⟩
  · rintro ⟨error, herror⟩
    obtain ⟨cause, hfirst, -⟩ := assemble_eq_error_iff.mp herror
    exact ⟨cause, _, violation_of_mem_faults (List.mem_of_head? hfirst)⟩
  · rintro ⟨cause, text, hviolation⟩
    have hne := List.ne_nil_of_mem hviolation.mem_faults
    obtain ⟨first, faults, hfaults⟩ := List.exists_cons_of_ne_nil hne
    exact ⟨.semantic first, assemble_eq_error_iff.mpr ⟨first, by rw [hfaults]; rfl, rfl⟩⟩
  · intro error herror
    obtain ⟨cause, hfirst, rfl⟩ := assemble_eq_error_iff.mp herror
    exact ⟨cause, rfl, hfirst, violation_of_mem_faults (List.mem_of_head? hfirst)⟩

/-- Of three violations the one in the body comes first: the step of the loop is emitted after it,
and the arguments of the call from the last on. -/
example :
    let misplaced : Expr := .unary .address (.num 1)
    let crowded : Expr := .call "g" (List.replicate 7 (.num 0))
    assemble [⟨"f", [], [.forLoop (.num 1) (.num 1) misplaced
      (.expr (.call "h" [misplaced, crowded]))]⟩] =
      .error (.semantic (.tooManyArguments "g" 7)) :=
  rfl

end MiniC
