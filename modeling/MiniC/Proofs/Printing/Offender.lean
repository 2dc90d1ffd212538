import MiniC.Proofs.Code.Refusal
import MiniC.Proofs.Printing.OneLine

/-! One-line forms identify expressions.

An error about an expression without an address names the expression by its one-line form, so that
the words of the error tell which expression it is. -/
namespace MiniC

/-- The expression without an address that an error is about. -/
def SemanticError.offender? : SemanticError → Option Expr
  | .notAssignable target => some target
  | .notAddressable operand => some operand
  | _ => none

section Offenders

variable {e e' : Expr} {cause cause' : SemanticError} {p : Program}

theorem Expr.eq_of_oneLine_eq (he : e.HasWordNames) (he' : e'.HasWordNames)
    (h : e.oneLine = e'.oneLine) : e = e' :=
  (oneLineReads e he e' [] [] he' opens_nil opens_nil (by simp only [h])).1

theorem SemanticError.eq_of_message_eq (h : cause.offender? = some e)
    (h' : cause'.offender? = some e') (he : e.HasWordNames) (he' : e'.HasWordNames)
    (hmessage : cause.message = cause'.message) : cause = cause' := by
  have hdiffer (s t : String) :
      "left-hand side of assignment is not an lvalue: " ++ s ≠ "cannot take the address of " ++ t :=
    ne_append_of_take (n := 1) (by decide) (by decide) (by decide) s t
  cases cause with
  | notAssignable target =>
    obtain rfl := Option.some.inj h
    cases cause' with
    | notAssignable target' =>
      obtain rfl := Option.some.inj h'
      rw [Expr.eq_of_oneLine_eq he he' ((String.append_right_inj _).mp hmessage)]
    | notAddressable operand' => exact absurd hmessage (hdiffer _ _)
    | _ => cases h'
  | notAddressable operand =>
    obtain rfl := Option.some.inj h
    cases cause' with
    | notAssignable target' => exact absurd hmessage.symm (hdiffer _ _)
    | notAddressable operand' =>
      obtain rfl := Option.some.inj h'
      rw [Expr.eq_of_oneLine_eq he he' ((String.append_right_inj _).mp hmessage)]
    | _ => cases h'
  | _ => cases h

theorem Expr.hasWordNames_of_isAdmissible (h : e.isAdmissible) : e.HasWordNames := by
  intro x hx
  have hadmissible := e.isAdmissible_of_mem_emitted h x hx
  cases x with
  | var name => exact hadmissible
  | call callee args =>
    simp only [Expr.isAdmissible, Bool.and_eq_true] at hadmissible
    exact hadmissible.1.1
  | _ => rfl

/-- What is wrong with a program within the limits is an expression without an address. -/
theorem exists_offender_of_mem_faults (h : ∀ f ∈ p, f.isAdmissible) (hcause : cause ∈ p.faults) :
    ∃ e, cause.offender? = some e ∧ e.HasWordNames := by
  have hinner {f : Function} {x : Expr} (hf : f ∈ p) (hx : x ∈ Stmt.emittedOfAll f.body) :
      x.isAdmissible :=
    Stmt.isAdmissible_of_mem_emittedOfAll _ (Bool.and_eq_true_iff.mp (h f hf)).2 x hx
  obtain ⟨text, hviolation⟩ : ∃ text, p.Violation cause text := ⟨_, violation_of_mem_faults hcause⟩
  cases isMisplaced_of_mem_faults h hcause with
  | @notAssignable target _ =>
    cases hviolation with
    | target hf hmem _ =>
      have hassign := Bool.and_eq_true_iff.mp (hinner hf hmem)
      exact ⟨target, rfl, Expr.hasWordNames_of_isAdmissible hassign.1⟩
  | @notAddressable operand _ =>
    cases hviolation with
    | operand hf hmem _ =>
      have hoperand : operand.isAdmissible :=
        hinner (x := .unary .address operand) hf hmem
      exact ⟨operand, rfl, Expr.hasWordNames_of_isAdmissible hoperand⟩

theorem exists_offender_of_compile {dialect : Dialect} {source : String}
    (h : compile dialect source = .error (.semantic cause)) :
    ∃ e, cause.offender? = some e ∧ e.HasWordNames := by
  rw [compile] at h
  rcases bind_eq_error_iff.mp h with htokens | ⟨tokens, -, h⟩
  · obtain ⟨_, -, hkind⟩ := mapError_eq_error_iff.mp htokens
    cases hkind
  rcases bind_eq_error_iff.mp h with hparse | ⟨p, hparse, h⟩
  · obtain ⟨_, -, hkind⟩ := mapError_eq_error_iff.mp hparse
    cases hkind
  rcases bind_eq_error_iff.mp h with hcode | ⟨code, -, h⟩
  · obtain ⟨first, hfirst, heq⟩ := assemble_eq_error_iff.mp hcode
    cases heq
    have hderives := derives_of_parse (mapError_eq_ok_iff.mp hparse)
    exact exists_offender_of_mem_faults hderives.isAdmissible (List.mem_of_head? hfirst)
  · cases h

end Offenders

/-- The one-line form of an expression identifies it. So the words of an error about an expression
without an address tell the expression and what it was needed for, and sources whose compilations
fail with the same such words have the same expression at fault. -/
theorem oneLine_identifies :
    Set.InjOn Expr.oneLine {e | e.HasWordNames} ∧
    Set.InjOn SemanticError.message {cause | ∃ e, cause.offender? = some e ∧ e.HasWordNames} ∧
    ∀ dialect dialect' source source' cause cause',
      compile dialect source = .error (.semantic cause) →
      compile dialect' source' = .error (.semantic cause') → cause.message = cause'.message →
      ∃ e, cause.offender? = some e ∧ cause'.offender? = some e := by
  refine ⟨fun _ he _ he' => Expr.eq_of_oneLine_eq he he', ?_, ?_⟩
  · rintro cause ⟨e, h, he⟩ cause' ⟨e', h', he'⟩ hmessage
    exact SemanticError.eq_of_message_eq h h' he he' hmessage
  · intro dialect dialect' source source' cause cause' h h' hmessage
    obtain ⟨e, hoffender, he⟩ := exists_offender_of_compile h
    obtain ⟨e', hoffender', he'⟩ := exists_offender_of_compile h'
    obtain rfl := SemanticError.eq_of_message_eq hoffender hoffender' he he' hmessage
    exact ⟨e, hoffender, hoffender⟩

/-- A literal with a sign is not taken for a sign before a literal, and two sources share the second
as the expression at fault. -/
theorem negation_identified :
    (Expr.num (-1)).oneLine ≠ (Expr.unary .minus (.num 1)).oneLine ∧
    ∃ cause cause', compile .expression "f(&(-1))" = .error (.semantic cause) ∧
      compile .functions "g(a) \x7b return a + &(- 1); \x7d" = .error (.semantic cause') ∧
      cause.message = "cannot take the address of (- 1)" ∧ cause'.message = cause.message ∧
      ∃ e, cause.offender? = some e ∧ cause'.offender? = some e := by
  have hwords : ∀ e ∈ [Expr.num (-1), .unary .minus (.num 1)], e.HasWordNames := by
    unfold Expr.HasWordNames
    decide
  have hform : (Expr.num (-1)).oneLine ≠ (Expr.unary .minus (.num 1)).oneLine := by
    intro h
    have hsame := oneLine_identifies.1 (hwords _ (by simp)) (hwords _ (by simp)) h
    cases hsame
  let cause : SemanticError := .notAddressable (.unary .minus (.num 1))
  have h : compile .expression "f(&(-1))" = .error (.semantic cause) := by cbv
  have h' : compile .functions "g(a) \x7b return a + &(- 1); \x7d" = .error (.semantic cause) := by
    cbv
  have hmessage : cause.message = "cannot take the address of (- 1)" := by decide +kernel
  have hsame := oneLine_identifies.2.2 _ _ _ _ cause cause h h' rfl
  exact ⟨hform, cause, cause, h, h', hmessage, rfl, hsame⟩

end MiniC
