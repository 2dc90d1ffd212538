import MiniC.Proofs.Grammar.Soundness
import MiniC.Proofs.Printing.Render

/-! What the parser promises about the programs that it returns. Code generation makes the same
demands once more, on its own. -/
namespace MiniC

mutual

/-- Whether names are identifiers, literals have no sign, and no call has too many arguments. -/
def Expr.isAdmissible : Expr → Bool
  | .num value => decide (0 ≤ value.toInt) && decide (value.toInt ≤ 2 ^ 63 - 1)
  | .var name => Token.isWord name
  | .unary _ operand => operand.isAdmissible
  | .binary _ lhs rhs => lhs.isAdmissible && rhs.isAdmissible
  | .assign lhs rhs => lhs.isAdmissible && rhs.isAdmissible
  | .call callee args =>
    Token.isWord callee && decide (args.length ≤ maxArity) && Expr.allAdmissible args

def Expr.allAdmissible : List Expr → Bool
  | [] => true
  | e :: es => e.isAdmissible && Expr.allAdmissible es

end

mutual

/-- Whether the expressions of a statement are admissible, and no `else` stands where it would
belong to an `if` further inside. -/
def Stmt.isAdmissible : Stmt → Bool
  | .expr e => e.isAdmissible
  | .ret e => e.isAdmissible
  | .ifThen cond body => cond.isAdmissible && body.isAdmissible
  | .ifElse cond body otherwise =>
    cond.isAdmissible && body.isAdmissible && !body.endsInIf && otherwise.isAdmissible
  | .whileLoop cond body => cond.isAdmissible && body.isAdmissible
  | .forLoop init cond step body =>
    init.isAdmissible && cond.isAdmissible && step.isAdmissible && body.isAdmissible
  | .block body => Stmt.allAdmissible body

def Stmt.allAdmissible : List Stmt → Bool
  | [] => true
  | s :: ss => s.isAdmissible && Stmt.allAdmissible ss

end

def Function.isAdmissible (f : Function) : Bool :=
  Token.isWord f.name && f.params.all Token.isWord && decide (f.params.length ≤ maxArity) &&
    Stmt.allAdmissible f.body

theorem Expr.allAdmissible_of_forall {es : List Expr} (h : ∀ e ∈ es, e.isAdmissible) :
    Expr.allAdmissible es := by
  induction es with
  | nil => rfl
  | cons e es ih =>
    obtain ⟨he, hes⟩ := List.forall_mem_cons.mp h
    rw [allAdmissible, he, ih hes]
    rfl

theorem Expr.Derives.isAdmissible {l : Level} {ts : List String} {e : Expr}
    (h : Expr.Derives l ts e) : e.isAdmissible := by
  induction h with
  | next _ _ ih => exact ih
  | binary _ _ _ _ iha ihb => simp [Expr.isAdmissible, iha, ihb]
  | assign _ _ iha ihb => simp [Expr.isAdmissible, iha, ihb]
  | unary _ _ ih => exact ih
  | brackets _ ih => exact ih
  | var hname => exact isIdentifier_iff.mp hname
  | num _ hn =>
    have hvalue := Int64.toInt_ofNat_of_lt (Nat.lt_of_le_sub_one (by decide) hn)
    simp [Expr.isAdmissible, hvalue]
    omega
  | call hname hlength _ ih =>
    have hargs := Expr.allAdmissible_of_forall (List.forall_mem_map.mpr ih)
    simp [Expr.isAdmissible, isIdentifier_iff.mp hname, hargs, maxArity, hlength]

theorem Expr.DerivesClause.isAdmissible {ts : List String} {e : Expr}
    (h : Expr.DerivesClause ts e) : e.isAdmissible := by
  cases h with
  | empty => rfl
  | expression h => exact h.isAdmissible

/-- An `if` takes the `else` that follows it, so what stands before an `else` does not end in an
`if` without one. -/
theorem Stmt.Derives.endsInIf {ts : List String} (s : Stmt)
    (h : Stmt.Derives (some "else") ts s) : s.endsInIf = false := by
  cases h with
  | block _ => rfl
  | ret _ => rfl
  | ifThen _ _ hne => exact absurd rfl hne
  | ifElse _ _ hotherwise =>
    rw [Stmt.endsInIf]
    exact Stmt.Derives.endsInIf _ hotherwise
  | forLoop _ _ _ hbody =>
    rw [Stmt.endsInIf]
    exact Stmt.Derives.endsInIf _ hbody
  | whileLoop _ hbody =>
    rw [Stmt.endsInIf]
    exact Stmt.Derives.endsInIf _ hbody
  | expression _ _ => rfl

mutual

theorem Stmt.Derives.isAdmissible {following : Option String} {ts : List String} (s : Stmt)
    (h : Stmt.Derives following ts s) : s.isAdmissible := by
  cases h with
  | block h => exact Stmt.DerivesAll.allAdmissible _ h
  | ret h => exact h.isAdmissible
  | ifThen hcond hbody _ =>
    simp [Stmt.isAdmissible, hcond.isAdmissible, Stmt.Derives.isAdmissible _ hbody]
  | ifElse hcond hbody hotherwise =>
    simp [Stmt.isAdmissible, hcond.isAdmissible, Stmt.Derives.isAdmissible _ hbody,
      Stmt.Derives.endsInIf _ hbody, Stmt.Derives.isAdmissible _ hotherwise]
  | forLoop hinit hcond hstep hbody =>
    simp [Stmt.isAdmissible, hinit.isAdmissible, hcond.isAdmissible, hstep.isAdmissible,
      Stmt.Derives.isAdmissible _ hbody]
  | whileLoop hcond hbody =>
    simp [Stmt.isAdmissible, hcond.isAdmissible, Stmt.Derives.isAdmissible _ hbody]
  | expression h _ => exact h.isAdmissible

theorem Stmt.DerivesAll.allAdmissible {following : Option String} {ts : List String}
    (ss : List Stmt) (h : Stmt.DerivesAll following ts ss) : Stmt.allAdmissible ss := by
  cases h with
  | nil => rfl
  | cons hfirst hrest =>
    simp [Stmt.allAdmissible, Stmt.Derives.isAdmissible _ hfirst,
      Stmt.DerivesAll.allAdmissible _ hrest]

end

theorem Function.Derives.isAdmissible {ts : List String} {f : Function}
    (h : Function.Derives ts f) : f.isAdmissible := by
  obtain ⟨hname, hparams, hlength, hbody⟩ := h
  have hwords : ∀ param ∈ _, Token.isWord param :=
    fun param hparam => isIdentifier_iff.mp (hparams param hparam)
  simpa [Function.isAdmissible, isIdentifier_iff.mp hname, maxArity, hlength,
    Stmt.DerivesAll.allAdmissible _ hbody] using hwords

theorem Function.DerivesAll.isAdmissible {ts : List String} {fs : List Function}
    (h : Function.DerivesAll ts fs) : ∀ f ∈ fs, f.isAdmissible := by
  induction h with
  | nil => exact List.forall_mem_nil _
  | cons hfirst _ ih => exact List.forall_mem_cons.mpr ⟨hfirst.isAdmissible, ih⟩

theorem Function.isAdmissible_main {body : List Stmt} (h : Stmt.allAdmissible body) :
    (Function.main body).isAdmissible := by
  simp [Function.isAdmissible, Function.main, h]
  decide

theorem Program.Derives.isAdmissible {dialect : Dialect} {ts : List String} {p : Program}
    (h : Program.Derives dialect ts p) : ∀ f ∈ p, f.isAdmissible := by
  cases h with
  | @expression _ e h =>
    have hbody : Stmt.allAdmissible [.ret e] := by
      simpa [Stmt.allAdmissible, Stmt.isAdmissible] using h.isAdmissible
    simpa using Function.isAdmissible_main hbody
  | statements h => simpa using Function.isAdmissible_main (Stmt.DerivesAll.allAdmissible _ h)
  | functions h => exact h.isAdmissible

end MiniC
