import MiniC.Proofs.Evaluation

/-! An evaluation has at most one result, however much fuel and depth it is given. -/
namespace MiniC

variable {p : Program} {fuel fuel' depth depth' : Nat}

/-- Evaluations with less fuel and depth have the results of those with more. -/
structure EvaluatesMore (p : Program) (fuel depth fuel' depth' : Nat) : Prop where
  expr : ∀ {env e r}, Expr.eval p fuel depth env e = some r → e.eval p fuel' depth' env = some r
  arguments : ∀ {env args r}, Expr.evalArguments p fuel depth env args = some r →
    Expr.evalArguments p fuel' depth' env args = some r
  call : ∀ {callee args v}, p.evalCall fuel depth callee args = some v →
    p.evalCall fuel' depth' callee args = some v
  stmt : ∀ {env s r}, Stmt.eval p fuel depth env s = some r → s.eval p fuel' depth' env = some r
  loop : ∀ {env cond body step r}, Stmt.evalLoop p fuel depth env cond body step = some r →
    Stmt.evalLoop p fuel' depth' env cond body step = some r
  all : ∀ {env ss r}, Stmt.evalAll p fuel depth env ss = some r →
    Stmt.evalAll p fuel' depth' env ss = some r

namespace EvaluatesMore

variable {env : Env}

theorem expr_succ (h : EvaluatesMore p fuel depth fuel' depth') {e : Expr} {r : Int64 × Env}
    (he : e.eval p (fuel + 1) depth env = some r) :
    e.eval p (fuel' + 1) depth' env = some r := by
  obtain ⟨v, env'⟩ := r
  match e with
  | .num w => exact he
  | .var name => exact he
  | .unary .plus e =>
    rw [Expr.eval]
    exact h.expr (eval_plus he)
  | .unary .minus e =>
    obtain ⟨w, hw, rfl⟩ := eval_minus he
    simp [Expr.eval, h.expr hw]
  | .unary .address e => cases he
  | .unary .deref e => cases he
  | .binary op lhs rhs =>
    obtain ⟨a, mid, b, ha, hb, hop⟩ := eval_binary he
    simp [Expr.eval, h.expr ha, h.expr hb, hop]
  | .assign lhs rhs =>
    obtain ⟨name, mid, rfl, hv, rfl⟩ := eval_assign he
    simp [Expr.eval, h.expr hv]
  | .call callee args =>
    obtain ⟨values, hvalues, hv⟩ := eval_call he
    simp [Expr.eval, h.arguments hvalues, h.call hv]

theorem arguments_succ (h : EvaluatesMore p fuel depth fuel' depth') {args : List Expr}
    {r : List Int64 × Env} (hargs : Expr.evalArguments p (fuel + 1) depth env args = some r) :
    Expr.evalArguments p (fuel' + 1) depth' env args = some r := by
  obtain ⟨values, env'⟩ := r
  cases args with
  | nil => exact hargs
  | cons arg args =>
    obtain ⟨later, mid, w, hl, hw, rfl⟩ := evalArguments_cons hargs
    simp [Expr.evalArguments, h.arguments hl, h.expr hw]

theorem stmt_succ (h : EvaluatesMore p fuel depth fuel' depth') {s : Stmt} {r : Flow}
    (hs : s.eval p (fuel + 1) depth env = some r) :
    s.eval p (fuel' + 1) depth' env = some r := by
  cases s with
  | expr e =>
    obtain ⟨w, env', he, rfl⟩ := eval_expr hs
    simp [Stmt.eval, h.expr he]
  | ret e =>
    obtain ⟨w, env', he, rfl⟩ := eval_ret hs
    simp [Stmt.eval, h.expr he]
  | ifThen cond body =>
    obtain ⟨w, mid, hcond, ⟨hzero, rfl⟩ | ⟨hne, hbody⟩⟩ := eval_ifThen hs
    · simp [Stmt.eval, h.expr hcond, hzero]
    · simp [Stmt.eval, h.expr hcond, hne, h.stmt hbody]
  | ifElse cond body otherwise =>
    obtain ⟨w, mid, hcond, ⟨hzero, hbody⟩ | ⟨hne, hbody⟩⟩ := eval_ifElse hs
    · simp [Stmt.eval, h.expr hcond, hzero, h.stmt hbody]
    · simp [Stmt.eval, h.expr hcond, hne, h.stmt hbody]
  | whileLoop cond body =>
    rw [Stmt.eval]
    exact h.loop (eval_whileLoop hs)
  | forLoop init cond step body =>
    obtain ⟨w, mid, hinit, hloop⟩ := eval_forLoop hs
    simp [Stmt.eval, h.expr hinit, h.loop hloop]
  | block body =>
    rw [Stmt.eval]
    exact h.all (eval_block hs)

theorem loop_succ (h : EvaluatesMore p fuel depth fuel' depth') {cond : Expr} {body : Stmt}
    {step : Option Expr} {r : Flow}
    (hloop : Stmt.evalLoop p (fuel + 1) depth env cond body step = some r) :
    Stmt.evalLoop p (fuel' + 1) depth' env cond body step = some r := by
  obtain ⟨w, mid, hcond, hrest⟩ := evalLoop_eq_some hloop
  rcases hrest with ⟨hzero, rfl⟩ | ⟨hne, inner, hbody, hrest⟩
  · simp [Stmt.evalLoop, h.expr hcond, hzero]
  rcases hrest with ⟨v, rfl, rfl⟩ | ⟨env₁, env₂, rfl, hstep, hagain⟩
  · simp [Stmt.evalLoop, h.expr hcond, hne, h.stmt hbody]
  cases step with
  | none =>
    obtain rfl := Option.some.inj hstep
    simp [Stmt.evalLoop, h.expr hcond, hne, h.stmt hbody, h.loop hagain]
  | some e =>
    obtain ⟨⟨a, env'⟩, he, rfl⟩ := Option.map_eq_some_iff.mp hstep
    simp [Stmt.evalLoop, h.expr hcond, hne, h.stmt hbody, h.expr he, h.loop hagain]

theorem all_succ (h : EvaluatesMore p fuel depth fuel' depth') {ss : List Stmt} {r : Flow}
    (hss : Stmt.evalAll p (fuel + 1) depth env ss = some r) :
    Stmt.evalAll p (fuel' + 1) depth' env ss = some r := by
  cases ss with
  | nil => exact hss
  | cons s ss =>
    rcases evalAll_cons hss with ⟨v, hs, rfl⟩ | ⟨mid, hs, hrest⟩
    · simp [Stmt.evalAll, h.stmt hs]
    · simp [Stmt.evalAll, h.stmt hs, h.all hrest]

end EvaluatesMore

theorem evaluatesMore (hfuel : fuel ≤ fuel') (hdepth : depth ≤ depth') :
    EvaluatesMore p fuel depth fuel' depth' := by
  induction fuel generalizing fuel' depth depth' with
  | zero => constructor <;> intros <;> contradiction
  | succ fuel ih =>
    obtain ⟨more, rfl⟩ := Nat.exists_eq_add_of_le' (Nat.one_le_of_lt hfuel)
    have hle : fuel ≤ more := Nat.le_of_succ_le_succ hfuel
    have h := ih hle hdepth
    refine ⟨h.expr_succ, h.arguments_succ, ?_, h.stmt_succ, h.loop_succ, h.all_succ⟩
    intro callee args v hcall
    obtain ⟨inner, f, rfl, hf, hlength, hbody⟩ := evalCall_eq_some hcall
    obtain ⟨inner', rfl⟩ := Nat.exists_eq_add_of_le' (Nat.one_le_of_lt hdepth)
    have hinner : inner ≤ inner' := Nat.le_of_succ_le_succ hdepth
    have hall := (ih hle hinner).all hbody
    simp [Program.evalCall, hf, hlength, hall]

/-- A call has at most one value. -/
theorem evalCall_unique {callee : String} {args : List Int64} {v w : Int64}
    (hv : p.evalCall fuel depth callee args = some v)
    (hw : p.evalCall fuel' depth' callee args = some w) : v = w := by
  have hv' := (evaluatesMore (Nat.le_max_left fuel fuel') (Nat.le_max_left depth depth')).call hv
  have hw' := (evaluatesMore (Nat.le_max_right fuel fuel') (Nat.le_max_right depth depth')).call hw
  exact Option.some.inj (hv'.symm.trans hw')

end MiniC
