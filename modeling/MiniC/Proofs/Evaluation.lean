import Mathlib
import MiniC.Program.Basic

/-! A big-step evaluator of programs without pointers.

Every activation of a function has one flat environment. `fuel` bounds the steps of an evaluation
and `depth` the activations that are open at the same time. An evaluation without a result has run
out of either, or its meaning is undefined: a division faults, a variable is read that was never
assigned, a function ends without a `return`, a call has no matching definition, or a pointer is
used. -/
namespace MiniC

/-- The values of the variables of an activation. -/
abbrev Env := String → Option Int64

namespace Env

def empty : Env :=
  fun _ => none

def assign (env : Env) (name : String) (value : Int64) : Env :=
  Function.update env name (some value)

/-- Binds parameters in order, so that a repeated name keeps its last argument. -/
def bind (env : Env) (bindings : List (String × Int64)) : Env :=
  bindings.foldl (fun env b => env.assign b.1 b.2) env

end Env

/-- The combination of two values. Arithmetic wraps around, division truncates and is undefined
for a zero divisor and where the quotient is too large. -/
def BinOp.eval : BinOp → Int64 → Int64 → Option Int64
  | add, a, b => some (a + b)
  | sub, a, b => some (a - b)
  | mul, a, b => some (a * b)
  | div, a, b => if b = 0 ∨ a = Int64.minValue ∧ b = -1 then none else some (a / b)
  | eq, a, b => some (if a = b then 1 else 0)
  | ne, a, b => some (if a ≠ b then 1 else 0)
  | lt, a, b => some (if a < b then 1 else 0)
  | le, a, b => some (if a ≤ b then 1 else 0)
  | gt, a, b => some (if b < a then 1 else 0)
  | ge, a, b => some (if b ≤ a then 1 else 0)

/-- How the evaluation of a statement ends. -/
inductive Flow where
  | next (env : Env)
  | returned (value : Int64)

mutual

/-- The value of an expression, and the environment after it. Operands are evaluated from left to
right. -/
def Expr.eval (p : Program) (fuel depth : Nat) (env : Env) (e : Expr) : Option (Int64 × Env) :=
  match fuel, e with
  | 0, _ => none
  | _ + 1, .num value => some (value, env)
  | _ + 1, .var name => (env name).map fun value => (value, env)
  | fuel + 1, .unary .plus operand => operand.eval p fuel depth env
  | fuel + 1, .unary .minus operand => do
    let (value, env) ← operand.eval p fuel depth env
    return (-value, env)
  | _ + 1, .unary .address _ => none
  | _ + 1, .unary .deref _ => none
  | fuel + 1, .binary op lhs rhs => do
    let (a, env) ← lhs.eval p fuel depth env
    let (b, env) ← rhs.eval p fuel depth env
    return (← op.eval a b, env)
  | fuel + 1, .assign (.var name) rhs => do
    let (value, env) ← rhs.eval p fuel depth env
    return (value, env.assign name value)
  | _ + 1, .assign _ _ => none
  | fuel + 1, .call callee args => do
    let (values, env) ← Expr.evalArguments p fuel depth env args
    return (← Program.evalCall p fuel depth callee values, env)
termination_by structural fuel

/-- The values of arguments, which are evaluated from the last to the first. -/
def Expr.evalArguments (p : Program) (fuel depth : Nat) (env : Env) (args : List Expr) :
    Option (List Int64 × Env) :=
  match fuel, args with
  | 0, _ => none
  | _ + 1, [] => some ([], env)
  | fuel + 1, arg :: args => do
    let (values, env) ← Expr.evalArguments p fuel depth env args
    let (value, env) ← arg.eval p fuel depth env
    return (value :: values, env)
termination_by structural fuel

/-- The value that a function returns. -/
def Program.evalCall (p : Program) (fuel depth : Nat) (callee : String) (args : List Int64) :
    Option Int64 :=
  match fuel, depth with
  | 0, _ => none
  | _ + 1, 0 => none
  | fuel + 1, depth + 1 => do
    let f ← p.find? (·.name = callee)
    if f.params.length = args.length then
      match ← Stmt.evalAll p fuel depth (Env.empty.bind (f.params.zip args)) f.body with
      | .returned value => some value
      | .next _ => none
    else none
termination_by structural fuel

/-- The effect of a statement. -/
def Stmt.eval (p : Program) (fuel depth : Nat) (env : Env) (s : Stmt) : Option Flow :=
  match fuel, s with
  | 0, _ => none
  | fuel + 1, .expr e => do
    let (_, env) ← e.eval p fuel depth env
    return .next env
  | fuel + 1, .ret e => do
    let (value, _) ← e.eval p fuel depth env
    return .returned value
  | fuel + 1, .ifThen cond body => do
    let (value, env) ← cond.eval p fuel depth env
    if value = 0 then return .next env else body.eval p fuel depth env
  | fuel + 1, .ifElse cond body otherwise => do
    let (value, env) ← cond.eval p fuel depth env
    if value = 0 then otherwise.eval p fuel depth env else body.eval p fuel depth env
  | fuel + 1, .whileLoop cond body => Stmt.evalLoop p fuel depth env cond body none
  | fuel + 1, .forLoop init cond step body => do
    let (_, env) ← init.eval p fuel depth env
    Stmt.evalLoop p fuel depth env cond body (some step)
  | fuel + 1, .block body => Stmt.evalAll p fuel depth env body
termination_by structural fuel

/-- The effect of a loop whose body may be followed by a step. -/
def Stmt.evalLoop (p : Program) (fuel depth : Nat) (env : Env) (cond : Expr) (body : Stmt)
    (step : Option Expr) : Option Flow :=
  match fuel with
  | 0 => none
  | fuel + 1 => do
    let (value, env) ← cond.eval p fuel depth env
    if value = 0 then return .next env
    else match ← body.eval p fuel depth env with
      | .returned value => return .returned value
      | .next env => match step with
        | none => Stmt.evalLoop p fuel depth env cond body step
        | some e => do
          let (_, env) ← e.eval p fuel depth env
          Stmt.evalLoop p fuel depth env cond body step
termination_by structural fuel

/-- The effect of consecutive statements. -/
def Stmt.evalAll (p : Program) (fuel depth : Nat) (env : Env) (ss : List Stmt) : Option Flow :=
  match fuel, ss with
  | 0, _ => none
  | _ + 1, [] => some (.next env)
  | fuel + 1, s :: ss => do
    match ← s.eval p fuel depth env with
    | .returned value => return .returned value
    | .next env => Stmt.evalAll p fuel depth env ss
termination_by structural fuel

end

section Inversion

-- Derives the equations of the mutual evaluators once, before the lemmas below ask for them.
attribute [local simp] Expr.eval Expr.evalArguments Program.evalCall Stmt.eval Stmt.evalLoop
  Stmt.evalAll

variable {p : Program} {fuel depth : Nat} {env env' : Env} {v : Int64} {flow : Flow}

theorem eval_num {w : Int64}
    (h : (Expr.num w).eval p (fuel + 1) depth env = some (v, env')) : v = w ∧ env' = env := by
  simp only [Expr.eval, Option.some.injEq, Prod.mk.injEq] at h
  exact ⟨h.1.symm, h.2.symm⟩

theorem eval_var {name : String}
    (h : (Expr.var name).eval p (fuel + 1) depth env = some (v, env')) :
    env name = some v ∧ env' = env := by
  simp only [Expr.eval, Option.map_eq_some_iff, Prod.mk.injEq] at h
  obtain ⟨w, hw, rfl, rfl⟩ := h
  exact ⟨hw, rfl⟩

theorem eval_plus {e : Expr}
    (h : (Expr.unary .plus e).eval p (fuel + 1) depth env = some (v, env')) :
    e.eval p fuel depth env = some (v, env') := by
  rwa [Expr.eval] at h

theorem eval_minus {e : Expr}
    (h : (Expr.unary .minus e).eval p (fuel + 1) depth env = some (v, env')) :
    ∃ w, e.eval p fuel depth env = some (w, env') ∧ v = -w := by
  simp only [Expr.eval, bind, Option.bind_eq_some_iff, pure, Option.some.injEq, Prod.mk.injEq,
    Prod.exists] at h
  obtain ⟨w, _, hw, rfl, rfl⟩ := h
  exact ⟨w, hw, rfl⟩

theorem eval_binary {op : BinOp} {lhs rhs : Expr}
    (h : (Expr.binary op lhs rhs).eval p (fuel + 1) depth env = some (v, env')) :
    ∃ a mid b, lhs.eval p fuel depth env = some (a, mid) ∧
      rhs.eval p fuel depth mid = some (b, env') ∧ op.eval a b = some v := by
  simp only [Expr.eval, bind, Option.bind_eq_some_iff, pure, Option.some.injEq, Prod.mk.injEq,
    Prod.exists] at h
  obtain ⟨a, mid, ha, b, _, hb, w, hw, rfl, rfl⟩ := h
  exact ⟨a, mid, b, ha, hb, hw⟩

/-- Only variables are assigned to, since pointers have no meaning here. -/
theorem eval_assign {lhs rhs : Expr}
    (h : (Expr.assign lhs rhs).eval p (fuel + 1) depth env = some (v, env')) :
    ∃ name mid, lhs = .var name ∧ rhs.eval p fuel depth env = some (v, mid) ∧
      env' = mid.assign name v := by
  cases lhs with
  | var name =>
    simp only [Expr.eval, bind, Option.bind_eq_some_iff, pure, Option.some.injEq, Prod.mk.injEq,
      Prod.exists] at h
    obtain ⟨_, mid, hv, rfl, rfl⟩ := h
    exact ⟨name, mid, rfl, hv, rfl⟩
  | _ =>
    rw [Expr.eval] at h
    · cases h
    · intro name he
      cases he

theorem eval_call {callee : String} {args : List Expr}
    (h : (Expr.call callee args).eval p (fuel + 1) depth env = some (v, env')) :
    ∃ values, Expr.evalArguments p fuel depth env args = some (values, env') ∧
      p.evalCall fuel depth callee values = some v := by
  simp only [Expr.eval, bind, Option.bind_eq_some_iff, pure, Option.some.injEq, Prod.mk.injEq,
    Prod.exists] at h
  obtain ⟨values, _, hvalues, _, hv, rfl, rfl⟩ := h
  exact ⟨values, hvalues, hv⟩

theorem evalArguments_nil {values : List Int64}
    (h : Expr.evalArguments p (fuel + 1) depth env [] = some (values, env')) :
    values = [] ∧ env' = env := by
  simp only [Expr.evalArguments, Option.some.injEq, Prod.mk.injEq] at h
  exact ⟨h.1.symm, h.2.symm⟩

theorem evalArguments_cons {arg : Expr} {args : List Expr} {values : List Int64}
    (h : Expr.evalArguments p (fuel + 1) depth env (arg :: args) = some (values, env')) :
    ∃ later mid w, Expr.evalArguments p fuel depth env args = some (later, mid) ∧
      arg.eval p fuel depth mid = some (w, env') ∧ values = w :: later := by
  simp only [Expr.evalArguments, bind, Option.bind_eq_some_iff, pure, Option.some.injEq,
    Prod.mk.injEq, Prod.exists] at h
  obtain ⟨later, mid, hl, w, _, hw, rfl, rfl⟩ := h
  exact ⟨later, mid, w, hl, hw, rfl⟩

theorem length_of_evalArguments {args : List Expr} {values : List Int64}
    (h : Expr.evalArguments p fuel depth env args = some (values, env')) :
    values.length = args.length := by
  induction args generalizing fuel values env' with
  | nil =>
    cases fuel with
    | zero => cases h
    | succ fuel =>
      obtain ⟨rfl, -⟩ := evalArguments_nil h
      rfl
  | cons arg args ih =>
    cases fuel with
    | zero => cases h
    | succ fuel =>
      obtain ⟨later, mid, w, hlater, -, rfl⟩ := evalArguments_cons h
      rw [List.length_cons, List.length_cons, ih hlater]

theorem evalCall_eq_some {callee : String} {args : List Int64}
    (h : p.evalCall (fuel + 1) depth callee args = some v) :
    ∃ inner f, depth = inner + 1 ∧ p.find? (·.name = callee) = some f ∧
      f.params.length = args.length ∧
      Stmt.evalAll p fuel inner (Env.empty.bind (f.params.zip args)) f.body =
        some (.returned v) := by
  cases depth with
  | zero =>
    rw [Program.evalCall] at h
    cases h
  | succ inner =>
    simp only [Program.evalCall, bind, Option.bind_eq_some_iff] at h
    obtain ⟨f, hf, hbody⟩ := h
    split at hbody
    · next hlength =>
      obtain ⟨flow, hflow, hv⟩ := Option.bind_eq_some_iff.mp hbody
      cases flow with
      | next env => cases hv
      | returned w =>
        obtain rfl := Option.some.inj hv
        exact ⟨inner, f, rfl, hf, hlength, hflow⟩
    · cases hbody

theorem eval_expr {e : Expr} (h : (Stmt.expr e).eval p (fuel + 1) depth env = some flow) :
    ∃ w env', e.eval p fuel depth env = some (w, env') ∧ flow = .next env' := by
  simp only [Stmt.eval, bind, Option.bind_eq_some_iff, pure, Option.some.injEq, Prod.exists] at h
  obtain ⟨w, env', he, rfl⟩ := h
  exact ⟨w, env', he, rfl⟩

theorem eval_ret {e : Expr} (h : (Stmt.ret e).eval p (fuel + 1) depth env = some flow) :
    ∃ w env', e.eval p fuel depth env = some (w, env') ∧ flow = .returned w := by
  simp only [Stmt.eval, bind, Option.bind_eq_some_iff, pure, Option.some.injEq, Prod.exists] at h
  obtain ⟨w, env', he, rfl⟩ := h
  exact ⟨w, env', he, rfl⟩

theorem eval_ifThen {cond : Expr} {body : Stmt}
    (h : (Stmt.ifThen cond body).eval p (fuel + 1) depth env = some flow) :
    ∃ w mid, cond.eval p fuel depth env = some (w, mid) ∧
      (w = 0 ∧ flow = .next mid ∨ w ≠ 0 ∧ body.eval p fuel depth mid = some flow) := by
  simp only [Stmt.eval, bind, Option.bind_eq_some_iff, Prod.exists] at h
  obtain ⟨w, mid, hw, hflow⟩ := h
  refine ⟨w, mid, hw, ?_⟩
  split at hflow
  · next hzero => exact .inl ⟨hzero, (Option.some.inj hflow).symm⟩
  · next hne => exact .inr ⟨hne, hflow⟩

theorem eval_ifElse {cond : Expr} {body otherwise : Stmt}
    (h : (Stmt.ifElse cond body otherwise).eval p (fuel + 1) depth env = some flow) :
    ∃ w mid, cond.eval p fuel depth env = some (w, mid) ∧
      (w = 0 ∧ otherwise.eval p fuel depth mid = some flow ∨
        w ≠ 0 ∧ body.eval p fuel depth mid = some flow) := by
  simp only [Stmt.eval, bind, Option.bind_eq_some_iff, Prod.exists] at h
  obtain ⟨w, mid, hw, hflow⟩ := h
  refine ⟨w, mid, hw, ?_⟩
  split at hflow
  · next hzero => exact .inl ⟨hzero, hflow⟩
  · next hne => exact .inr ⟨hne, hflow⟩

theorem eval_whileLoop {cond : Expr} {body : Stmt}
    (h : (Stmt.whileLoop cond body).eval p (fuel + 1) depth env = some flow) :
    Stmt.evalLoop p fuel depth env cond body none = some flow := by
  rwa [Stmt.eval] at h

theorem eval_forLoop {init cond step : Expr} {body : Stmt}
    (h : (Stmt.forLoop init cond step body).eval p (fuel + 1) depth env = some flow) :
    ∃ w mid, init.eval p fuel depth env = some (w, mid) ∧
      Stmt.evalLoop p fuel depth mid cond body (some step) = some flow := by
  simpa only [Stmt.eval, bind, Option.bind_eq_some_iff, Prod.exists] using h

theorem eval_block {body : List Stmt}
    (h : (Stmt.block body).eval p (fuel + 1) depth env = some flow) :
    Stmt.evalAll p fuel depth env body = some flow := by
  rwa [Stmt.eval] at h

/-- What a loop does after its body. -/
def Stmt.evalStep (p : Program) (fuel depth : Nat) (env : Env) : Option Expr → Option Env
  | none => some env
  | some e => (e.eval p fuel depth env).map Prod.snd

theorem evalLoop_eq_some {cond : Expr} {body : Stmt} {step : Option Expr}
    (h : Stmt.evalLoop p (fuel + 1) depth env cond body step = some flow) :
    ∃ w mid, cond.eval p fuel depth env = some (w, mid) ∧
      (w = 0 ∧ flow = .next mid ∨
        w ≠ 0 ∧ ∃ inner, body.eval p fuel depth mid = some inner ∧
          ((∃ v, inner = .returned v ∧ flow = .returned v) ∨
            ∃ env₁ env₂, inner = .next env₁ ∧ Stmt.evalStep p fuel depth env₁ step = some env₂ ∧
              Stmt.evalLoop p fuel depth env₂ cond body step = some flow)) := by
  simp only [Stmt.evalLoop, bind, Option.bind_eq_some_iff, Prod.exists] at h
  obtain ⟨w, mid, hw, hflow⟩ := h
  refine ⟨w, mid, hw, ?_⟩
  split at hflow
  · next hzero => exact .inl ⟨hzero, (Option.some.inj hflow).symm⟩
  · next hne =>
    obtain ⟨inner, hinner, hrest⟩ := Option.bind_eq_some_iff.mp hflow
    refine .inr ⟨hne, inner, hinner, ?_⟩
    cases inner with
    | returned v => exact .inl ⟨v, rfl, (Option.some.inj hrest).symm⟩
    | next env₁ =>
      cases step with
      | none => exact .inr ⟨env₁, env₁, rfl, rfl, hrest⟩
      | some e =>
        obtain ⟨⟨a, env₂⟩, he, hloop⟩ := Option.bind_eq_some_iff.mp hrest
        exact .inr ⟨env₁, env₂, rfl, by simp [Stmt.evalStep, he], hloop⟩

theorem evalAll_nil (h : Stmt.evalAll p (fuel + 1) depth env [] = some flow) :
    flow = .next env := by
  rw [Stmt.evalAll] at h
  exact (Option.some.inj h).symm

theorem evalAll_cons {s : Stmt} {ss : List Stmt}
    (h : Stmt.evalAll p (fuel + 1) depth env (s :: ss) = some flow) :
    (∃ v, s.eval p fuel depth env = some (.returned v) ∧ flow = .returned v) ∨
      ∃ mid, s.eval p fuel depth env = some (.next mid) ∧
        Stmt.evalAll p fuel depth mid ss = some flow := by
  simp only [Stmt.evalAll, bind, Option.bind_eq_some_iff] at h
  obtain ⟨first, hfirst, hrest⟩ := h
  cases first with
  | returned v => exact .inl ⟨v, hfirst, (Option.some.inj hrest).symm⟩
  | next mid => exact .inr ⟨mid, hfirst, hrest⟩

end Inversion

end MiniC
