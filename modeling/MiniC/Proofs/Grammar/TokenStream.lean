import Mathlib
import MiniC.Grammar.Reading

/-! Reading as procedures with loops on a stream of tokens.

A stream gives up its tokens from the front, remembers the one that was taken last, and counts the
turns of loops. The procedures call one another through a parameter, and nothing in their text sees
to it that reading ends. A run checks this as it goes. It stalls where a procedure calls another
before a token was taken and the other one is not tighter, and where a turn of a loop leaves as many
tokens as there were before it. -/
namespace MiniC

/-- The loops of the procedures: over the constructs of a program, over the statements of a block,
over the operators of a level, and over arguments and parameters after the first. -/
inductive Loop where
  | functions
  | statements
  | block
  | operators (l : Level)
  | arguments
  | parameters
  deriving DecidableEq, Repr

/-- The tokens that remain, the token that was taken last, and how many turns of each loop were
begun. -/
structure TokenStream where
  tokens : List Token
  last : Option Token
  turns : Loop → Nat

/-- Why a reading ends without a value: the tokens are refused, or it would go on without
progress. -/
inductive Halt where
  | refused (e : GrammarError)
  | stalled
  deriving DecidableEq, Repr

/-- A reading takes tokens from a stream, also when it ends without a value. -/
abbrev Reading : Type → Type :=
  EStateM Halt TokenStream

namespace TokenStream

/-- No token of these was taken. -/
def ofTokens (tokens : List Token) : TokenStream :=
  ⟨tokens, none, fun _ => 0⟩

/-- What is left when the first token `t` is taken and `ts` are those after it. -/
def taking (t : Token) (ts : List Token) (s : TokenStream) : TokenStream :=
  { s with tokens := ts, last := some t }

/-- One more turn of a loop. -/
def counting (loop : Loop) (s : TokenStream) : TokenStream :=
  { s with turns := Function.update s.turns loop (s.turns loop + 1) }

@[simp] theorem tokens_taking (s : TokenStream) (t : Token) (ts : List Token) :
    (s.taking t ts).tokens = ts :=
  rfl

@[simp] theorem tokens_counting (s : TokenStream) (loop : Loop) :
    (s.counting loop).tokens = s.tokens :=
  rfl

theorem turns_counting_self (s : TokenStream) (loop : Loop) :
    (s.counting loop).turns loop = s.turns loop + 1 :=
  Function.update_self _ _ _

theorem turns_counting_of_ne (s : TokenStream) {loop other : Loop} (h : other ≠ loop) :
    (s.counting loop).turns other = s.turns other :=
  Function.update_of_ne h _ _

theorem turns_counting_ge (s : TokenStream) (loop other : Loop) :
    s.turns other ≤ (s.counting loop).turns other := by
  by_cases h : other = loop
  · rw [h, turns_counting_self]
    exact Nat.le_succ _
  · rw [turns_counting_of_ne s h]

theorem turns_counting_le (s : TokenStream) (loop other : Loop) :
    (s.counting loop).turns other ≤ s.turns other + 1 := by
  by_cases h : other = loop
  · rw [h, turns_counting_self]
  · rw [turns_counting_of_ne s h]
    exact Nat.le_succ _

end TokenStream

namespace Reading

variable {α σ γ : Type}

/-- Ends because something else was expected here. -/
def refuse (what : Expected) : Reading α := do
  throw (.refused (.expected what (← get).tokens.head?))

/-- Takes the first token if it has a meaning. -/
def take? (meaning : Token → Option α) : Reading (Option α) := do
  match (← get).tokens with
  | [] => return none
  | t :: ts =>
    match meaning t with
    | none => return none
    | some a =>
      modify (.taking t ts)
      return some a

/-- Takes the first token if it is written `text`. -/
def accept? (text : String) : Reading (Option Unit) :=
  take? fun t => if t.text = text then some () else none

/-- A token written `text`. -/
def symbol (text : String) : Reading Unit := do
  match ← accept? text with
  | some () => return ()
  | none => refuse (.symbol text)

/-- Takes the first token if it has the form of a word. -/
def word? : Reading (Option Token) :=
  take? fun t => if Token.isWord t.text then some t else none

/-- A token with the form of a word. -/
def identifier : Reading Token := do
  match ← word? with
  | some t => return t
  | none => refuse .identifier

/-- A number; its token is taken if it has a value. -/
def number : Reading Int64 := do
  match readNumber (← get).tokens with
  | .error e => throw (.refused e)
  | .ok (value, _) =>
    let _ ← take? some
    return value

/-- Whether no token remains. -/
def atEnd : Reading Bool :=
  return (← get).tokens.isEmpty

/-- Goes on only if fewer tokens remain than in the stream `s`. -/
def fewerThan (s : TokenStream)
    (next : (s' : TokenStream) → s'.tokens.length < s.tokens.length →
      EStateM.Result Halt TokenStream α) : Reading α :=
  fun s' => if h : s'.tokens.length < s.tokens.length then next s' h else .error .stalled s'

/-- Turns of a loop as long as there is one to begin. -/
def loop (name : Loop) (begins : Reading (Option γ)) (turn : γ → σ → Reading σ) (x : σ) :
    Reading σ := fun s =>
  (do
    match ← begins with
    | none => return x
    | some c =>
      modify (.counting name)
      let y ← turn c x
      fewerThan s fun s' _ => loop name begins turn y s' : Reading σ) s
termination_by s => s.tokens.length

/-- Items with commas between them, through a closing bracket. -/
def listed (name : Loop) (item : Reading α) : Reading (List α) := do
  match ← accept? ")" with
  | some () => return []
  | none =>
    let first ← item
    let items ← loop name (accept? ",") (fun _ items => return items ++ [← item]) [first]
    symbol ")"
    return items

end Reading

/-- The procedures that call one another. Those for expressions are one for each level, and one for
an expression of any form. -/
inductive Procedure where
  | function
  | block
  | statement
  | clause (stop : String)
  | expression
  | level (l : Level)
  deriving DecidableEq, Repr

namespace Procedure

/-- What a procedure reads. -/
abbrev Value : Procedure → Type
  | function => Function
  | block => List Stmt
  | statement => Stmt
  | clause _ => Expr
  | expression => Expr
  | level _ => Expr

/-- How many procedures are tighter. -/
def rank : Procedure → Nat
  | level l => l.rank
  | expression => 8
  | clause _ => 9
  | statement => 10
  | block => 11
  | function => 12

/-- A procedure that was called on the stream `s` may call another on `s'` if a token was taken, or
if none was and the other is tighter. -/
def MayCall (p : Procedure) (s : TokenStream) (q : Procedure) (s' : TokenStream) : Prop :=
  s'.tokens.length < s.tokens.length ∨
    s'.tokens.length = s.tokens.length ∧ q.rank < p.rank

instance (p : Procedure) (s : TokenStream) (q : Procedure) (s' : TokenStream) :
    Decidable (p.MayCall s q s') :=
  inferInstanceAs (Decidable (_ ∨ _))

section Bodies

open Reading

variable (call : (q : Procedure) → Reading q.Value)

/-- Operands with the binary operators of a level between them. -/
def folded (l : Level) : Reading Expr := do
  let first ← call (.level l.tighter)
  loop (.operators l) (take? (l.binOp? ·.text))
    (fun op lhs => return .binary op lhs (← call (.level l.tighter))) first

/-- A unary operator of a level and its operand, or a tighter expression. -/
def signed (l : Level) : Reading Expr := do
  match ← take? (l.unOp? ·.text) with
  | some op => return .unary op (← call (.level l))
  | none => call (.level l.tighter)

/-- An operand, and what is assigned to it if an assignment follows. -/
def assignment : Reading Expr := do
  let lhs ← call (.level .equality)
  match ← accept? "=" with
  | some () => return .assign lhs (← call (.level .assignment))
  | none => return lhs

/-- An expression and the symbol that ends it. -/
def terminated (stop : String) : Reading Expr := do
  let e ← call .expression
  symbol stop
  return e

/-- A bracketed expression, a call, a variable or a number. -/
def primary : Reading Expr := do
  match ← accept? "(" with
  | some () => terminated call ")"
  | none =>
    match ← word? with
    | none => return .num (← number)
    | some name =>
      match ← accept? "(" with
      | none => return .var name.text
      | some () =>
        let args ← listed .arguments (call .expression)
        if args.length ≤ maxArity then return .call name.text args
        else throw (.refused (.tooManyArguments name))

/-- An expression of a level. -/
def levelBody : Level → Reading Expr
  | .assignment => assignment call
  | .equality => folded call .equality
  | .relational => folded call .relational
  | .additive => folded call .additive
  | .multiplicative => folded call .multiplicative
  | .sign => signed call .sign
  | .address => signed call .address
  | .primary => primary call

/-- A clause of a `for` and the symbol that ends it. -/
def clauseBody (stop : String) : Reading Expr := do
  match ← accept? stop with
  | some () => return .num 1
  | none => terminated call stop

/-- A condition in brackets. -/
def condition : Reading Expr := do
  symbol "("
  terminated call ")"

/-- A statement. -/
def statementBody : Reading Stmt := do
  match ← take? (Opening.ofText? ·.text) with
  | some .block => return .block (← call .block)
  | some .ret => return .ret (← terminated call ";")
  | some .branch =>
    let cond ← condition call
    let body ← call .statement
    match ← accept? "else" with
    | some () => return .ifElse cond body (← call .statement)
    | none => return .ifThen cond body
  | some .forLoop =>
    symbol "("
    let init ← call (.clause ";")
    let cond ← call (.clause ";")
    let step ← call (.clause ")")
    let body ← call .statement
    return .forLoop init cond step body
  | some .whileLoop =>
    let cond ← condition call
    let body ← call .statement
    return .whileLoop cond body
  | none => return .expr (← terminated call ";")

/-- Begins a turn unless the symbol that ends a block is there. -/
def blockGoesOn : Reading (Option Unit) := do
  match ← accept? "\x7d" with
  | some () => return none
  | none => return some ()

/-- The statements of a block through its closing brace. -/
def blockBody : Reading (List Stmt) :=
  loop .block blockGoesOn (fun _ body => do
    if ← atEnd then refuse (.symbol "\x7d")
    else return body ++ [← call .statement]) []

/-- A function definition. -/
def functionBody : Reading Function := do
  let name ← identifier
  symbol "("
  let params ← listed .parameters (return (← identifier).text)
  if maxArity < params.length then throw (.refused (.tooManyParameters name))
  else
    symbol "\x7b"
    let body ← call .block
    return ⟨name.text, params, body⟩

/-- What a procedure does. -/
def body : (p : Procedure) → Reading p.Value
  | function => functionBody call
  | block => blockBody call
  | statement => statementBody call
  | clause stop => clauseBody call stop
  | expression => call (.level .assignment)
  | level l => levelBody call l

end Bodies

/-- Runs a procedure. A call that may not be made stalls it. -/
def run (p : Procedure) : Reading p.Value := fun s =>
  p.body (fun q s' => if _ : p.MayCall s q s' then q.run s' else .error .stalled s') s
termination_by s => (s.tokens.length, p.rank)
decreasing_by
  rename_i h
  rcases h with h | ⟨h, hrank⟩
  · exact .left _ _ h
  · rw [h]
    exact .right _ hrank

end Procedure

namespace Reading

/-- Begins a turn if a token remains. -/
def tokensRemain : Reading (Option Unit) := do
  if ← atEnd then return none else return some ()

/-- All constructs of one kind up to the end of the tokens. -/
def many {α : Type} (name : Loop) (item : Reading α) : Reading (List α) :=
  loop name tokensRemain (fun _ items => return items ++ [← item]) []

/-- The functions of a program in a dialect. -/
def definitions : Dialect → Reading Program
  | .expression => return [Function.main [.ret (← Procedure.expression.run)]]
  | .statements => return [Function.main (← many .statements Procedure.statement.run)]
  | .functions => many .functions Procedure.function.run

/-- Ends with `a` unless a token remains. -/
def finish {α : Type} (a : α) : Reading α := do
  match (← get).tokens with
  | [] => return a
  | t :: _ => throw (.refused (.leftover t))

/-- A program up to the end of the tokens. -/
def program (dialect : Dialect) : Reading Program :=
  definitions dialect >>= finish

end Reading

end MiniC
