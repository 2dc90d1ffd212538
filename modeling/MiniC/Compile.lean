import MiniC.Assembly.Text
import MiniC.Code.Statement
import MiniC.Excerpt
import MiniC.Grammar.Parse
import MiniC.Token.Scan

/-! Compiling a source text: its tokens, its program and its listing, or the first error. -/
namespace MiniC

/-- Why a source has no listing. Errors found while positions are known come with an excerpt of
the source. -/
inductive CompileError where
  | lexical (place : Excerpt) (cause : InvalidCharacter)
  | grammatical (place : Excerpt) (cause : GrammarError)
  | semantic (cause : SemanticError)
  deriving Repr

namespace CompileError

/-- What is wrong, without the place. -/
def message : CompileError → String
  | lexical _ cause => cause.message
  | grammatical _ cause => cause.message
  | semantic cause => cause.message

/-- The error as it is shown. -/
def display : CompileError → String
  | lexical place cause => place.annotate cause.message
  | grammatical place cause => place.annotate cause.message
  | semantic cause => cause.message

end CompileError

/-- Where an invalid character stands. -/
def InvalidCharacter.excerpt (source : String) (e : InvalidCharacter) : Excerpt :=
  .ofOffset (Source.line source e.line) e.pos

/-- Where a grammar error stands in the source of the tokens: at its culprit, or just past the
last token if the tokens end too early. -/
def GrammarError.excerpt (source : String) (tokens : List Token) (e : GrammarError) : Excerpt :=
  match e.culprit, tokens.getLast? with
  | some t, _ => .ofOffset (Source.line source t.line) t.pos
  | none, some t => .ofOffset (Source.line source t.line) t.stop
  | none, none => .ofOffset (Source.line source 0) 0

/-- The tokens of a source. -/
def tokenize (source : String) : Except CompileError (List Token) :=
  (Token.scan source).mapError fun e => .lexical (e.excerpt source) e

/-- The program that tokens form; the source serves only to show where an error stands. -/
def parseTokens (source : String) (dialect : Dialect) (tokens : List Token) :
    Except CompileError Program :=
  (parse dialect tokens).mapError fun e => .grammatical (e.excerpt source tokens) e

/-- The code of a program. -/
def assemble (program : Program) : Except CompileError (List Line) :=
  program.code.mapError .semantic

/-- The listing of a program. -/
def Program.assembly (program : Program) : Except CompileError String :=
  (assemble program).map listing

/-- What a successful compilation produced. -/
structure Compilation where
  tokens : List Token
  program : Program
  code : List Line
  deriving Repr

/-- The text of the listing. -/
def Compilation.assembly (c : Compilation) : String :=
  listing c.code

/-- Compiles a source in a dialect. -/
def compile (dialect : Dialect) (source : String) : Except CompileError Compilation := do
  let tokens ← tokenize source
  let program ← parseTokens source dialect tokens
  let code ← assemble program
  return { tokens, program, code }

/-- How far a compilation came: what was finished, and the error that ended it. -/
inductive Progress where
  | untokenized (error : CompileError)
  | unparsed (tokens : List Token) (error : CompileError)
  | unassembled (tokens : List Token) (program : Program) (error : CompileError)
  | complete (result : Compilation)
  deriving Repr

/-- Compiles a source as far as it goes. -/
def progress (dialect : Dialect) (source : String) : Progress :=
  match tokenize source with
  | .error e => .untokenized e
  | .ok tokens =>
    match parseTokens source dialect tokens with
    | .error e => .unparsed tokens e
    | .ok program =>
      match assemble program with
      | .error e => .unassembled tokens program e
      | .ok code => .complete { tokens, program, code }

/-- The result of a compilation, whatever was finished before an error. -/
def Progress.outcome : Progress → Except CompileError Compilation
  | untokenized e => .error e
  | unparsed _ e => .error e
  | unassembled _ _ e => .error e
  | complete result => .ok result

theorem outcome_progress (dialect : Dialect) (source : String) :
    (progress dialect source).outcome = compile dialect source := by
  unfold progress compile
  cases tokenize source with
  | error e => rfl
  | ok tokens =>
    cases h : parseTokens source dialect tokens with
    | error e => simp [h, bind, Except.bind, Progress.outcome]
    | ok program =>
      cases h' : assemble program <;>
        simp [h, h', bind, Except.bind, pure, Except.pure, Progress.outcome]

end MiniC
