import MiniC.Command.Options
import MiniC.Compile
import MiniC.Program.Outline

/-! What the command does with its options.

The stages of a compilation are taken one after another, and what a stage yields is written
before the next one starts. The first failure ends the run; what was written before it stays. -/
namespace MiniC

namespace Command

/-- Why a file or stream could not be read or written. -/
inductive AccessError where
  | notFound
  | isDirectory
  | invalidText
  | other (reason : String)
  deriving DecidableEq, Repr

/-- The error in words. -/
def AccessError.message : AccessError → String
  | notFound => "No such file or directory (os error 2)"
  | isDirectory => "Is a directory (os error 21)"
  | invalidText => "stream did not contain valid UTF-8"
  | other reason => reason

/-- The text that bytes encode. -/
def decode (bytes : ByteArray) : Except AccessError String :=
  match String.fromUTF8? bytes with
  | some text => .ok text
  | none => .error .invalidText

/-- The surroundings of a run: named files, an input and an output. -/
structure Host (m : Type → Type) where
  readFile : String → m (Except AccessError String)
  readInput : m (Except AccessError String)
  writeFile : String → String → m (Except AccessError Unit)
  writeOutput : String → m (Except AccessError Unit)

/-- Why a run ended early. -/
inductive Failure where
  | readFile (path : String) (error : AccessError)
  | readInput (error : AccessError)
  | writeFile (path : String) (error : AccessError)
  | writeOutput (error : AccessError)
  | compile (error : CompileError)
  deriving Repr

/-- The failure in words. -/
def Failure.message : Failure → String
  | readFile path error => "cannot read " ++ path ++ ": " ++ error.message
  | readInput error => "cannot read program from stdin: " ++ error.message
  | writeFile path error => "cannot write " ++ path ++ ": " ++ error.message
  | writeOutput error => "cannot write assembly to stdout: " ++ error.message
  | compile error => error.display

variable {m : Type → Type} [Monad m]

/-- Reads the program: the text among the arguments, else the named file, else the input. -/
def readSource (host : Host m) (o : Options) : ExceptT Failure m String :=
  match o.source, o.file with
  | some text, _ => pure text
  | none, some path => ExceptT.mk do
    return (← host.readFile path).mapError (.readFile path)
  | none, none => ExceptT.mk do
    return (← host.readInput).mapError .readInput

/-- Writes a text to a named file. -/
def writeFile (host : Host m) (path text : String) : ExceptT Failure m Unit :=
  ExceptT.mk do
    return (← host.writeFile path text).mapError (.writeFile path)

/-- Writes a text to a file if one is named. -/
def writeDump (host : Host m) (path : Option String) (text : String) : ExceptT Failure m Unit :=
  match path with
  | some path => writeFile host path text
  | none => pure ()

/-- Writes the listing to the named file, else to the output. -/
def writeListing (host : Host m) (path : Option String) (text : String) :
    ExceptT Failure m Unit :=
  match path with
  | some path => writeFile host path text
  | none => ExceptT.mk do
    return (← host.writeOutput text).mapError .writeOutput

/-- The result of a stage. -/
def stage {α : Type} (result : Except CompileError α) : ExceptT Failure m α :=
  ExceptT.mk (pure (result.mapError .compile))

/-- Compiles as the options ask. -/
def run (host : Host m) (o : Options) : ExceptT Failure m Unit := do
  let source ← readSource host o
  let tokens ← stage (tokenize source)
  writeDump host o.tokenDump (Token.listing tokens)
  let program ← stage (parseTokens source (o.dialect.getD .functions) tokens)
  writeDump host o.treeDump program.outlineText
  let code ← stage (assemble program)
  writeListing host o.output (listing code)

/-- How a command ended. -/
inductive Ending where
  | success
  | failure (cause : Failure)
  | misuse (cause : UsageError)
  deriving Repr

namespace Ending

/-- The exit code of the command. -/
def exitCode : Ending → UInt32
  | success => 0
  | failure _ => 1
  | misuse _ => 2

/-- What the command prints on the error stream. -/
def report : Ending → String
  | success => ""
  | failure cause => cause.message ++ "\n"
  | misuse cause => cause.message ++ "\n"

end Ending

/-- The whole command: nothing is read or written unless the arguments make sense. -/
def command (host : Host m) (arguments : List String) : m Ending :=
  match Options.ofArguments arguments with
  | .error e => pure (.misuse e)
  | .ok o => do
    match ← (run host o).run with
    | .ok () => return .success
    | .error e => return .failure e

end Command

end MiniC
