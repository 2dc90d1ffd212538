import MiniC.Grammar.Parse

/-! Options of the command line.

Arguments are cut into settings first; the settings are then gathered, and this refuses
repetitions and values that make no sense. -/
namespace MiniC

/-- The dialect with a name. -/
def Dialect.ofName? (name : String) : Option Dialect :=
  if name = "expr" then some expression
  else if name = "stmt" then some statements
  else if name = "func" then some functions
  else none

namespace Command

/-- Options that take a value. -/
inductive Flag where
  | file
  | output
  | dialect
  | tokenDump
  | treeDump
  deriving DecidableEq, Repr

namespace Flag

/-- All options that take a value. -/
def all : List Flag :=
  [file, output, dialect, tokenDump, treeDump]

/-- The name after two hyphens. -/
def longName : Flag → String
  | file => "file"
  | output => "output"
  | dialect => "dialect"
  | tokenDump => "dump-tokens"
  | treeDump => "dump-ast"

/-- The letter after one hyphen. -/
def letter? : Flag → Option Char
  | file => some 'f'
  | output => some 'o'
  | dialect => some 'd'
  | tokenDump => none
  | treeDump => none

end Flag

/-- Why arguments make no sense. -/
inductive UsageError where
  | unknownOption (argument : String)
  | missingValue (flag : Flag)
  | needlessValue (argument : String)
  | repeatedFlag (flag : Flag)
  | repeatedVerbose
  | emptyPath (flag : Flag)
  | unknownDialect (name : String)
  | secondSource (argument : String)
  | sourceAndFile
  deriving DecidableEq, Repr

/-- The error in words. -/
def UsageError.message : UsageError → String
  | unknownOption argument => "unknown option " ++ argument
  | missingValue flag => "option --" ++ flag.longName ++ " needs a value"
  | needlessValue argument => "option takes no value: " ++ argument
  | repeatedFlag flag => "option --" ++ flag.longName ++ " is given twice"
  | repeatedVerbose => "option --verbose is given twice"
  | emptyPath flag => "option --" ++ flag.longName ++ " has an empty path"
  | unknownDialect name => "unknown dialect " ++ name ++ ", use expr, stmt or func"
  | secondSource argument => "unexpected argument " ++ argument
  | sourceAndFile => "a program text and --file exclude each other"

/-- What an argument sets. -/
inductive Setting where
  | source (text : String)
  | value (flag : Flag) (text : String)
  | verbose
  deriving DecidableEq, Repr

/-- What one argument sets, and the option whose value is the next argument. -/
structure Piece where
  settings : List Setting
  awaiting : Option Flag
  deriving DecidableEq, Repr

/-- An argument that begins with two hyphens, without them. A value may follow the first equals
sign. -/
def longPiece (cs : List Char) : Except UsageError Piece :=
  let name := String.ofList (cs.takeWhile (· ≠ '='))
  let attached := cs.dropWhile (· ≠ '=')
  let argument := "--" ++ String.ofList cs
  match Flag.all.find? (·.longName = name) with
  | some flag =>
    match attached with
    | [] => .ok ⟨[], some flag⟩
    | _ :: value => .ok ⟨[.value flag (String.ofList value)], none⟩
  | none =>
    if name = "verbose" then
      if attached = [] then .ok ⟨[.verbose], none⟩ else .error (.needlessValue argument)
    else .error (.unknownOption argument)

/-- A value that directly follows its letter, where an equals sign may stand between them. -/
def attachedValue : List Char → String
  | '=' :: cs => String.ofList cs
  | cs => String.ofList cs

/-- The letters of an argument after its hyphen. One that takes a value takes all that
follows it. -/
def shortPiece : List Char → Except UsageError Piece
  | [] => .ok ⟨[], none⟩
  | c :: cs =>
    match Flag.all.find? (·.letter? = some c) with
    | some flag =>
      if cs.isEmpty then .ok ⟨[], some flag⟩ else .ok ⟨[.value flag (attachedValue cs)], none⟩
    | none =>
      if c = 'v' then do
        let rest ← shortPiece cs
        return ⟨.verbose :: rest.settings, rest.awaiting⟩
      else .error (.unknownOption ("-" ++ String.singleton c))

/-- What an argument sets on its own. A lone hyphen is a program text. -/
def piece (argument : String) : Except UsageError Piece :=
  match argument.toList with
  | '-' :: '-' :: cs => longPiece cs
  | '-' :: c :: cs => shortPiece (c :: cs)
  | _ => .ok ⟨[.source argument], none⟩

/-- Whether an argument can be the value of the option before it: only a lone hyphen may begin
with one. -/
def isValue (argument : String) : Bool :=
  match argument.toList with
  | '-' :: _ :: _ => false
  | _ => true

/-- The settings of all arguments. After two hyphens every argument is a program text. -/
def settings : List String → Except UsageError (List Setting)
  | [] => .ok []
  | argument :: rest =>
    if argument = "--" then .ok (rest.map .source)
    else do
      let found ← piece argument
      match found.awaiting, rest with
      | none, rest => return found.settings ++ (← settings rest)
      | some flag, value :: rest =>
        if isValue value then return found.settings ++ .value flag value :: (← settings rest)
        else throw (.missingValue flag)
      | some flag, [] => throw (.missingValue flag)

/-- What a run is asked to do. Without a source text or a file the program comes from the
standard input; without an output the listing goes to the standard output. -/
structure Options where
  source : Option String
  file : Option String
  output : Option String
  dialect : Option Dialect
  tokenDump : Option String
  treeDump : Option String
  verbose : Bool
  deriving DecidableEq, Repr

namespace Options

/-- Nothing asked for. -/
def none : Options :=
  ⟨.none, .none, .none, .none, .none, .none, false⟩

/-- The path that an option is given; it is given one at most once. -/
def path (flag : Flag) (old : Option String) (text : String) :
    Except UsageError (Option String) :=
  if old.isSome then .error (.repeatedFlag flag)
  else if text = "" then .error (.emptyPath flag)
  else .ok (some text)

/-- Adds a setting. -/
def set (o : Options) : Setting → Except UsageError Options
  | .source text =>
    if o.source.isSome then .error (.secondSource text) else .ok { o with source := some text }
  | .value .file text => do
    let file ← path .file o.file text
    return { o with file }
  | .value .output text => do
    let output ← path .output o.output text
    return { o with output }
  | .value .tokenDump text => do
    let tokenDump ← path .tokenDump o.tokenDump text
    return { o with tokenDump }
  | .value .treeDump text => do
    let treeDump ← path .treeDump o.treeDump text
    return { o with treeDump }
  | .value .dialect text =>
    if o.dialect.isSome then .error (.repeatedFlag .dialect)
    else match Dialect.ofName? text with
      | some dialect => .ok { o with dialect := some dialect }
      | .none => .error (.unknownDialect text)
  | .verbose => if o.verbose then .error .repeatedVerbose else .ok { o with verbose := true }

/-- The options that the arguments of a command line ask for. -/
def ofArguments (arguments : List String) : Except UsageError Options := do
  let found ← settings arguments
  let o ← found.foldlM set none
  if o.source.isSome && o.file.isSome then throw .sourceAndFile
  return o

end Options

end Command

end MiniC
