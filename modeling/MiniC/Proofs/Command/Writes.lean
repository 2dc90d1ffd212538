import Mathlib
import MiniC.Command.Run

/-! What a command has written when it ends.

A run reads its source, writes what its compilation yields as far as that comes, and ends. Files
and streams may fail at any point. -/
namespace MiniC.Command

/-- A text that a run writes to a file or to the output. -/
inductive Write where
  | file (path text : String)
  | output (text : String)
  deriving DecidableEq, Repr

/-- The failure of a run that cannot write a text. -/
def Write.failure : Write → AccessError → Failure
  | file path _, e => .writeFile path e
  | output _, e => .writeOutput e

namespace Options

variable (o : Options)

/-- The dialect of the source. -/
def mode : Dialect :=
  o.dialect.getD .functions

/-- A text for a file, if one is named. -/
def dump (path : Option String) (text : String) : List Write :=
  path.toList.map (.file · text)

/-- The dumps of the tokens and of the tree. -/
def dumps (tokens : List Token) (program : Program) : List Write :=
  dump o.tokenDump (Token.listing tokens) ++ dump o.treeDump program.outlineText

/-- The assembly goes to the named file, else to the output. -/
def assemblyWrite (text : String) : Write :=
  match o.output with
  | .some path => .file path text
  | .none => .output text

/-- All that is there to write when a compilation has come so far. -/
def writes : Progress → List Write
  | .untokenized _ => []
  | .unparsed tokens _ => dump o.tokenDump (Token.listing tokens)
  | .unassembled tokens program _ => o.dumps tokens program
  | .complete c => o.dumps c.tokens c.program ++ [o.assemblyWrite c.assembly]

/-- A dump of a stage that the source has passed. -/
inductive IsDump (source : String) : Write → Prop where
  | tokens {path : String} {tokens : List Token} : o.tokenDump = some path →
      tokenize source = .ok tokens → IsDump source (.file path (Token.listing tokens))
  | tree {path : String} {tokens : List Token} {program : Program} : o.treeDump = some path →
      tokenize source = .ok tokens → parseTokens source o.mode tokens = .ok program →
      IsDump source (.file path program.outlineText)

end Options

section Host

variable {m : Type → Type} [Monad m]

/-- Writes a text where it belongs. -/
def perform (host : Host m) : Write → ExceptT Failure m Unit
  | .file path text => writeFile host path text
  | .output text => writeListing host none text

theorem writeDump_eq [LawfulMonad m] (host : Host m) (path : Option String) (text : String) :
    writeDump host path text = (Options.dump path text).forM (perform host) := by
  cases path <;> simp [writeDump, Options.dump, perform]

theorem writeListing_eq (host : Host m) (o : Options) (text : String) :
    writeListing host o.output text = perform host (o.assemblyWrite text) := by
  unfold Options.assemblyWrite
  cases o.output <;> rfl

@[simp] theorem stage_ok {α : Type} (a : α) : (stage (.ok a) : ExceptT Failure m α) = pure a :=
  rfl

theorem stage_error_bind [LawfulMonad m] {α β : Type} (e : CompileError)
    (f : α → ExceptT Failure m β) : stage (.error e) >>= f = stage (.error e) := by
  apply ExceptT.ext
  simp [stage, Except.mapError, ExceptT.run_bind]

/-- On every host, a run takes its source, writes one text after the other and reports the outcome
of the compilation. -/
theorem run_eq [LawfulMonad m] (host : Host m) (o : Options) :
    run host o = (do
      let source ← readSource host o
      (o.writes (progress o.mode source)).forM (perform host)
      stage ((compile o.mode source).map fun _ => ())) := by
  unfold run
  congr 1
  funext source
  rw [← outcome_progress]
  unfold progress Options.mode
  simp only [writeDump_eq, writeListing_eq]
  -- the stage that fails, if any, decides which writes there are
  cases tokenize source with
  | error e => simp [stage_error_bind, Options.writes, Progress.outcome, Except.map]
  | ok tokens =>
    simp only [stage_ok, pure_bind]
    cases parseTokens source (o.dialect.getD .functions) tokens with
    | error e => simp [stage_error_bind, Options.writes, Progress.outcome, Except.map]
    | ok program =>
      simp only [stage_ok, pure_bind]
      cases assemble program with
      | error e =>
        simp [stage_error_bind, Options.writes, Options.dumps, Progress.outcome, Except.map]
      | ok code =>
        simp [Options.writes, Options.dumps, Progress.outcome, Except.map, Compilation.assembly]

end Host

theorem run_bind_stateM {σ ε α β : Type} (x : ExceptT ε (StateM σ) α)
    (f : α → ExceptT ε (StateM σ) β) (before : σ) :
    (x >>= f).run before =
      match x.run before with
      | (.ok a, after) => (f a).run after
      | (.error e, after) => (.error e, after) := by
  rw [ExceptT.run_bind]
  simp only [bind, StateT.bind]
  rcases x.run before with ⟨_ | _, _⟩ <;> rfl

/-- What a run meets: the answers to its reads and writes, whatever they are. They may depend on
the writes before them, as when two paths name the same file. -/
structure Surroundings where
  readFile : List Write → String → Except AccessError String
  readInput : List Write → Except AccessError String
  write : List Write → Write → Except AccessError Unit

namespace Surroundings

variable (s : Surroundings)

/-- Answers a write, which is recorded whether it succeeds or not. -/
def attempt (w : Write) : StateM (List Write) (Except AccessError Unit) :=
  fun before => (s.write before w, before ++ [w])

/-- The host that records all writes. -/
def host : Host (StateM (List Write)) where
  readFile path := fun before => (s.readFile before path, before)
  readInput := fun before => (s.readInput before, before)
  writeFile path text := s.attempt (.file path text)
  writeOutput text := s.attempt (.output text)

/-- The source of a run, or why it cannot be read. Nothing has been written then. -/
def source (o : Options) : Except Failure String :=
  match o.source, o.file with
  | some text, _ => .ok text
  | none, some path => (s.readFile [] path).mapError (.readFile path)
  | none, none => (s.readInput []).mapError .readInput

/-- All of some writes succeed, one after the other. -/
def Accepts : List Write → List Write → Prop
  | _, [] => True
  | before, w :: ws => s.write before w = .ok () ∧ Accepts (before ++ [w]) ws

/-- How a run ends, and what it has tried to write then: its source may not be read, a write may
fail, or all is written that the compilation yields, be it complete or not. -/
inductive Course (o : Options) : Ending → List Write → Prop where
  | unread {f : Failure} : s.source o = .error f → Course o (.failure f) []
  | cut {source : String} {done rest : List Write} {w : Write} {e : AccessError} :
      s.source o = .ok source → o.writes (progress o.mode source) = done ++ w :: rest →
      s.Accepts [] done → s.write done w = .error e →
      Course o (.failure (w.failure e)) (done ++ [w])
  | refused {source : String} {e : CompileError} :
      s.source o = .ok source → compile o.mode source = .error e →
      s.Accepts [] (o.writes (progress o.mode source)) →
      Course o (.failure (.compile e)) (o.writes (progress o.mode source))
  | finished {source : String} {c : Compilation} :
      s.source o = .ok source → compile o.mode source = .ok c →
      s.Accepts [] (o.writes (progress o.mode source)) →
      Course o .success (o.writes (progress o.mode source))

theorem run_readSource (o : Options) :
    (readSource s.host o).run [] = (s.source o, []) := by
  unfold readSource source
  cases o.source with
  | some text => rfl
  | none => cases o.file <;> rfl

theorem run_perform_cons (w : Write) (ws before : List Write) :
    ((w :: ws).forM (perform s.host)).run before =
      match s.write before w with
      | .ok () => (ws.forM (perform s.host)).run (before ++ [w])
      | .error e => (.error (w.failure e), before ++ [w]) := by
  have hperform : (perform s.host w).run before =
      ((s.write before w).mapError w.failure, before ++ [w]) := by
    cases w <;> rfl
  rw [List.forM_eq_forM, List.forM_cons, run_bind_stateM, hperform]
  cases s.write before w <;> rfl

/-- Either all writes succeed, or they end with the first that does not. -/
theorem run_perform (ws before : List Write) :
    (s.Accepts before ws ∧
      (ws.forM (perform s.host)).run before = (.ok (), before ++ ws)) ∨
    ∃ done w rest e, ws = done ++ w :: rest ∧ s.Accepts before done ∧
      s.write (before ++ done) w = .error e ∧
      (ws.forM (perform s.host)).run before = (.error (w.failure e), before ++ done ++ [w]) := by
  -- what is left is written after `before`, which grows by each write
  induction ws generalizing before with
  | nil => exact .inl ⟨trivial, by rw [List.append_nil]; rfl⟩
  | cons w ws ih =>
    rw [run_perform_cons]
    cases hw : s.write before w with
    | error e => exact .inr ⟨[], w, ws, e, rfl, trivial, by simpa using hw, by simp⟩
    | ok =>
      rcases ih (before ++ [w]) with
        ⟨haccepts, hrun⟩ | ⟨done, w', rest, e, rfl, haccepts, hw', hrun⟩
      · exact .inl ⟨⟨hw, haccepts⟩, by simpa using hrun⟩
      · exact .inr ⟨w :: done, w', rest, e, rfl, ⟨hw, haccepts⟩, by simpa using hw',
          by simpa using hrun⟩

theorem accepts_concat (before ws : List Write) (w : Write) :
    s.Accepts before (ws ++ [w]) ↔ s.Accepts before ws ∧ s.write (before ++ ws) w = .ok () := by
  induction ws generalizing before with
  | nil => simp [Accepts]
  | cons w' ws ih => simp [Accepts, ih, and_assoc]

theorem run_command {arguments : List String} {o : Options}
    (ho : Options.ofArguments arguments = .ok o) :
    (command s.host arguments).run [] =
      match (run s.host o).run [] with
      | (.ok (), writes) => (.success, writes)
      | (.error f, writes) => (.failure f, writes) := by
  simp only [command, ho, StateT.run, bind, StateT.bind]
  rcases (run s.host o).run [] with ⟨_ | _, _⟩ <;> rfl

theorem course {arguments : List String} {o : Options}
    (ho : Options.ofArguments arguments = .ok o) :
    ∃ ending writes, (command s.host arguments).run [] = (ending, writes) ∧
      s.Course o ending writes := by
  rw [s.run_command ho, run_eq, run_bind_stateM, run_readSource]
  cases hsource : s.source o with
  | error f => exact ⟨_, _, rfl, .unread hsource⟩
  | ok source =>
    dsimp only
    rw [run_bind_stateM]
    rcases s.run_perform (o.writes (progress o.mode source)) [] with
      ⟨haccepts, hrun⟩ | ⟨done, w, rest, e, hwrites, haccepts, hw, hrun⟩
    · rw [hrun]
      cases hcompile : compile o.mode source with
      | error e => exact ⟨_, _, rfl, .refused hsource hcompile haccepts⟩
      | ok c => exact ⟨_, _, rfl, .finished hsource hcompile haccepts⟩
    · rw [hrun]
      exact ⟨_, _, rfl, .cut hsource hwrites haccepts hw⟩

end Surroundings

theorem progress_eq_complete {dialect : Dialect} {source : String} {c : Compilation}
    (h : compile dialect source = .ok c) : progress dialect source = .complete c := by
  rw [← outcome_progress] at h
  cases hp : progress dialect source <;> rw [hp] at h <;> cases h
  rfl

theorem mem_dump {path : Option String} {text : String} {w : Write} :
    w ∈ Options.dump path text ↔ ∃ name, path = some name ∧ w = .file name text := by
  simp [Options.dump, eq_comm]

theorem isDump_of_mem_writes {o : Options} {source : String} {e : CompileError}
    (h : compile o.mode source = .error e) :
    ∀ w ∈ o.writes (progress o.mode source), o.IsDump source w := by
  have hdump {tokens : List Token} (htokens : tokenize source = .ok tokens) :
      ∀ w ∈ Options.dump o.tokenDump (Token.listing tokens), o.IsDump source w := by
    intro w hw
    obtain ⟨path, hpath, rfl⟩ := mem_dump.mp hw
    exact .tokens hpath htokens
  rw [← outcome_progress] at h
  unfold progress at *
  cases htokens : tokenize source with
  | error => simp [Options.writes]
  | ok tokens =>
    cases hprogram : parseTokens source o.mode tokens with
    | error => simpa [hprogram, Options.writes] using hdump htokens
    | ok program =>
      cases hcode : assemble program with
      | error =>
        intro w hw
        have hw : w ∈ o.dumps tokens program := by simpa [hprogram, hcode, Options.writes] using hw
        rcases List.mem_append.mp hw with hw | hw
        · exact hdump htokens w hw
        · obtain ⟨path, hpath, rfl⟩ := mem_dump.mp hw
          exact .tree hpath htokens hprogram
      | ok => simp [htokens, hprogram, hcode, Progress.outcome] at h

theorem Options.IsDump.not_output {o : Options} {source text : String} :
    ¬ o.IsDump source (.output text) := by
  rintro ⟨⟩

/-- Whatever fails, a command has written the dumps and the assembly in this order, up to the stage
or the write that fails. If no read or write fails, it succeeds on the sources that compile and
writes the assembly; for the others it shows the error and writes dumps at most. -/
theorem command_writes (s : Surroundings) {arguments : List String} {o : Options}
    (ho : Options.ofArguments arguments = .ok o) :
    ∃ ending writes, (command s.host arguments).run [] = (ending, writes) ∧
      s.Course o ending writes ∧
      ∀ source, s.source o = .ok source → s.Accepts [] writes →
        (ending = .success ↔ ∃ c, compile o.mode source = .ok c) ∧
        (∀ c, compile o.mode source = .ok c →
          writes = o.dumps c.tokens c.program ++ [o.assemblyWrite c.assembly]) ∧
        ∀ e, compile o.mode source = .error e →
          ending.report = e.display ++ "\n" ∧ ending.exitCode = 1 ∧
          (∀ text, .output text ∉ writes) ∧ ∀ w ∈ writes, o.IsDump source w := by
  obtain ⟨ending, writes, hrun, hcourse⟩ := s.course ho
  refine ⟨ending, writes, hrun, hcourse, fun source hsource haccepts => ?_⟩
  cases hcourse with
  | unread hunread => simp [hsource] at hunread
  | cut _ _ _ hw => simp [s.accepts_concat, hw] at haccepts
  | @refused source' e hread hcompile =>
    obtain rfl : source' = source := Except.ok.inj (hread.symm.trans hsource)
    have hdumps := isDump_of_mem_writes hcompile
    simp only [hcompile, Except.error.injEq, reduceCtorEq, exists_false, false_implies,
      implies_true, true_and]
    rintro _ rfl
    exact ⟨rfl, rfl, fun _ hmem => (hdumps _ hmem).not_output, hdumps⟩
  | @finished source' c hread hcompile =>
    obtain rfl : source' = source := Except.ok.inj (hread.symm.trans hsource)
    simp [hcompile, progress_eq_complete hcompile, Options.writes]

/-- An expression lacks an operand, and every write succeeds. -/
theorem command_writes_tokens :
    let s : Surroundings :=
      ⟨fun _ _ => .error .notFound, fun _ => .error .invalidText, fun _ _ => .ok ()⟩
    let o : Options := ⟨some "1 +", none, some "out", some .expression, some "tokens", none, false⟩
    ∃ ending writes,
      (command s.host ["-o", "out", "-d", "expr", "--dump-tokens=tokens", "1 +"]).run [] =
        (ending, writes) ∧
      s.Course o ending writes ∧ ending.exitCode = 1 ∧ ∀ w ∈ writes, o.IsDump "1 +" w := by
  intro s o
  have ho : Options.ofArguments ["-o", "out", "-d", "expr", "--dump-tokens=tokens", "1 +"] =
      .ok o := by
    decide +kernel
  obtain ⟨ending, writes, hrun, hcourse, hagrees⟩ := command_writes s ho
  have haccepts (before ws : List Write) : s.Accepts before ws := by
    induction ws generalizing before with
    | nil => trivial
    | cons w ws ih => exact ⟨rfl, ih _⟩
  obtain ⟨-, -, herror⟩ := hagrees "1 +" rfl (haccepts [] writes)
  cases hcompile : compile o.mode "1 +" with
  | error e =>
    obtain ⟨-, hcode, -, hdumps⟩ := herror e hcompile
    exact ⟨ending, writes, hrun, hcourse, hcode, hdumps⟩
  | ok c =>
    have hnone : (compile o.mode "1 +").toOption.isNone := by decide +kernel
    simp [hcompile, Except.toOption] at hnone

end MiniC.Command
