import MiniC.Proofs.Grammar.Recognition
import MiniC.Proofs.Printing.Render
import MiniC.Proofs.Printing.Texts

/-! A source of one dialect, written out in a larger dialect. -/
namespace MiniC

section Compilation

variable {dialect : Dialect} {source : String} {ts : List String} {p : Program} {code : List Line}

/-- A compilation depends on the texts of its source only, as far as program and code go. -/
theorem compile_eq_ok {c : Compilation} (h : compile dialect source = .ok c) :
    ∃ ts, Token.readTexts source.toList = some ts ∧ Program.Derives dialect ts c.program ∧
      c.program.code = .ok c.code := by
  simp only [compile, tokenize, parseTokens, assemble, bind_eq_ok_iff, mapError_eq_ok_iff,
    pure_eq_ok_iff] at h
  obtain ⟨tokens, hscan, p, hparse, code, hcode, rfl⟩ := h
  refine ⟨Token.texts tokens, ?_, derives_of_parse hparse, hcode⟩
  rw [← Token.textsFound_scan, hscan]
  rfl

theorem exists_compile (hts : Token.readTexts source.toList = some ts)
    (hp : Program.Derives dialect ts p) (hcode : p.code = .ok code) :
    ∃ c, compile dialect source = .ok c ∧ c.program = p ∧ c.code = code := by
  rw [← Token.textsFound_scan] at hts
  obtain ⟨tokens, htokens, rfl⟩ := Option.map_eq_some_iff.mp hts
  have hscan : Token.scan source = .ok tokens := by
    cases hs : Token.scan source with
    | error e => simp [hs, Except.toOption] at htokens
    | ok tokens' => simpa [hs, Except.toOption] using htokens
  refine ⟨⟨tokens, p, code⟩, ?_, rfl, rfl⟩
  simp only [compile, tokenize, parseTokens, assemble, bind_eq_ok_iff, mapError_eq_ok_iff,
    pure_eq_ok_iff]
  exact ⟨tokens, hscan, p, parse_of_derives hp, code, hcode, rfl⟩

end Compilation

section Derivations

/-- A statement after which nothing follows may also stand before a closing brace. -/
theorem Stmt.Derives.beforeBrace {ts : List String} (s : Stmt) (h : Stmt.Derives none ts s) :
    Stmt.Derives (some "\x7d") ts s := by
  cases h with
  | block h => exact .block h
  | ret h => exact .ret h
  | ifThen hcond hbody _ => exact .ifThen hcond (Stmt.Derives.beforeBrace _ hbody) (by decide)
  | ifElse hcond hbody hotherwise =>
    exact .ifElse hcond hbody (Stmt.Derives.beforeBrace _ hotherwise)
  | forLoop hinit hcond hstep hbody =>
    exact .forLoop hinit hcond hstep (Stmt.Derives.beforeBrace _ hbody)
  | whileLoop hcond hbody => exact .whileLoop hcond (Stmt.Derives.beforeBrace _ hbody)
  | expression h hhead => exact .expression h hhead

theorem Stmt.DerivesAll.beforeBrace {ts : List String} (ss : List Stmt)
    (h : Stmt.DerivesAll none ts ss) : Stmt.DerivesAll (some "\x7d") ts ss := by
  cases h with
  | nil => exact .nil
  | @cons _ _ us _ _ hfirst hrest =>
    refine .cons ?_ (Stmt.DerivesAll.beforeBrace _ hrest)
    cases us with
    | nil => exact Stmt.Derives.beforeBrace _ hfirst
    | cons text us => exact hfirst

variable {ts : List String} {p : Program}

/-- An expression is returned. -/
theorem Program.Derives.returned (h : Program.Derives .expression ts p) :
    Program.Derives .statements ("return" :: (ts ++ [";"])) p := by
  cases h with
  | @expression _ e he =>
    have hall : Stmt.DerivesAll none ("return" :: (ts ++ [";"]) ++ []) [.ret e] :=
      .cons (.ret he) .nil
    rw [List.append_nil] at hall
    exact .statements hall

/-- Statements are the body of the function `main`. -/
theorem Program.Derives.enclosed (h : Program.Derives .statements ts p) :
    Program.Derives .functions ("main" :: "(" :: ")" :: "\x7b" :: (ts ++ ["\x7d"])) p := by
  cases h with
  | @statements _ ss hss =>
    have hmain : IsIdentifier "main" := isIdentifier_iff.mpr (by decide)
    have hf : Function.Derives ("main" :: "(" :: ")" :: "\x7b" :: (ts ++ ["\x7d"])) (.main ss) :=
      .mk hmain (List.forall_mem_nil _) (Nat.zero_le _) (Stmt.DerivesAll.beforeBrace ss hss)
    have hall : Function.DerivesAll
        ("main" :: "(" :: ")" :: "\x7b" :: (ts ++ ["\x7d"]) ++ []) [.main ss] :=
      .cons hf .nil
    rw [List.append_nil] at hall
    exact .functions hall

end Derivations

/-- A source compiles to the program and the listing of a compilation. -/
def CompilesTo (dialect : Dialect) (source : String) (c : Compilation) : Prop :=
  ∃ c', compile dialect source = .ok c' ∧ c'.program = c.program ∧ c'.assembly = c.assembly

theorem compilesTo {dialect dialect' : Dialect} {source source' : String} {c : Compilation}
    (h : compile dialect source = .ok c)
    (hsource : ∀ ts, Token.readTexts source.toList = some ts →
      Program.Derives dialect ts c.program → ∃ ts', Token.readTexts source'.toList = some ts' ∧
        Program.Derives dialect' ts' c.program) : CompilesTo dialect' source' c := by
  obtain ⟨ts, hts, hderives, hcode⟩ := compile_eq_ok h
  obtain ⟨ts', hts', hderives'⟩ := hsource ts hts hderives
  obtain ⟨c', hc', hprogram, hcode'⟩ := exists_compile hts' hderives' hcode
  exact ⟨c', hc', hprogram, congrArg listing hcode'⟩

/-- An expression is the same program when it is returned by a statement, and statements are the
same program when they are the body of `main`. -/
theorem dialects_agree :
    (∀ (e : String) (c : Compilation), compile .expression e = .ok c →
      CompilesTo .statements ("return " ++ e ++ ";") c ∧
      CompilesTo .functions ("main() \x7b return " ++ e ++ "; \x7d") c) ∧
    ∀ (s : String) (c : Compilation), compile .statements s = .ok c →
      CompilesTo .functions ("main() \x7b " ++ s ++ " \x7d") c := by
  have hreturn : Token.readTexts "return".toList = some ["return"] := by cbv
  have hsemicolon : Token.readTexts [';'] = some [";"] := by cbv
  have hmain : Token.readTexts "main() \x7b".toList = some ["main", "(", ")", "\x7b"] := by cbv
  have hmainReturn : Token.readTexts "main() \x7b return".toList =
      some ["main", "(", ")", "\x7b", "return"] := by cbv
  have hbrace : Token.readTexts [' ', '\x7d'] = some ["\x7d"] := by cbv
  have hboth : Token.readTexts [';', ' ', '\x7d'] = some [";", "\x7d"] := by cbv
  refine ⟨fun e c h => ⟨?_, ?_⟩, fun s c h => ?_⟩
  · refine compilesTo h fun ts hts hderives => ⟨_, ?_, hderives.returned⟩
    simpa using Token.readTexts_between hreturn hts hsemicolon
      (Token.detached_cons (by decide) (by decide))
  · refine compilesTo h fun ts hts hderives => ⟨_, ?_, hderives.returned.enclosed⟩
    simpa using Token.readTexts_between hmainReturn hts hboth
      (Token.detached_cons (by decide) (by decide))
  · refine compilesTo h fun ts hts hderives => ⟨_, ?_, hderives.enclosed⟩
    simpa using Token.readTexts_between hmain hts hbrace
      (Token.detached_cons (by decide) (by decide))

/-- `a = 1; if (a) return a;` -/
def branching : List Stmt :=
  [.expr (.assign (.var "a") (.num 1)), .ifThen (.var "a") (.ret (.var "a"))]

theorem branching_agrees :
    (∃ c, compile .expression "a = 1" = .ok c ∧
      CompilesTo .statements ("return " ++ "a = 1" ++ ";") c ∧
      CompilesTo .functions ("main() \x7b return " ++ "a = 1" ++ "; \x7d") c) ∧
    ∃ c, compile .statements "a = 1; if (a) return a;" = .ok c ∧ c.program = [.main branching] ∧
      CompilesTo .functions ("main() \x7b " ++ "a = 1; if (a) return a;" ++ " \x7d") c := by
  constructor
  · have htexts : Token.readTexts "a = 1".toList =
        some (Expr.texts (.assign (.var "a") (.num 1))) := by cbv
    obtain ⟨c, hc, -, -⟩ := exists_compile htexts
      (.expression (Expr.derives_assignment _ (by decide))) rfl
    exact ⟨c, hc, dialects_agree.1 _ c hc⟩
  · have htexts : Token.readTexts "a = 1; if (a) return a;".toList =
        some (Stmt.textsOfAll branching) := by cbv
    obtain ⟨c, hc, hprogram, -⟩ := exists_compile htexts
      (.statements (Stmt.derives_textsOfAll branching (by decide) (by decide))) rfl
    exact ⟨c, hc, hprogram, dialects_agree.2 _ c hc⟩

end MiniC
