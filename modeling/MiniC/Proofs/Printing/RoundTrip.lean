import MiniC.Proofs.Grammar.Recognition
import MiniC.Proofs.Printing.Render
import MiniC.Proofs.Printing.Scanning

/-! The source of a program is read back as the same program. -/
namespace MiniC

open Token (IsLexeme)

/-- Texts that are all lexemes. -/
def Lexemes (texts : List String) : Prop :=
  ∀ text ∈ texts, IsLexeme text

variable {text : String} {ts us : List String}

theorem IsIdentifier.isLexeme (h : IsIdentifier text) : IsLexeme text :=
  .inr (.inl h)

theorem IsNumeral.isLexeme {n : Nat} (h : IsNumeral text n) : IsLexeme text :=
  .inr (.inr ⟨n, h⟩)

theorem isLexeme_of_mem_punctuators (h : text ∈ Token.punctuators) : IsLexeme text :=
  .inl h

theorem isLexeme_of_mem_keywords (h : text ∈ keywords) : IsLexeme text := by
  have hall : keywords.all Token.isWord := by decide
  exact (isIdentifier_iff.mpr (List.all_eq_true.mp hall text h)).isLexeme

@[simp] theorem lexemes_nil : Lexemes [] := by
  simp [Lexemes]

@[simp] theorem lexemes_cons : Lexemes (text :: ts) ↔ IsLexeme text ∧ Lexemes ts := by
  simp [Lexemes]

@[simp] theorem lexemes_append : Lexemes (ts ++ us) ↔ Lexemes ts ∧ Lexemes us := by
  simp [Lexemes, or_imp, forall_and]

@[simp] theorem isLexeme_punctuator :
    IsLexeme "(" ∧ IsLexeme ")" ∧ IsLexeme "," ∧ IsLexeme ";" ∧ IsLexeme "=" ∧
      IsLexeme "\x7b" ∧ IsLexeme "\x7d" := by
  refine ⟨?_, ?_, ?_, ?_, ?_, ?_, ?_⟩ <;> exact isLexeme_of_mem_punctuators (by decide)

@[simp] theorem isLexeme_keyword :
    IsLexeme "return" ∧ IsLexeme "if" ∧ IsLexeme "else" ∧ IsLexeme "for" ∧ IsLexeme "while" := by
  refine ⟨?_, ?_, ?_, ?_, ?_⟩ <;> exact isLexeme_of_mem_keywords (by decide)

theorem lexemes_intersperse (h : ∀ text ∈ ts, IsLexeme text) : Lexemes (ts.intersperse ",") := by
  induction ts with
  | nil => simp
  | cons text ts ih =>
    obtain ⟨htext, hts⟩ := List.forall_mem_cons.mp h
    cases ts with
    | nil => simpa using htext
    | cons text' ts =>
      rw [List.intersperse_cons_cons]
      simpa using ⟨htext, ih hts⟩

theorem lexemes_intercalate {tss : List (List String)} (h : ∀ ts ∈ tss, Lexemes ts) :
    Lexemes (List.intercalate [","] tss) := by
  induction tss with
  | nil => simp
  | cons ts tss ih =>
    obtain ⟨hts, htss⟩ := List.forall_mem_cons.mp h
    cases tss with
    | nil => simpa using hts
    | cons ts' tss =>
      rw [List.intercalate_cons_cons]
      simpa using ⟨hts, ih htss⟩

theorem Level.HasBinary.isLexeme {l : Level} {op : BinOp} (h : l.HasBinary text op) :
    IsLexeme text := by
  cases h <;> exact isLexeme_of_mem_punctuators (by decide)

theorem Level.HasUnary.isLexeme {l : Level} {op : UnOp} (h : l.HasUnary text op) :
    IsLexeme text := by
  cases h <;> exact isLexeme_of_mem_punctuators (by decide)

theorem Expr.Derives.lexemes {l : Level} {e : Expr} (h : Expr.Derives l ts e) : Lexemes ts := by
  induction h with
  | next _ _ ih => exact ih
  | binary hop _ _ _ iha ihb => simpa using ⟨iha, hop.isLexeme, ihb⟩
  | assign _ _ iha ihb => simpa using ⟨iha, ihb⟩
  | unary hop _ ih => simpa using ⟨hop.isLexeme, ih⟩
  | brackets _ ih => simpa using ih
  | var hname => simpa using hname.isLexeme
  | num hnumeral _ => simpa using hnumeral.isLexeme
  | call hname _ _ ih =>
    have hargs := lexemes_intercalate (List.forall_mem_map.mpr ih)
    simpa using ⟨hname.isLexeme, hargs⟩

theorem Expr.DerivesClause.lexemes {e : Expr} (h : Expr.DerivesClause ts e) : Lexemes ts := by
  cases h with
  | empty => exact lexemes_nil
  | expression h => exact h.lexemes

mutual

theorem Stmt.Derives.lexemes {following : Option String} {ts : List String} (s : Stmt)
    (h : Stmt.Derives following ts s) : Lexemes ts := by
  cases h with
  | block h => simpa using Stmt.DerivesAll.lexemes _ h
  | ret h => simpa using h.lexemes
  | ifThen hcond hbody _ => simpa using ⟨hcond.lexemes, Stmt.Derives.lexemes _ hbody⟩
  | ifElse hcond hbody hotherwise =>
    have hbody := Stmt.Derives.lexemes _ hbody
    have hotherwise := Stmt.Derives.lexemes _ hotherwise
    simpa using ⟨hcond.lexemes, hbody, hotherwise⟩
  | forLoop hinit hcond hstep hbody =>
    have hbody := Stmt.Derives.lexemes _ hbody
    simpa using ⟨hinit.lexemes, hcond.lexemes, hstep.lexemes, hbody⟩
  | whileLoop hcond hbody => simpa using ⟨hcond.lexemes, Stmt.Derives.lexemes _ hbody⟩
  | expression h _ => simpa using h.lexemes

theorem Stmt.DerivesAll.lexemes {following : Option String} {ts : List String} (ss : List Stmt)
    (h : Stmt.DerivesAll following ts ss) : Lexemes ts := by
  cases h with
  | nil => exact lexemes_nil
  | cons hfirst hrest =>
    exact lexemes_append.mpr ⟨Stmt.Derives.lexemes _ hfirst, Stmt.DerivesAll.lexemes _ hrest⟩

end

theorem Function.Derives.lexemes {f : Function} (h : Function.Derives ts f) : Lexemes ts := by
  obtain ⟨hname, hparams, -, hbody⟩ := h
  have hbody := Stmt.DerivesAll.lexemes _ hbody
  have hparams := lexemes_intersperse fun param hparam => (hparams param hparam).isLexeme
  simpa using ⟨hname.isLexeme, hparams, hbody⟩

theorem Function.DerivesAll.lexemes {fs : List Function} (h : Function.DerivesAll ts fs) :
    Lexemes ts := by
  induction h with
  | nil => exact lexemes_nil
  | cons hfirst _ ih => exact lexemes_append.mpr ⟨hfirst.lexemes, ih⟩

/-- The source of a program is cut into the texts that it was made of, and these are parsed as the
program. -/
theorem parse_render (p : Program) (h : ∀ f ∈ p, f.isPrintable) :
    ∃ tokens, tokenize p.render = .ok tokens ∧
      parseTokens p.render .functions tokens = .ok p := by
  have hderives := Program.derives_texts h
  have hlexemes : Lexemes p.texts := by
    cases hderives with
    | functions hall => exact hall.lexemes
  obtain ⟨tokens, hscan, htexts⟩ := Token.scan_intercalate hlexemes
  rw [← htexts] at hderives
  refine ⟨tokens, ?_, ?_⟩
  · rw [tokenize, Program.render, hscan]
    rfl
  · rw [parseTokens, parse_of_derives hderives]
    rfl

/-- A function in which brackets, signs and an `else` matter. -/
def scaling : Function where
  name := "scale"
  params := ["a", "b"]
  body := [
    .ifElse (.binary .lt (.var "a") (.num 0))
      (.whileLoop (.var "b") (.expr (.assign (.var "b") (.assign (.var "a") (.num 2)))))
      (.ifThen (.var "a") (.ret (.binary .sub (.var "a") (.binary .sub (.var "b") (.num 1))))),
    .ret (.unary .minus (.binary .mul (.binary .add (.var "a") (.num 1))
      (.call "scale" [.var "b", .unary .deref (.unary .address (.var "a"))])))]

theorem scaling_reads_back :
    (∀ f ∈ [scaling], f.isPrintable) ∧
    ∃ tokens, tokenize (Program.render [scaling]) = .ok tokens ∧
      parseTokens (Program.render [scaling]) .functions tokens = .ok [scaling] := by
  have h : ∀ f ∈ [scaling], f.isPrintable := by decide
  exact ⟨h, parse_render [scaling] h⟩

example : Program.texts [scaling] = ["scale", "(", "a", ",", "b", ")", "\x7b",
    "if", "(", "a", "<", "0", ")", "while", "(", "b", ")", "b", "=", "a", "=", "2", ";",
    "else", "if", "(", "a", ")", "return", "a", "-", "(", "b", "-", "1", ")", ";",
    "return", "-", "(", "(", "a", "+", "1", ")", "*", "scale", "(", "b", ",", "*", "&", "a", ")",
    ")", ";", "\x7d"] := by
  cbv

end MiniC
