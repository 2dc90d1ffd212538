import Mathlib
import MiniC.Grammar.Reading

/-! The grammar, as derivations of programs from token texts. -/
namespace MiniC

/-- A letter or an underscore, then letters, digits and underscores. -/
def IsIdentifier (text : String) : Prop :=
  ∃ c cs, text.toList = c :: cs ∧ (c.isAlpha ∨ c = '_') ∧ ∀ d ∈ cs, d.isAlphanum ∨ d = '_'

/-- Digits, at least one, and the number that they stand for. -/
def IsNumeral (text : String) (n : Nat) : Prop :=
  text ≠ "" ∧ (∀ c ∈ text.toList, c.isDigit) ∧ n = Nat.ofDigitChars 10 text.toList 0

/-- The operands of a level are of the next one. -/
inductive Level.Next : Level → Level → Prop where
  | assignment : Next .assignment .equality
  | equality : Next .equality .relational
  | relational : Next .relational .additive
  | additive : Next .additive .multiplicative
  | multiplicative : Next .multiplicative .sign
  | sign : Next .sign .address
  | address : Next .address .primary

inductive Level.HasBinary : Level → String → BinOp → Prop where
  | eq : HasBinary .equality "==" .eq
  | ne : HasBinary .equality "!=" .ne
  | ge : HasBinary .relational ">=" .ge
  | le : HasBinary .relational "<=" .le
  | gt : HasBinary .relational ">" .gt
  | lt : HasBinary .relational "<" .lt
  | add : HasBinary .additive "+" .add
  | sub : HasBinary .additive "-" .sub
  | mul : HasBinary .multiplicative "*" .mul
  | div : HasBinary .multiplicative "/" .div

inductive Level.HasUnary : Level → String → UnOp → Prop where
  | plus : HasUnary .sign "+" .plus
  | minus : HasUnary .sign "-" .minus
  | address : HasUnary .address "&" .address
  | deref : HasUnary .address "*" .deref

/-- Texts that form an expression of a level. Arguments have commas between them. -/
inductive Expr.Derives : Level → List String → Expr → Prop where
  | next {l l' ts e} : l.Next l' → Expr.Derives l' ts e → Expr.Derives l ts e
  | binary {l l' text op as bs a b} : l.HasBinary text op → l.Next l' → Expr.Derives l as a →
      Expr.Derives l' bs b → Expr.Derives l (as ++ text :: bs) (.binary op a b)
  | assign {as bs a b} : Expr.Derives .equality as a → Expr.Derives .assignment bs b →
      Expr.Derives .assignment (as ++ "=" :: bs) (.assign a b)
  | unary {l text op ts e} : l.HasUnary text op → Expr.Derives l ts e →
      Expr.Derives l (text :: ts) (.unary op e)
  | brackets {ts e} : Expr.Derives .assignment ts e →
      Expr.Derives .primary ("(" :: (ts ++ [")"])) e
  | var {name} : IsIdentifier name → Expr.Derives .primary [name] (.var name)
  | num {text n} : IsNumeral text n → n ≤ 2 ^ 63 - 1 →
      Expr.Derives .primary [text] (.num (.ofNat n))
  | call {name} {args : List (List String × Expr)} : IsIdentifier name → args.length ≤ 6 →
      (∀ arg ∈ args, Expr.Derives .assignment arg.1 arg.2) →
      Expr.Derives .primary
        (name :: "(" :: (List.intercalate [","] (args.map Prod.fst) ++ [")"]))
        (.call name (args.map Prod.snd))

/-- A clause of a `for`; an empty clause stands for 1. -/
inductive Expr.DerivesClause : List String → Expr → Prop where
  | empty : Expr.DerivesClause [] (.num 1)
  | expression {ts e} : Expr.Derives .assignment ts e → Expr.DerivesClause ts e

mutual

/-- Texts that form a statement where a text follows, or nothing. -/
inductive Stmt.Derives : Option String → List String → Stmt → Prop where
  | block {following ts ss} : Stmt.DerivesAll (some "\x7d") ts ss →
      Stmt.Derives following ("\x7b" :: (ts ++ ["\x7d"])) (.block ss)
  | ret {following ts e} : Expr.Derives .assignment ts e →
      Stmt.Derives following ("return" :: (ts ++ [";"])) (.ret e)
  | ifThen {following cs ts c s} : Expr.Derives .assignment cs c → Stmt.Derives following ts s →
      following ≠ some "else" →
      Stmt.Derives following ("if" :: "(" :: (cs ++ ")" :: ts)) (.ifThen c s)
  | ifElse {following cs ts us c s t} : Expr.Derives .assignment cs c →
      Stmt.Derives (some "else") ts s → Stmt.Derives following us t →
      Stmt.Derives following ("if" :: "(" :: (cs ++ ")" :: (ts ++ "else" :: us))) (.ifElse c s t)
  | forLoop {following as cs bs ts a c b s} : Expr.DerivesClause as a → Expr.DerivesClause cs c →
      Expr.DerivesClause bs b → Stmt.Derives following ts s →
      Stmt.Derives following ("for" :: "(" :: (as ++ ";" :: (cs ++ ";" :: (bs ++ ")" :: ts))))
        (.forLoop a c b s)
  | whileLoop {following cs ts c s} : Expr.Derives .assignment cs c →
      Stmt.Derives following ts s →
      Stmt.Derives following ("while" :: "(" :: (cs ++ ")" :: ts)) (.whileLoop c s)
  | expression {following ts e} : Expr.Derives .assignment ts e →
      (∀ text ∈ ts.head?, text ∉ ["return", "if", "for", "while"]) →
      Stmt.Derives following (ts ++ [";"]) (.expr e)

inductive Stmt.DerivesAll : Option String → List String → List Stmt → Prop where
  | nil {following} : Stmt.DerivesAll following [] []
  | cons {following ts us s ss} : Stmt.Derives (us.head?.or following) ts s →
      Stmt.DerivesAll following us ss → Stmt.DerivesAll following (ts ++ us) (s :: ss)

end

inductive Function.Derives : List String → Function → Prop where
  | mk {name params ts body} : IsIdentifier name → (∀ param ∈ params, IsIdentifier param) →
      params.length ≤ 6 → Stmt.DerivesAll (some "\x7d") ts body →
      Function.Derives
        (name :: "(" :: (params.intersperse "," ++ ")" :: "\x7b" :: (ts ++ ["\x7d"])))
        ⟨name, params, body⟩

inductive Function.DerivesAll : List String → List Function → Prop where
  | nil : Function.DerivesAll [] []
  | cons {ts us f fs} : Function.Derives ts f → Function.DerivesAll us fs →
      Function.DerivesAll (ts ++ us) (f :: fs)

/-- Texts that form a program in a dialect. -/
inductive Program.Derives : Dialect → List String → Program → Prop where
  | expression {ts e} : Expr.Derives .assignment ts e →
      Program.Derives .expression ts [Function.main [.ret e]]
  | statements {ts ss} : Stmt.DerivesAll none ts ss →
      Program.Derives .statements ts [Function.main ss]
  | functions {ts fs} : Function.DerivesAll ts fs → Program.Derives .functions ts fs

/-- The texts of tokens, which are all that the grammar sees. -/
def Token.texts (ts : List Token) : List String :=
  ts.map Token.text

@[simp] theorem Token.texts_nil : Token.texts [] = [] :=
  rfl

@[simp] theorem Token.texts_cons (t : Token) (ts : List Token) :
    Token.texts (t :: ts) = t.text :: Token.texts ts :=
  rfl

@[simp] theorem Token.texts_append (ts us : List Token) :
    Token.texts (ts ++ us) = Token.texts ts ++ Token.texts us :=
  List.map_append

@[simp] theorem Token.length_texts (ts : List Token) : (Token.texts ts).length = ts.length :=
  List.length_map _

theorem isIdentifier_iff {text : String} : IsIdentifier text ↔ Token.isWord text := by
  unfold IsIdentifier Token.isWord
  cases h : text.toList with
  | nil => simp
  | cons c cs => simp [Token.isWordStart, Token.isWordRest]

theorem not_isWordStart_of_isDigit {c : Char} (h : c.isDigit) : Token.isWordStart c = false := by
  have hrange : 48 ≤ c.toNat ∧ c.toNat ≤ 57 := by
    simpa [Char.isDigit, UInt32.le_iff_toNat_le] using h
  rw [Bool.eq_false_iff]
  intro hstart
  simp [Token.isWordStart, Char.isAlpha, Char.isUpper, Char.isLower,
    UInt32.le_iff_toNat_le] at hstart
  rcases hstart with (hupper | hlower) | rfl
  · omega
  · omega
  · exact absurd h (by decide)

namespace Level

theorem next_iff {l l' : Level} : l.Next l' ↔ l ≠ .primary ∧ l' = l.tighter := by
  constructor
  · rintro ⟨⟩ <;> exact ⟨by decide, rfl⟩
  · rintro ⟨hl, rfl⟩
    cases l
    all_goals first | exact absurd rfl hl | constructor

theorem hasBinary_iff {l : Level} {text : String} {op : BinOp} :
    l.HasBinary text op ↔ l.binOp? text = some op := by
  constructor
  · rintro ⟨⟩ <;> rfl
  · intro h
    have hmem := List.mem_of_find?_eq_some h
    obtain rfl : op.symbol = text := by simpa using List.find?_some h
    cases l <;> simp only [binOps, List.mem_cons, List.not_mem_nil, or_false] at hmem
    all_goals rcases hmem with rfl | rfl | rfl | rfl <;> constructor

theorem hasUnary_iff {l : Level} {text : String} {op : UnOp} :
    l.HasUnary text op ↔ l.unOp? text = some op := by
  constructor
  · rintro ⟨⟩ <;> rfl
  · intro h
    have hmem := List.mem_of_find?_eq_some h
    obtain rfl : op.symbol = text := by simpa using List.find?_some h
    cases l <;> simp only [unOps, List.mem_cons, List.not_mem_nil, or_false] at hmem
    all_goals rcases hmem with rfl | rfl <;> constructor

end Level

theorem Stmt.Derives.ne_nil {following : Option String} {ts : List String} {s : Stmt}
    (h : Stmt.Derives following ts s) : ts ≠ [] := by
  cases h <;> simp

theorem Function.Derives.ne_nil {ts : List String} {f : Function}
    (h : Function.Derives ts f) : ts ≠ [] := by
  cases h
  exact List.cons_ne_nil _ _

/-- How the text of a token that announces a statement is written. -/
def Opening.text : Opening → String
  | block => "\x7b"
  | ret => "return"
  | branch => "if"
  | forLoop => "for"
  | whileLoop => "while"

theorem Opening.ofText?_eq_some_iff {text : String} {o : Opening} :
    ofText? text = some o ↔ text = o.text := by
  constructor
  · intro h
    unfold ofText? at h
    split_ifs at h <;> cases h <;> assumption
  · rintro rfl
    cases o <;> rfl

theorem Opening.ofText?_eq_none_iff {text : String} :
    ofText? text = none ↔ text ≠ "\x7b" ∧ text ∉ ["return", "if", "for", "while"] := by
  rw [Option.eq_none_iff_forall_ne_some]
  constructor
  · intro h
    have hne : ∀ o : Opening, text ≠ o.text := fun o ho => h o (ofText?_eq_some_iff.mpr ho)
    refine ⟨hne .block, ?_⟩
    simpa using ⟨hne .ret, hne .branch, hne .forLoop, hne .whileLoop⟩
  · rintro ⟨hblock, hwords⟩ o ho
    obtain rfl := ofText?_eq_some_iff.mp ho
    cases o <;> simp [Opening.text] at hblock hwords

end MiniC
