import MiniC.Proofs.Grammar.Derivation

/-! Programs written as source text with as few brackets as the grammar allows. -/
namespace MiniC

def BinOp.level : BinOp → Level
  | eq | ne => .equality
  | ge | le | gt | lt => .relational
  | add | sub => .additive
  | mul | div => .multiplicative

def UnOp.level : UnOp → Level
  | plus | minus => .sign
  | address | deref => .address

/-- The tightest level that an expression has without brackets. -/
def Expr.level : Expr → Level
  | num _ | var _ | call _ _ => .primary
  | unary op _ => op.level
  | binary op _ _ => op.level
  | assign _ _ => .assignment

/-- An expression where a level is required, in brackets if its own level is looser. -/
def bracketed (l : Level) (e : Expr) (texts : List String) : List String :=
  if e.level.rank ≤ l.rank then texts else "(" :: (texts ++ [")"])

mutual

/-- The tokens that an expression is written with. -/
def Expr.texts : Expr → List String
  | .num value => [toString value.toInt]
  | .var name => [name]
  | .unary op operand => op.symbol :: bracketed op.level operand operand.texts
  | .binary op lhs rhs =>
    bracketed op.level lhs lhs.texts ++ op.symbol :: bracketed op.level.tighter rhs rhs.texts
  | .assign lhs rhs =>
    bracketed .equality lhs lhs.texts ++ "=" :: bracketed .assignment rhs rhs.texts
  | .call callee args =>
    callee :: "(" :: (List.intercalate [","] (Expr.textsOfAll args) ++ [")"])

def Expr.textsOfAll : List Expr → List (List String)
  | [] => []
  | e :: es => e.texts :: Expr.textsOfAll es

end

mutual

def Stmt.texts : Stmt → List String
  | .expr e => e.texts ++ [";"]
  | .ret e => "return" :: (e.texts ++ [";"])
  | .ifThen cond body => "if" :: "(" :: (cond.texts ++ ")" :: body.texts)
  | .ifElse cond body otherwise =>
    "if" :: "(" :: (cond.texts ++ ")" :: (body.texts ++ "else" :: otherwise.texts))
  | .whileLoop cond body => "while" :: "(" :: (cond.texts ++ ")" :: body.texts)
  | .forLoop init cond step body =>
    "for" :: "(" ::
      (init.texts ++ ";" :: (cond.texts ++ ";" :: (step.texts ++ ")" :: body.texts)))
  | .block body => "\x7b" :: (Stmt.textsOfAll body ++ ["\x7d"])

def Stmt.textsOfAll : List Stmt → List String
  | [] => []
  | s :: ss => s.texts ++ Stmt.textsOfAll ss

end

def Function.texts (f : Function) : List String :=
  f.name :: "(" ::
    (f.params.intersperse "," ++ ")" :: "\x7b" :: (Stmt.textsOfAll f.body ++ ["\x7d"]))

def Program.texts : Program → List String
  | [] => []
  | f :: fs => f.texts ++ Program.texts fs

/-- The source of a program, with a space between tokens. -/
def Program.render (p : Program) : String :=
  String.intercalate " " p.texts

def keywords : List String :=
  ["return", "if", "else", "for", "while"]

/-- An identifier that announces no statement. -/
def isName (text : String) : Bool :=
  Token.isWord text && text ∉ keywords

mutual

/-- Whether an expression has a source text. Literals have no sign. -/
def Expr.isPrintable : Expr → Bool
  | .num value => 0 ≤ value
  | .var name => isName name
  | .unary _ operand => operand.isPrintable
  | .binary _ lhs rhs => lhs.isPrintable && rhs.isPrintable
  | .assign lhs rhs => lhs.isPrintable && rhs.isPrintable
  | .call callee args => isName callee && args.length ≤ 6 && Expr.allPrintable args

def Expr.allPrintable : List Expr → Bool
  | [] => true
  | e :: es => e.isPrintable && Expr.allPrintable es

end

/-- Whether an `else` after a statement would belong to an `if` within it. -/
def Stmt.endsInIf : Stmt → Bool
  | .ifThen _ _ => true
  | .ifElse _ _ otherwise => otherwise.endsInIf
  | .whileLoop _ body => body.endsInIf
  | .forLoop _ _ _ body => body.endsInIf
  | .expr _ | .ret _ | .block _ => false

mutual

def Stmt.isPrintable : Stmt → Bool
  | .expr e => e.isPrintable
  | .ret e => e.isPrintable
  | .ifThen cond body => cond.isPrintable && body.isPrintable
  | .ifElse cond body otherwise =>
    cond.isPrintable && body.isPrintable && !body.endsInIf && otherwise.isPrintable
  | .whileLoop cond body => cond.isPrintable && body.isPrintable
  | .forLoop init cond step body =>
    init.isPrintable && cond.isPrintable && step.isPrintable && body.isPrintable
  | .block body => Stmt.allPrintable body

def Stmt.allPrintable : List Stmt → Bool
  | [] => true
  | s :: ss => s.isPrintable && Stmt.allPrintable ss

end

def Function.isPrintable (f : Function) : Bool :=
  isName f.name && f.params.all isName && f.params.length ≤ 6 && Stmt.allPrintable f.body

theorem isName_iff {text : String} : isName text ↔ IsIdentifier text ∧ text ∉ keywords := by
  rw [isName, Bool.and_eq_true, decide_eq_true_eq, isIdentifier_iff]

theorem BinOp.hasBinary (op : BinOp) : op.level.HasBinary op.symbol op := by
  cases op <;> constructor

theorem BinOp.level_ne_primary (op : BinOp) : op.level ≠ .primary := by
  cases op <;> decide

theorem UnOp.hasUnary (op : UnOp) : op.level.HasUnary op.symbol op := by
  cases op <;> constructor

/-- A tighter expression may stand where a looser one is required. -/
theorem Expr.Derives.of_rank_le {l l' : Level} {ts : List String} {e : Expr}
    (h : Expr.Derives l' ts e) (hle : l'.rank ≤ l.rank) : Expr.Derives l ts e := by
  by_cases hl : l = l'
  · rwa [hl]
  · have hne : l ≠ .primary := by
      rintro rfl
      cases l' <;> simp_all [Level.rank]
    have hrank := Level.rank_tighter_lt hne
    have hle' : l'.rank ≤ l.tighter.rank := by
      cases l <;> cases l' <;> simp_all [Level.rank, Level.tighter]
    exact .next (Level.next_iff.mpr ⟨hne, rfl⟩) (h.of_rank_le hle')
termination_by l.rank

theorem derives_bracketed {e : Expr} {ts : List String} (h : Expr.Derives e.level ts e)
    (l : Level) : Expr.Derives l (bracketed l e ts) e := by
  unfold bracketed
  split
  · next hle => exact h.of_rank_le hle
  · have hinner : Expr.Derives .assignment ts e := h.of_rank_le (Level.rank_le _)
    exact (Expr.Derives.brackets hinner).of_rank_le (Nat.zero_le _)

theorem isNumeral_repr (n : Nat) : IsNumeral n.repr n := by
  refine ⟨Nat.repr_ne_empty, ?_, ?_⟩
  · intro c hc
    rw [Nat.toList_repr] at hc
    exact Nat.isDigit_of_mem_toDigits (by decide) le_rfl hc
  · rw [Nat.toList_repr, Nat.ofDigitChars_ten_toDigits]

theorem isNumeral_toString {value : Int64} (h : 0 ≤ value) :
    ∃ n, n ≤ 2 ^ 63 - 1 ∧ IsNumeral (toString value.toInt) n ∧ value = .ofNat n := by
  have hpos : 0 ≤ value.toInt := by simpa [Int64.le_iff_toInt_le] using h
  obtain ⟨n, hn⟩ := Int.eq_ofNat_of_zero_le hpos
  have hlt := value.toInt_lt
  refine ⟨n, by omega, ?_, ?_⟩
  · rw [hn]
    exact isNumeral_repr n
  · rw [← Int64.ofInt_toInt value, hn]
    rfl

theorem textsOfAll_eq_map (es : List Expr) : Expr.textsOfAll es = es.map Expr.texts := by
  induction es with
  | nil => rfl
  | cons e es ih => rw [Expr.textsOfAll, ih, List.map_cons]

mutual

/-- What an expression is written with derives it. -/
theorem Expr.derives_texts (e : Expr) (h : e.isPrintable) : Expr.Derives e.level e.texts e := by
  cases e with
  | num value =>
    rw [Expr.isPrintable, decide_eq_true_eq] at h
    obtain ⟨n, hn, hnumeral, hvalue⟩ := isNumeral_toString h
    rw [Expr.texts]
    nth_rewrite 3 [hvalue]
    exact .num hnumeral hn
  | var name =>
    rw [Expr.isPrintable] at h
    rw [Expr.texts]
    exact .var (isName_iff.mp h).1
  | unary op operand =>
    rw [Expr.isPrintable] at h
    rw [Expr.texts]
    exact .unary op.hasUnary (derives_bracketed (operand.derives_texts h) _)
  | binary op lhs rhs =>
    rw [Expr.isPrintable, Bool.and_eq_true] at h
    rw [Expr.texts]
    refine .binary op.hasBinary (Level.next_iff.mpr ⟨op.level_ne_primary, rfl⟩) ?_ ?_
    · exact derives_bracketed (lhs.derives_texts h.1) _
    · exact derives_bracketed (rhs.derives_texts h.2) _
  | assign lhs rhs =>
    rw [Expr.isPrintable, Bool.and_eq_true] at h
    rw [Expr.texts]
    exact .assign (derives_bracketed (lhs.derives_texts h.1) _)
      (derives_bracketed (rhs.derives_texts h.2) _)
  | call callee args =>
    rw [Expr.isPrintable, Bool.and_eq_true, Bool.and_eq_true, decide_eq_true_eq] at h
    obtain ⟨⟨hname, hlength⟩, hargs⟩ := h
    have hall := Expr.derives_textsOfAll args hargs
    let pairs := args.map fun e => (e.texts, e)
    have hcall : Expr.Derives .primary
        (callee :: "(" :: (List.intercalate [","] (pairs.map Prod.fst) ++ [")"]))
        (.call callee (pairs.map Prod.snd)) := by
      refine .call (isName_iff.mp hname).1 (by rwa [List.length_map]) ?_
      intro arg harg
      obtain ⟨e, he, rfl⟩ := List.mem_map.mp harg
      exact hall e he
    have hfst : pairs.map Prod.fst = args.map Expr.texts := by
      rw [List.map_map]
      rfl
    have hsnd : pairs.map Prod.snd = args := by
      rw [List.map_map]
      exact List.map_id' args
    rw [Expr.texts, textsOfAll_eq_map]
    rwa [hfst, hsnd] at hcall

theorem Expr.derives_textsOfAll (es : List Expr) (h : Expr.allPrintable es) :
    ∀ e ∈ es, Expr.Derives .assignment e.texts e := by
  cases es with
  | nil => simp
  | cons e es =>
    rw [Expr.allPrintable, Bool.and_eq_true] at h
    have hfirst := e.derives_texts h.1
    have hrest := Expr.derives_textsOfAll es h.2
    exact List.forall_mem_cons.mpr ⟨hfirst.of_rank_le (Level.rank_le _), hrest⟩

end

theorem symbol_not_keyword (op : UnOp) : op.symbol ∉ keywords := by
  cases op <;> decide

theorem IsNumeral.not_keyword {text : String} {n : Nat} (h : IsNumeral text n) :
    text ∉ keywords := by
  obtain ⟨-, hdigits, -⟩ := h
  intro hmem
  simp only [keywords, List.mem_cons, List.not_mem_nil, or_false] at hmem
  rcases hmem with rfl | rfl | rfl | rfl | rfl <;> simp at hdigits

theorem head_bracketed {l : Level} {e : Expr} {ts : List String}
    (h : ∃ text more, ts = text :: more ∧ text ∉ keywords) :
    ∃ text more, bracketed l e ts = text :: more ∧ text ∉ keywords := by
  unfold bracketed
  split
  · exact h
  · exact ⟨_, _, rfl, by decide⟩

/-- An expression does not begin like a statement of another kind. -/
theorem Expr.head_texts (e : Expr) (h : e.isPrintable) :
    ∃ text more, e.texts = text :: more ∧ text ∉ keywords := by
  match e, h with
  | .num value, h =>
    rw [Expr.isPrintable, decide_eq_true_eq] at h
    obtain ⟨n, -, hnumeral, -⟩ := isNumeral_toString h
    exact ⟨_, _, by rw [Expr.texts], hnumeral.not_keyword⟩
  | .var name, h =>
    rw [Expr.isPrintable] at h
    exact ⟨_, _, by rw [Expr.texts], (isName_iff.mp h).2⟩
  | .unary op operand, _ => exact ⟨_, _, by rw [Expr.texts], symbol_not_keyword op⟩
  | .binary op lhs rhs, h =>
    rw [Expr.isPrintable, Bool.and_eq_true] at h
    obtain ⟨text, more, hhead, hword⟩ := head_bracketed (l := op.level) (e := lhs)
      (lhs.head_texts h.1)
    rw [Expr.texts, hhead, List.cons_append]
    exact ⟨text, _, rfl, hword⟩
  | .assign lhs rhs, h =>
    rw [Expr.isPrintable, Bool.and_eq_true] at h
    obtain ⟨text, more, hhead, hword⟩ := head_bracketed (l := .equality) (e := lhs)
      (lhs.head_texts h.1)
    rw [Expr.texts, hhead, List.cons_append]
    exact ⟨text, _, rfl, hword⟩
  | .call callee args, h =>
    rw [Expr.isPrintable, Bool.and_eq_true, Bool.and_eq_true] at h
    exact ⟨_, _, by rw [Expr.texts], (isName_iff.mp h.1.1).2⟩

theorem Expr.derives_assignment (e : Expr) (h : e.isPrintable) :
    Expr.Derives .assignment e.texts e :=
  (e.derives_texts h).of_rank_le (Level.rank_le _)

/-- No statement begins with `else`. -/
theorem Stmt.head_texts (s : Stmt) (h : s.isPrintable) :
    ∃ text more, s.texts = text :: more ∧ text ≠ "else" := by
  cases s with
  | expr e =>
    rw [Stmt.isPrintable] at h
    obtain ⟨text, more, hhead, hword⟩ := e.head_texts h
    refine ⟨text, _, by rw [Stmt.texts, hhead, List.cons_append], ?_⟩
    rintro rfl
    exact hword (by decide)
  | _ => exact ⟨_, _, by rw [Stmt.texts], by decide⟩

mutual

/-- What a statement is written with derives it, unless an `else` follows that would belong to an
`if` within it. -/
theorem Stmt.derives_texts {following : Option String} (s : Stmt) (h : s.isPrintable)
    (hif : s.endsInIf → following ≠ some "else") : Stmt.Derives following s.texts s := by
  cases s with
  | expr e =>
    rw [Stmt.isPrintable] at h
    obtain ⟨text, more, hhead, hword⟩ := e.head_texts h
    rw [Stmt.texts]
    refine .expression (e.derives_assignment h) ?_
    intro text' htext'
    obtain rfl : text = text' := by simpa [hhead] using htext'
    simp only [keywords, List.mem_cons, List.not_mem_nil, or_false, not_or] at hword ⊢
    exact ⟨hword.1, hword.2.1, hword.2.2.2⟩
  | ret e =>
    rw [Stmt.isPrintable] at h
    rw [Stmt.texts]
    exact .ret (e.derives_assignment h)
  | ifThen cond body =>
    rw [Stmt.isPrintable, Bool.and_eq_true] at h
    have hne : following ≠ some "else" := hif (by rw [Stmt.endsInIf])
    rw [Stmt.texts]
    exact .ifThen (cond.derives_assignment h.1) (body.derives_texts h.2 fun _ => hne) hne
  | ifElse cond body otherwise =>
    simp only [Stmt.isPrintable, Bool.and_eq_true, Bool.not_eq_true'] at h
    obtain ⟨⟨⟨hcond, hbody⟩, hopen⟩, hotherwise⟩ := h
    rw [Stmt.endsInIf] at hif
    rw [Stmt.texts]
    refine .ifElse (cond.derives_assignment hcond) (body.derives_texts hbody ?_)
      (otherwise.derives_texts hotherwise hif)
    intro hends
    rw [hends] at hopen
    cases hopen
  | whileLoop cond body =>
    rw [Stmt.isPrintable, Bool.and_eq_true] at h
    rw [Stmt.endsInIf] at hif
    rw [Stmt.texts]
    exact .whileLoop (cond.derives_assignment h.1) (body.derives_texts h.2 hif)
  | forLoop init cond step body =>
    simp only [Stmt.isPrintable, Bool.and_eq_true] at h
    obtain ⟨⟨⟨hinit, hcond⟩, hstep⟩, hbody⟩ := h
    rw [Stmt.endsInIf] at hif
    rw [Stmt.texts]
    exact .forLoop (.expression (init.derives_assignment hinit))
      (.expression (cond.derives_assignment hcond)) (.expression (step.derives_assignment hstep))
      (body.derives_texts hbody hif)
  | block body =>
    rw [Stmt.isPrintable] at h
    rw [Stmt.texts]
    exact .block (Stmt.derives_textsOfAll body h (by decide))

theorem Stmt.derives_textsOfAll {following : Option String} (ss : List Stmt)
    (h : Stmt.allPrintable ss) (hne : following ≠ some "else") :
    Stmt.DerivesAll following (Stmt.textsOfAll ss) ss := by
  cases ss with
  | nil =>
    rw [Stmt.textsOfAll]
    exact .nil
  | cons s ss =>
    rw [Stmt.allPrintable, Bool.and_eq_true] at h
    rw [Stmt.textsOfAll]
    refine .cons (s.derives_texts h.1 fun _ => ?_) (Stmt.derives_textsOfAll ss h.2 hne)
    cases ss with
    | nil => rwa [Stmt.textsOfAll]
    | cons s' ss' =>
      rw [Stmt.allPrintable, Bool.and_eq_true] at h
      obtain ⟨text, more, hhead, hword⟩ := s'.head_texts h.2.1
      rw [Stmt.textsOfAll, hhead, List.cons_append, List.head?_cons]
      simpa using hword

end

theorem Function.derives_texts {f : Function} (h : f.isPrintable) :
    Function.Derives f.texts f := by
  simp only [Function.isPrintable, Bool.and_eq_true, decide_eq_true_eq, List.all_eq_true] at h
  obtain ⟨⟨⟨hname, hparams⟩, hlength⟩, hbody⟩ := h
  refine .mk (isName_iff.mp hname).1 (fun param hparam => ?_) hlength
    (Stmt.derives_textsOfAll f.body hbody (by decide))
  exact (isName_iff.mp (hparams param hparam)).1

theorem Program.derives_texts {p : Program} (h : ∀ f ∈ p, f.isPrintable) :
    Program.Derives .functions p.texts p := by
  refine .functions ?_
  induction p with
  | nil => exact .nil
  | cons f fs ih =>
    obtain ⟨hf, hfs⟩ := List.forall_mem_cons.mp h
    exact .cons (Function.derives_texts hf) (ih hfs)

end MiniC
