import MiniC.Grammar.Parse

/-! Reading without the bound on the remaining tokens.

A reading returns a value and the plain list of tokens that remain. The functions here satisfy
the equations of the grammar as they would be written without any care for termination, and
statements about reading need these equations only. -/
namespace MiniC

namespace Step

/-- A step without its bound. -/
def plain {α : Type} {ts : List Token} (s : Step α ts) : Except GrammarError (α × List Token) :=
  s.map fun p => (p.1, p.2.val)

end Step

open Step

/-- A token written `text`. -/
def readSymbol (text : String) (ts : List Token) : Except GrammarError (Unit × List Token) :=
  plain (symbol text ts)

/-- A token with the form of a word. -/
def readIdentifier (ts : List Token) : Except GrammarError (Token × List Token) :=
  plain (identifier ts)

/-- A number. -/
def readNumber (ts : List Token) : Except GrammarError (Int64 × List Token) :=
  plain (number ts)

/-- An expression of a level. -/
def readExpr (l : Level) (ts : List Token) : Except GrammarError (Expr × List Token) :=
  plain (expression l ts)

/-- The operators of a level after an operand. -/
def readOperators (l : Level) (lhs : Expr) (ts : List Token) : Except GrammarError (Expr × List Token) :=
  (operators l lhs ts).map fun p => (p.1, p.2.val)

/-- The arguments of a call through the closing bracket. -/
def readArguments (ts : List Token) : Except GrammarError (List Expr × List Token) :=
  plain (arguments ts)

/-- One argument or more through the closing bracket. -/
def readArgumentList (ts : List Token) : Except GrammarError (List Expr × List Token) :=
  plain (argumentList ts)

/-- An expression and the symbol that ends it. -/
def readTerminated (stop : String) (ts : List Token) : Except GrammarError (Expr × List Token) :=
  plain (terminated stop ts)

/-- A clause of a `for` and the symbol that ends it. -/
def readClause (stop : String) (ts : List Token) : Except GrammarError (Expr × List Token) :=
  plain (clause stop ts)

/-- A condition in brackets. -/
def readCondition (ts : List Token) : Except GrammarError (Expr × List Token) :=
  plain (condition ts)

/-- A statement. -/
def readStmt (ts : List Token) : Except GrammarError (Stmt × List Token) :=
  plain (statement ts)

/-- The statements of a block through the closing brace. -/
def readBlock (ts : List Token) : Except GrammarError (List Stmt × List Token) :=
  plain (block ts)

/-- The parameters of a function through the closing bracket. -/
def readParameters (ts : List Token) : Except GrammarError (List String × List Token) :=
  plain (parameters ts)

/-- One parameter or more through the closing bracket. -/
def readParameterList (ts : List Token) : Except GrammarError (List String × List Token) :=
  plain (parameterList ts)

/-- A function definition. -/
def readFunction (ts : List Token) : Except GrammarError (Function × List Token) :=
  plain (function ts)

section Symbols

variable {text : String} {t : Token} {ts : List Token}

@[simp] theorem readSymbol_nil : readSymbol text [] = .error (.expected (.symbol text) none) :=
  rfl

theorem readSymbol_cons_of_eq (h : t.text = text) : readSymbol text (t :: ts) = .ok ((), ts) := by
  simp [readSymbol, symbol, accept, h, plain, Except.map]

theorem readSymbol_cons_of_ne (h : t.text ≠ text) :
    readSymbol text (t :: ts) = .error (.expected (.symbol text) (some t)) := by
  simp [readSymbol, symbol, accept, h, plain, Except.map]

theorem readIdentifier_cons_of_isWord (h : Token.isWord t.text) :
    readIdentifier (t :: ts) = .ok (t, ts) := by
  simp [readIdentifier, identifier, word?, h, plain, Except.map]

theorem readIdentifier_of_not_isWord (h : ∀ t ∈ ts.head?, Token.isWord t.text = false) :
    readIdentifier ts = .error (.expected .identifier ts.head?) := by
  cases ts with
  | nil => rfl
  | cons t ts => simp [readIdentifier, identifier, word?, h t (by simp), plain, Except.map]

/-- Whether tokens begin with a text, in the form in which readers ask for it. -/
theorem begins_or_not (text : String) (ts : List Token) :
    (∃ t us, ts = t :: us ∧ t.text = text) ∨ ∀ t ∈ ts.head?, t.text ≠ text := by
  cases ts with
  | nil => exact .inr (by simp)
  | cons t us =>
    by_cases ht : t.text = text
    · exact .inl ⟨t, us, rfl, ht⟩
    · exact .inr (by simpa using ht)

theorem accept_eq_none (h : ∀ t ∈ ts.head?, t.text ≠ text) : accept text ts = none := by
  cases ts with
  | nil => rfl
  | cons t ts => simp [accept, h t (by simp)]

theorem accept_cons (h : t.text = text) :
    accept text (t :: ts) = some ⟨ts, length_lt_length_cons t ts⟩ := by
  simp [accept, h, Rest.tail]

theorem word?_cons (h : Token.isWord t.text) : word? (t :: ts) = some (t, ⟨ts, length_lt_length_cons t ts⟩) := by
  simp [word?, h, Rest.tail]

theorem word?_eq_none (h : ∀ t ∈ ts.head?, Token.isWord t.text = false) : word? ts = none := by
  cases ts with
  | nil => rfl
  | cons t ts => simp [word?, h t (by simp)]

end Symbols

section Expressions

variable {l : Level} {t : Token} {ts : List Token}

theorem readExpr_of_unOp {op : UnOp} (h : l.unOp? t.text = some op) :
    readExpr l (t :: ts) = (readExpr l ts).map fun p => (.unary op p.1, p.2) := by
  have hl : l ≠ .primary := by rintro rfl; simp [Level.unOp?, Level.unOps] at h
  unfold readExpr
  rw [expression]
  simp only [hl, dite_false, Level.unary?, h, Option.map_some, Rest.tail]
  cases expression l ts <;> rfl

theorem readExpr_of_tighter (hl : l ≠ .primary)
    (h : ∀ t ∈ ts.head?, l.unOp? t.text = none) :
    readExpr l ts = readExpr l.tighter ts >>= fun p => readOperators l p.1 p.2 := by
  have hu : l.unary? ts = none := by
    cases ts with
    | nil => rfl
    | cons t ts => simp [Level.unary?, h t (by simp)]
  unfold readExpr
  rw [expression]
  simp only [hl, dite_false, hu]
  cases expression l.tighter ts with
  | error e => rfl
  | ok p =>
    obtain ⟨lhs, ts₁, h₁⟩ := p
    show plain (operators l lhs ts₁ >>= _) = readOperators l lhs ts₁
    unfold readOperators
    cases operators l lhs ts₁ <;> rfl

theorem readOperators_of_binOp {op : BinOp} {lhs : Expr} (h : l.binOp? t.text = some op) :
    readOperators l lhs (t :: ts) =
      readExpr l.tighter ts >>= fun p => readOperators l (.binary op lhs p.1) p.2 := by
  unfold readOperators readExpr
  rw [operators]
  simp only [Level.binary?, h, Option.map_some, Rest.tail]
  cases expression l.tighter ts with
  | error e => rfl
  | ok p =>
    obtain ⟨rhs, ts₁, h₁⟩ := p
    show Except.map _ (operators l (.binary op lhs rhs) ts₁ >>= _) = Except.map _ _
    cases operators l (.binary op lhs rhs) ts₁ <;> rfl

theorem binOp?_assignment (text : String) : Level.assignment.binOp? text = none :=
  rfl

theorem readOperators_of_assign {lhs : Expr} (h : t.text = "=") :
    readOperators .assignment lhs (t :: ts) =
      (readExpr .assignment ts).map fun p => (.assign lhs p.1, p.2) := by
  unfold readOperators readExpr
  rw [operators]
  simp only [Level.binary?, binOp?_assignment, Option.map_none, Level.assign?, accept, h, if_true, Rest.tail]
  cases expression .assignment ts <;> rfl

theorem readOperators_of_stop {lhs : Expr} (h : ∀ t ∈ ts.head?, l.binOp? t.text = none)
    (ha : l = .assignment → ∀ t ∈ ts.head?, t.text ≠ "=") :
    readOperators l lhs ts = .ok (lhs, ts) := by
  have hb : l.binary? ts = none := by
    cases ts with
    | nil => rfl
    | cons t ts => simp [Level.binary?, h t (by simp)]
  have hc : l.assign? ts = none := by
    by_cases hl : l = .assignment
    · cases ts with
      | nil => simp [Level.assign?, accept]
      | cons t ts => simp [Level.assign?, accept, ha hl t (by simp)]
    · simp [Level.assign?, hl]
  unfold readOperators
  rw [operators]
  simp only [hb, hc]
  rfl

theorem readExpr_bracket (h : t.text = "(") :
    readExpr .primary (t :: ts) = (do
      let (e, ts₁) ← readExpr .assignment ts
      let ((), ts₂) ← readSymbol ")" ts₁
      return (e, ts₂)) := by
  unfold readExpr readSymbol
  rw [expression, dif_pos rfl, primary]
  simp only [accept_cons h]
  cases expression .assignment ts with
  | error e => rfl
  | ok p =>
    obtain ⟨e, ts₁, h₁⟩ := p
    show plain (symbol ")" ts₁ >>= _) = plain (symbol ")" ts₁) >>= _
    cases symbol ")" ts₁ <;> rfl

theorem ne_bracket_of_isWord (h : Token.isWord t.text) : t.text ≠ "(" := by
  intro e
  rw [e] at h
  exact absurd h (by decide)

theorem accept_bracket_of_isWord (h : Token.isWord t.text) : accept "(" (t :: ts) = none :=
  accept_eq_none (by simpa using ne_bracket_of_isWord h)

theorem readExpr_var (h : Token.isWord t.text) (ho : ∀ u ∈ ts.head?, u.text ≠ "(") :
    readExpr .primary (t :: ts) = .ok (.var t.text, ts) := by
  unfold readExpr
  rw [expression, dif_pos rfl, primary]
  simp only [accept_bracket_of_isWord h, word?_cons h, accept_eq_none ho]
  rfl

theorem readExpr_call {u : Token} (h : Token.isWord t.text) (ho : u.text = "(") :
    readExpr .primary (t :: u :: ts) = (do
      let (args, ts₁) ← readArguments ts
      if args.length ≤ maxArity then return (.call t.text args, ts₁)
      else throw (.tooManyArguments t)) := by
  unfold readExpr readArguments
  rw [expression, dif_pos rfl, primary]
  simp only [accept_bracket_of_isWord h, word?_cons h,
    accept_cons ho]
  cases arguments ts with
  | error e => rfl
  | ok p =>
    obtain ⟨args, ts₁, h₁⟩ := p
    by_cases hl : args.length ≤ maxArity <;> simp [hl, plain, Except.map, bind, Except.bind] <;> rfl

theorem readExpr_number (hn : ∀ t ∈ ts.head?, t.text ≠ "(")
    (hw : ∀ t ∈ ts.head?, Token.isWord t.text = false) :
    readExpr .primary ts = (readNumber ts).map fun p => (.num p.1, p.2) := by
  unfold readExpr readNumber
  rw [expression, dif_pos rfl, primary]
  simp only [accept_eq_none hn, word?_eq_none hw]
  cases number ts <;> rfl

theorem readArguments_nil (h : t.text = ")") : readArguments (t :: ts) = .ok ([], ts) := by
  unfold readArguments
  rw [arguments]
  simp only [accept_cons h]
  rfl

theorem readArguments_cons (h : ∀ t ∈ ts.head?, t.text ≠ ")") :
    readArguments ts = readArgumentList ts := by
  unfold readArguments readArgumentList
  rw [arguments]
  simp only [accept_eq_none h]

theorem readArgumentList_eq :
    readArgumentList ts = (do
      let (arg, ts₁) ← readExpr .assignment ts
      match ts₁ with
      | [] => throw (.expected (.symbol ")") none)
      | t :: ts₂ =>
        if t.text = "," then (readArgumentList ts₂).map fun p => (arg :: p.1, p.2)
        else (readSymbol ")" (t :: ts₂)).map fun p => ([arg], p.2)) := by
  unfold readArgumentList readExpr readSymbol
  rw [argumentList]
  cases expression .assignment ts with
  | error e => rfl
  | ok p =>
    obtain ⟨arg, ts₁, h₁⟩ := p
    cases ts₁ with
    | nil => rfl
    | cons t ts₂ =>
      by_cases ht : t.text = ","
      · simp only [bind, Except.bind, plain, accept_cons ht, Except.map, ht, if_true]
        cases argumentList ts₂ <;> rfl
      · simp only [bind, Except.bind, plain, accept, Except.map, ht, if_false]
        cases symbol ")" (t :: ts₂) <;> rfl

end Expressions

section Statements

variable {t : Token} {ts : List Token}

theorem readTerminated_eq (stop : String) :
    readTerminated stop ts = (do
      let (e, ts₁) ← readExpr .assignment ts
      let ((), ts₂) ← readSymbol stop ts₁
      return (e, ts₂)) := by
  unfold readTerminated readExpr readSymbol terminated
  cases expression .assignment ts with
  | error e => rfl
  | ok p =>
    obtain ⟨e, ts₁, h₁⟩ := p
    show plain (symbol stop ts₁ >>= _) = plain (symbol stop ts₁) >>= _
    cases symbol stop ts₁ <;> rfl

theorem readClause_empty {stop : String} (h : t.text = stop) :
    readClause stop (t :: ts) = .ok (.num 1, ts) := by
  simp only [readClause, clause, accept_cons h]
  rfl

theorem readClause_of_ne {stop : String} (h : ∀ t ∈ ts.head?, t.text ≠ stop) :
    readClause stop ts = readTerminated stop ts := by
  simp only [readClause, readTerminated, clause, accept_eq_none h]

theorem readCondition_eq :
    readCondition ts = (do
      let ((), ts₁) ← readSymbol "(" ts
      readTerminated ")" ts₁) := by
  unfold readCondition readTerminated readSymbol condition
  cases symbol "(" ts with
  | error e => rfl
  | ok p =>
    obtain ⟨⟨⟩, ts₁, h₁⟩ := p
    show plain (terminated ")" ts₁ >>= _) = plain (terminated ")" ts₁)
    cases terminated ")" ts₁ <;> rfl

theorem opening?_cons {o : Opening} (h : Opening.ofText? t.text = some o) :
    opening? (t :: ts) = some (o, ⟨ts, length_lt_length_cons t ts⟩) := by
  simp [opening?, h, Rest.tail]

theorem readStmt_block (h : Opening.ofText? t.text = some .block) :
    readStmt (t :: ts) = (readBlock ts).map fun p => (.block p.1, p.2) := by
  unfold readStmt readBlock
  rw [statement]
  simp only [opening?_cons h]
  cases block ts <;> rfl

theorem readStmt_ret (h : Opening.ofText? t.text = some .ret) :
    readStmt (t :: ts) = (readTerminated ";" ts).map fun p => (.ret p.1, p.2) := by
  unfold readStmt readTerminated
  rw [statement]
  simp only [opening?_cons h]
  cases terminated ";" ts <;> rfl

theorem readStmt_branch (h : Opening.ofText? t.text = some .branch) :
    readStmt (t :: ts) = (do
      let (cond, ts₁) ← readCondition ts
      let (body, ts₂) ← readStmt ts₁
      match ts₂ with
      | [] => return (.ifThen cond body, [])
      | u :: ts₃ =>
        if u.text = "else" then (readStmt ts₃).map fun p => (.ifElse cond body p.1, p.2)
        else return (.ifThen cond body, u :: ts₃)) := by
  unfold readStmt readCondition
  rw [statement]
  simp only [opening?_cons h]
  cases condition ts with
  | error e => rfl
  | ok p =>
    obtain ⟨cond, ts₁, h₁⟩ := p
    simp only [bind, Except.bind, plain, Except.map]
    cases statement ts₁ with
    | error e => rfl
    | ok p =>
      obtain ⟨body, ts₂, h₂⟩ := p
      cases ts₂ with
      | nil => rfl
      | cons u ts₃ =>
        by_cases hu : u.text = "else"
        · simp only [accept_cons hu, hu, if_true]
          cases statement ts₃ <;> rfl
        · simp only [accept, hu, if_false]
          rfl

theorem readStmt_whileLoop (h : Opening.ofText? t.text = some .whileLoop) :
    readStmt (t :: ts) = (do
      let (cond, ts₁) ← readCondition ts
      let (body, ts₂) ← readStmt ts₁
      return (.whileLoop cond body, ts₂)) := by
  unfold readStmt readCondition
  rw [statement]
  simp only [opening?_cons h]
  cases condition ts with
  | error e => rfl
  | ok p =>
    obtain ⟨cond, ts₁, h₁⟩ := p
    simp only [bind, Except.bind, plain, Except.map]
    cases statement ts₁ <;> rfl

theorem readStmt_forLoop (h : Opening.ofText? t.text = some .forLoop) :
    readStmt (t :: ts) = (do
      let ((), ts₁) ← readSymbol "(" ts
      let (init, ts₂) ← readClause ";" ts₁
      let (cond, ts₃) ← readClause ";" ts₂
      let (step, ts₄) ← readClause ")" ts₃
      let (body, ts₅) ← readStmt ts₄
      return (.forLoop init cond step body, ts₅)) := by
  unfold readStmt readClause readSymbol
  rw [statement]
  simp only [opening?_cons h]
  cases symbol "(" ts with
  | error e => rfl
  | ok p =>
    obtain ⟨⟨⟩, ts₁, h₁⟩ := p
    simp only [bind, Except.bind, plain, Except.map]
    cases clause ";" ts₁ with
    | error e => rfl
    | ok p =>
      obtain ⟨init, ts₂, h₂⟩ := p
      simp only
      cases clause ";" ts₂ with
      | error e => rfl
      | ok p =>
        obtain ⟨cond, ts₃, h₃⟩ := p
        simp only
        cases clause ")" ts₃ with
        | error e => rfl
        | ok p =>
          obtain ⟨step, ts₄, h₄⟩ := p
          simp only
          cases statement ts₄ <;> rfl

theorem readStmt_expr (h : ∀ t ∈ ts.head?, Opening.ofText? t.text = none) :
    readStmt ts = (readTerminated ";" ts).map fun p => (.expr p.1, p.2) := by
  have ho : opening? ts = none := by
    cases ts with
    | nil => rfl
    | cons t ts => simp [opening?, h t (by simp)]
  unfold readStmt readTerminated
  rw [statement]
  simp only [ho]
  cases terminated ";" ts <;> rfl

@[simp] theorem readBlock_nil :
    readBlock [] = .error (.expected (.symbol "\x7d") none) := by
  unfold readBlock
  rw [block]
  rfl

theorem readBlock_end (h : t.text = "\x7d") : readBlock (t :: ts) = .ok ([], ts) := by
  unfold readBlock
  rw [block]
  simp only [accept_cons h]
  rfl

theorem readBlock_cons (h : t.text ≠ "\x7d") :
    readBlock (t :: ts) = (do
      let (s, ts₁) ← readStmt (t :: ts)
      let (body, ts₂) ← readBlock ts₁
      return (s :: body, ts₂)) := by
  unfold readBlock readStmt
  rw [block]
  simp only [accept, h, if_false, List.isEmpty_cons]
  cases statement (t :: ts) with
  | error e => rfl
  | ok p =>
    obtain ⟨s, ts₁, h₁⟩ := p
    simp only [bind, Except.bind, plain, Except.map]
    cases block ts₁ <;> rfl

end Statements

section Functions

variable {t : Token} {ts : List Token}

theorem readParameters_nil (h : t.text = ")") : readParameters (t :: ts) = .ok ([], ts) := by
  simp only [readParameters, parameters, accept_cons h]
  rfl

theorem readParameters_cons (h : ∀ t ∈ ts.head?, t.text ≠ ")") :
    readParameters ts = readParameterList ts := by
  simp only [readParameters, readParameterList, parameters, accept_eq_none h]

theorem readParameterList_eq :
    readParameterList ts = (do
      let (param, ts₁) ← readIdentifier ts
      match ts₁ with
      | [] => throw (.expected (.symbol ")") none)
      | t :: ts₂ =>
        if t.text = "," then (readParameterList ts₂).map fun p => (param.text :: p.1, p.2)
        else (readSymbol ")" (t :: ts₂)).map fun p => ([param.text], p.2)) := by
  unfold readParameterList readIdentifier readSymbol
  rw [parameterList]
  cases identifier ts with
  | error e => rfl
  | ok p =>
    obtain ⟨param, ts₁, h₁⟩ := p
    cases ts₁ with
    | nil => rfl
    | cons t ts₂ =>
      by_cases ht : t.text = ","
      · simp only [bind, Except.bind, plain, accept_cons ht, Except.map, ht, if_true]
        cases parameterList ts₂ <;> rfl
      · simp only [bind, Except.bind, plain, accept, Except.map, ht, if_false]
        cases symbol ")" (t :: ts₂) <;> rfl

theorem readFunction_eq :
    readFunction ts = (do
      let (name, ts₁) ← readIdentifier ts
      let ((), ts₂) ← readSymbol "(" ts₁
      let (params, ts₃) ← readParameters ts₂
      if maxArity < params.length then throw (.tooManyParameters name)
      let ((), ts₄) ← readSymbol "\x7b" ts₃
      let (body, ts₅) ← readBlock ts₄
      return (⟨name.text, params, body⟩, ts₅)) := by
  unfold readFunction readIdentifier readSymbol readParameters readBlock function
  cases identifier ts with
  | error e => rfl
  | ok p =>
    obtain ⟨name, ts₁, h₁⟩ := p
    simp only [bind, Except.bind, plain, Except.map]
    cases symbol "(" ts₁ with
    | error e => rfl
    | ok p =>
      obtain ⟨⟨⟩, ts₂, h₂⟩ := p
      simp only
      cases parameters ts₂ with
      | error e => rfl
      | ok p =>
        obtain ⟨params, ts₃, h₃⟩ := p
        by_cases hp : maxArity < params.length
        · simp only [hp, if_true]
          rfl
        · simp only [hp, if_false]
          show Except.map _ (Except.bind (symbol "\x7b" ts₃) _) = _
          cases symbol "\x7b" ts₃ with
          | error e => rfl
          | ok p =>
            obtain ⟨⟨⟩, ts₄, h₄⟩ := p
            show Except.map _ (Except.bind (block ts₄) _) = _
            cases hb : block ts₄ with
            | error e => simp [Except.bind, Except.map, hb]
            | ok p => simp [Except.bind, Except.map, hb, pure, Except.pure]

end Functions

section Programs

theorem many_nil {α : Type} (step : (ts : List Token) → Step α ts) : many step [] = .ok [] := by
  rw [many]
  rfl

theorem many_cons {α : Type} (step : (ts : List Token) → Step α ts) (t : Token)
    (ts : List Token) :
    many step (t :: ts) = (do
      let (x, ts₁) ← plain (step (t :: ts))
      let xs ← many step ts₁
      return x :: xs) := by
  rw [many]
  cases step (t :: ts) <;> rfl

theorem parse_expression (ts : List Token) :
    parse .expression ts = (do
      let (e, rest) ← readExpr .assignment ts
      match rest with
      | [] => return [Function.main [.ret e]]
      | t :: _ => throw (.leftover t)) := by
  unfold parse readExpr
  cases expression .assignment ts <;> rfl

end Programs

end MiniC
