import MiniC.Proofs.Grammar.Progress

/-! What the procedures read.

The procedures call one another, so that the body of each is treated with calls that serve it
wherever it may make them. With such calls it reads what the grammar says. -/
namespace MiniC

open Reading
open TokenStream (Leads)

theorem Level.unOp?_eq_none {l : Level} (h : l.unOps = []) (text : String) :
    l.unOp? text = none := by
  rw [Level.unOp?, h]
  rfl

namespace Procedure

/-- What the grammar has for a procedure to read. -/
def read : (p : Procedure) → List Token → Except GrammarError (p.Value × List Token)
  | function => readFunction
  | block => readBlock
  | statement => readStmt
  | clause stop => readClause stop
  | expression => readExpr .assignment
  | level l => readExpr l

/-- The turns that the caller of a procedure pays for. The last turn in a block may find that no
token remains; it is paid for by the brace before the block. -/
def owed : Procedure → Nat
  | block => 1
  | _ => 0

/-- Calls read what the grammar says, wherever a procedure that was called on `s` makes them. -/
def Serves (call : (q : Procedure) → Reading q.Value) (p : Procedure) (s : TokenStream) : Prop :=
  ∀ q s' owed, p.MayCall s q s' → q.owed ≤ owed → Yields owed 1 (q.read s'.tokens) (call q) s'

section Bodies

variable {call : (q : Procedure) → Reading q.Value} {p q : Procedure} {s s' : TokenStream}
  {owed : Nat} {t : Token} {ts : List Token}

theorem Serves.here (h : Serves call p s) (q : Procedure) (hrank : q.rank < p.rank)
    (howed : q.owed ≤ owed) : Yields owed 1 (q.read s.tokens) (call q) s :=
  h q s owed (.inr ⟨rfl, hrank⟩) howed

theorem Serves.of_le (h : Serves call p s) (hle : s'.tokens.length ≤ s.tokens.length) :
    Serves call p s' := by
  intro q s'' owed hmay howed
  refine h q s'' owed ?_ howed
  unfold MayCall at hmay ⊢
  omega

/-- Once a token was taken, all that a function may call can be called. -/
theorem Serves.after (h : Serves call p s) (hlt : s'.tokens.length < s.tokens.length) :
    Serves call .function s' := by
  intro q s'' owed hmay howed
  refine h q s'' owed (.inl ?_) howed
  unfold MayCall at hmay
  omega

theorem Serves.taking (h : Serves call p s) (hs : s.tokens = t :: ts) :
    Serves call .function (s.taking t ts) :=
  h.after (Leads.taking hs).length_le

theorem Serves.counting {name : Loop} (h : Serves call p s) : Serves call p (s.counting name) :=
  h.of_le le_rfl

section Expressions

theorem Serves.tighter {l : Level} (h : Serves call (.level l) s) (hl : l ≠ .primary) :
    Yields owed 1 (readExpr l.tighter s.tokens) (call (.level l.tighter)) s :=
  h.here (.level l.tighter) (Level.rank_tighter_lt hl) (Nat.zero_le _)

theorem Serves.expression (h : Serves call .function s) (l : Level) :
    Yields owed 1 (readExpr l s.tokens) (call (.level l)) s :=
  h.here (.level l) (l.rank_le.trans_lt (by decide)) (Nat.zero_le _)

/-- Operands of a level after the first, with the operators before them. -/
theorem operators_turns {l : Level} (ha : l ≠ .assignment) (hcall : Serves call .function s)
    (lhs : Expr) :
    Turns (.operators l) (take? (l.binOp? ·.text))
      (fun op lhs => return .binary op lhs (← call (.level l.tighter))) owed 0
      (readOperators l) (fun e rest => .ok (e, rest)) lhs s := by
  rcases means_or_not (l.binOp? ·.text) s.tokens with ⟨t, ts, op, hs, hop⟩ | hnone
  · refine .go op (s.taking t ts) 1 owed (take?_of_some hs hop) (.taking hs) rfl ?_
    have hrhs : Yields owed 1 (readExpr l.tighter ts) (call (.level l.tighter))
        ((s.taking t ts).counting (.operators l)) :=
      (hcall.taking hs).counting.expression l.tighter
    rw [hs, readOperators_of_binOp hop]
    exact hrhs.bind fun rhs _ _ => .pure (Expr.binary op lhs rhs) rfl
  · exact .stop s (take?_of_none hnone) (Leads.refl s)
      (readOperators_of_stop hnone fun hl => absurd hl ha)

theorem folded_yields {l : Level} (hl : l ≠ .primary) (ha : l ≠ .assignment) (hu : l.unOps = [])
    (hcall : Serves call (.level l) s) : Yields owed 1 (readExpr l s.tokens) (folded call l) s := by
  rw [readExpr_of_tighter hl fun t _ => Level.unOp?_eq_none hu t.text]
  refine (hcall.tighter hl).bind fun lhs s₁ hs₁ => ?_
  refine performs_loop (by simp [Loop.IsOuter]) s₁.tokens.length (fun lhs s₂ hs₂ => ?_) lhs s₁
    le_rfl
  exact operators_turns ha (hcall.after (hs₂.trans_lt hs₁.length_le)) lhs

theorem signed_yields {l : Level} (hl : l ≠ .primary) (ha : l ≠ .assignment) (hb : l.binOps = [])
    (hcall : Serves call (.level l) s) :
    Yields owed 1 (readExpr l s.tokens) (signed call l) s := by
  refine performs_take? (fun t ts op hs hop => ?_) fun hnone => ?_
  · have hoperand : Yields (owed + 1) 1 (readExpr l ts) (call (.level l)) (s.taking t ts) :=
      (hcall.taking hs).expression l
    rw [hs, readExpr_of_unOp hop]
    exact (hoperand.map _).unsaved
  · have hoperators : (fun p : Expr × List Token => readOperators l p.1 p.2) = .ok :=
      funext fun p => readOperators_of_unary hb ha
    rw [readExpr_of_tighter hl hnone, hoperators]
    exact (hcall.tighter hl).andThen

theorem assignment_yields (hcall : Serves call (.level .assignment) s) :
    Yields owed 1 (readExpr .assignment s.tokens) (assignment call) s := by
  rw [readExpr_of_tighter (by decide) fun t _ => rfl]
  refine Yields.bind (hcall.tighter (by decide)) fun lhs s₁ hs₁ => ?_
  refine performs_accept? (fun t ts hs ht => ?_) fun hne => ?_
  · have hrhs : Yields (owed + 1 + 1) 1 (readExpr .assignment ts) (call (.level .assignment))
        (s₁.taking t ts) := ((hcall.after hs₁.length_le).taking hs).expression .assignment
    rw [hs, readOperators_of_assign ht]
    exact (hrhs.map _).unsaved
  · exact .pure lhs (readOperators_of_stop (fun t _ => binOp?_assignment t.text) fun _ => hne)

theorem terminated_yields (stop : String)
    (hcall : Yields owed 1 (readExpr .assignment s.tokens) (call .expression) s) :
    Yields owed 1 (readTerminated stop s.tokens) (terminated call stop) s := by
  rw [readTerminated_eq]
  exact hcall.bind fun e s₁ _ => (symbol_yields stop _ s₁).bind fun _ _ _ => .pure e rfl

theorem Serves.terminated (h : Serves call .function s) (stop : String) :
    Yields owed 1 (readTerminated stop s.tokens) (terminated call stop) s :=
  terminated_yields stop (h.here .expression (by decide) (Nat.zero_le _))

theorem readArgumentList_eq_readMore (ts : List Token) :
    readArgumentList ts =
      readExpr .assignment ts >>= fun p => readMore readArgumentList [p.1] p.2 := by
  rw [readArgumentList_eq]
  cases readExpr .assignment ts with
  | error e => rfl
  | ok p =>
    obtain ⟨arg, _ | ⟨t, ts₁⟩⟩ := p <;> rfl

theorem Serves.arguments (h : Serves call .function s) :
    Yields owed 1 (readArguments s.tokens) (listed .arguments (call .expression)) s := by
  refine listed_yields (readExpr .assignment) (by simp [Loop.IsOuter])
    (fun _ _ => readArguments_nil) (fun _ => readArguments_cons) readArgumentList_eq_readMore
    fun s' owed hs' => ?_
  exact (h.of_le hs').here .expression (by decide) (Nat.zero_le owed)

theorem primary_yields (hcall : Serves call (.level .primary) s) :
    Yields owed 1 (readExpr .primary s.tokens) (primary call) s := by
  refine performs_accept? (fun t ts hs ht => ?_) fun hbracket => performs_word?
    (fun t ts hs ht => performs_accept? (fun u us hs' hu => ?_) fun hne => ?_) fun hword => ?_
  · rw [hs, readExpr_bracket ht, ← readTerminated_eq]
    exact ((hcall.taking hs).terminated ")").unsaved
  · have hafter := (hcall.taking hs).taking hs'
    rw [hs, show ts = u :: us from hs', readExpr_call ht hu]
    refine Yields.bind hafter.arguments fun args s₁ _ => ?_
    by_cases hlength : args.length ≤ maxArity
    · simp only [hlength, if_true]
      exact .pure (Expr.call t.text args) rfl
    · simp only [hlength, if_false]
      exact .throw rfl nofun
  · exact .pure (Expr.var t.text) (by rw [hs]; exact readExpr_var ht hne)
  · rw [readExpr_number hbracket hword]
    exact (number_yields owed s).map _

theorem levelBody_yields (l : Level) (hcall : Serves call (.level l) s) :
    Yields owed 1 (readExpr l s.tokens) (levelBody call l) s := by
  cases l with
  | assignment => exact assignment_yields hcall
  | equality => exact folded_yields (by decide) (by decide) rfl hcall
  | relational => exact folded_yields (by decide) (by decide) rfl hcall
  | additive => exact folded_yields (by decide) (by decide) rfl hcall
  | multiplicative => exact folded_yields (by decide) (by decide) rfl hcall
  | sign => exact signed_yields (by decide) (by decide) rfl hcall
  | address => exact signed_yields (by decide) (by decide) rfl hcall
  | primary => exact primary_yields hcall

end Expressions

section Statements

theorem clause_yields (stop : String) (hcall : Serves call (.clause stop) s) :
    Yields owed 1 (readClause stop s.tokens) (clauseBody call stop) s := by
  refine performs_accept? (fun t ts hs ht => ?_) fun hne => ?_
  · exact .pure (Expr.num 1) (by rw [hs, readClause_empty ht]; rfl)
  · rw [readClause_of_ne hne]
    exact terminated_yields stop (hcall.here .expression (by simp [rank]) (Nat.zero_le _))

theorem Serves.condition (h : Serves call .function s) :
    Yields owed 1 (readCondition s.tokens) (condition call) s := by
  rw [readCondition_eq]
  refine (symbol_yields "(" owed s).bind fun _ s₁ hs₁ => ?_
  exact ((h.after hs₁.length_le).terminated ")").unsaved

theorem Serves.statement (h : Serves call .function s) :
    Yields owed 1 (readStmt s.tokens) (call .statement) s :=
  h.here .statement (by decide) (Nat.zero_le _)

theorem Serves.clause (h : Serves call .function s) (stop : String) :
    Yields owed 1 (readClause stop s.tokens) (call (.clause stop)) s :=
  h.here (.clause stop) (by simp [rank]) (Nat.zero_le _)

theorem statement_yields (hcall : Serves call .statement s) :
    Yields owed 1 (readStmt s.tokens) (statementBody call) s := by
  refine performs_take? (fun t ts opening hs hopening => ?_) fun hnone => ?_
  · have hafter := hcall.taking hs
    rw [hs]
    cases opening with
    | block =>
      rw [readStmt_block hopening]
      have hbody : Yields (owed + 1) 1 (readBlock ts) (call .block) (s.taking t ts) :=
        hafter.here .block (by decide) (Nat.le_add_left 1 owed)
      exact (hbody.map Stmt.block).unsaved
    | ret =>
      rw [readStmt_ret hopening]
      exact ((hafter.terminated ";").map Stmt.ret).unsaved
    | branch =>
      rw [readStmt_branch hopening]
      refine Yields.bind hafter.condition fun cond s₁ hs₁ => ?_
      have hafter₁ := hafter.after hs₁.length_le
      refine Yields.bind hafter₁.statement fun body s₂ hs₂ => ?_
      have hafter₂ := hafter₁.after hs₂.length_le
      refine performs_accept? (fun u us hs' hu => ?_) fun hne => .pure (Stmt.ifThen cond body) ?_
      · have helse : Yields (owed + 1 + 1 + 1 + 1) 1 (readStmt us) (call .statement)
            (s₂.taking u us) := (hafter₂.taking hs').statement
        simp only [hs', hu, if_true]
        exact (helse.map (Stmt.ifElse cond body)).unsaved
      · cases hs' : s₂.tokens with
        | nil => rfl
        | cons u us => exact if_neg (hne u (by simp [hs']))
    | forLoop =>
      rw [readStmt_forLoop hopening]
      refine Yields.bind (symbol_yields "(" _ (s.taking t ts)) fun _ s₁ hs₁ => ?_
      have hafter₁ := hafter.after hs₁.length_le
      refine Yields.bind (hafter₁.clause ";") fun init s₂ hs₂ => ?_
      have hafter₂ := hafter₁.after hs₂.length_le
      refine Yields.bind (hafter₂.clause ";") fun cond s₃ hs₃ => ?_
      have hafter₃ := hafter₂.after hs₃.length_le
      refine Yields.bind (hafter₃.clause ")") fun step s₄ hs₄ => ?_
      have hafter₄ := hafter₃.after hs₄.length_le
      refine Yields.bind hafter₄.statement fun body _ _ => ?_
      exact .pure (Stmt.forLoop init cond step body) rfl
    | whileLoop =>
      rw [readStmt_whileLoop hopening]
      refine Yields.bind hafter.condition fun cond s₁ hs₁ => ?_
      have hafter₁ := hafter.after hs₁.length_le
      exact Yields.bind hafter₁.statement fun body _ _ => .pure (Stmt.whileLoop cond body) rfl
  · rw [readStmt_expr hnone]
    have hexpr : Yields owed 1 (readTerminated ";" s.tokens) (terminated call ";") s :=
      terminated_yields ";" (hcall.here .expression (by decide) (Nat.zero_le _))
    exact hexpr.map Stmt.expr

theorem readBlock_map_append (h : t.text ≠ "\x7d") (read : List Stmt) :
    (readBlock (t :: ts)).map (fun p => (read ++ p.1, p.2)) =
      readStmt (t :: ts) >>= fun p =>
        (readBlock p.2).map fun q => (read ++ [p.1] ++ q.1, q.2) := by
  rw [readBlock_cons h]
  cases readStmt (t :: ts) with
  | error e => rfl
  | ok p =>
    obtain ⟨stmt, ts₁⟩ := p
    simp only [Bind.bind, Except.bind]
    cases readBlock ts₁ with
    | error e => rfl
    | ok q => simp [Except.map, Pure.pure, Except.pure]

/-- The statements of a block after those that were read. -/
theorem block_turns (hcall : Serves call .block s) (howed : 1 ≤ owed) (read : List Stmt) :
    Turns .block blockGoesOn (fun _ body => do
        if ← atEnd then refuse (.symbol "\x7d")
        else return body ++ [← call .statement]) owed 1
      (fun body ts => (readBlock ts).map fun p => (body ++ p.1, p.2))
      (fun body rest => .ok (body, rest)) read s := by
  rcases begins_or_not "\x7d" s.tokens with ⟨t, ts, hs, ht⟩ | hne
  · refine .stop (s.taking t ts) (blockGoesOn_of_eq hs ht) (.taking hs) ?_
    rw [hs, readBlock_end ht]
    simp [Except.map]
  · -- The turn begins without a token, so that the caller pays for it.
    obtain ⟨rest, rfl⟩ := Nat.exists_eq_add_of_le' howed
    refine .go () s 0 rest (blockGoesOn_of_ne hne) (Leads.refl s) rfl ?_
    refine performs_atEnd (fun hend => ?_) fun hgo => ?_
    · have hs : s.tokens = [] := hend
      refine .refuse ?_
      rw [hs, readBlock_nil]
      simp [Except.map, hs]
    · obtain ⟨t, ts, hs⟩ := List.exists_cons_of_ne_nil hgo
      have hs : s.tokens = t :: ts := hs
      have hstmt : Yields rest 1 (readStmt s.tokens) (call .statement) (s.counting .block) :=
        hcall.counting.here .statement (by decide) (Nat.zero_le _)
      rw [hs, readBlock_map_append (hne t (by simp [hs])), ← hs]
      exact hstmt.bind fun stmt _ _ => .pure (read ++ [stmt]) rfl

theorem block_yields (howed : 1 ≤ owed) (hcall : Serves call .block s) :
    Yields owed 1 (readBlock s.tokens) (blockBody call) s := by
  have hloop := performs_loop (by simp [Loop.IsOuter]) s.tokens.length
    (fun read s' hs' => block_turns (hcall.of_le hs') howed read) [] s le_rfl
  have hnone : (readBlock s.tokens).map (fun p => ([] ++ p.1, p.2)) = readBlock s.tokens := by
    cases readBlock s.tokens <;> rfl
  rwa [hnone] at hloop

end Statements

section Functions

/-- The text of a parameter. -/
def readParameter (ts : List Token) : Except GrammarError (String × List Token) :=
  (readIdentifier ts).map fun p => (p.1.text, p.2)

theorem readParameterList_eq_readMore (ts : List Token) :
    readParameterList ts = readParameter ts >>= fun p => readMore readParameterList [p.1] p.2 := by
  rw [readParameterList_eq, readParameter]
  cases readIdentifier ts with
  | error e => rfl
  | ok p =>
    obtain ⟨param, _ | ⟨t, ts₁⟩⟩ := p <;> rfl

theorem parameters_yields (owed : Nat) (s : TokenStream) :
    Yields owed 1 (readParameters s.tokens)
      (listed .parameters (return (← identifier).text)) s := by
  refine listed_yields readParameter (by simp [Loop.IsOuter]) (fun _ _ => readParameters_nil)
    (fun _ => readParameters_cons) readParameterList_eq_readMore fun s' owed _ => ?_
  exact (identifier_yields owed s').map Token.text

theorem function_yields (hcall : Serves call .function s) :
    Yields owed 1 (readFunction s.tokens) (functionBody call) s := by
  rw [readFunction_eq]
  refine (identifier_yields owed s).bind fun name s₁ hs₁ => ?_
  refine (symbol_yields "(" _ s₁).bind fun _ s₂ hs₂ => ?_
  refine (parameters_yields _ s₂).bind fun params s₃ hs₃ => ?_
  by_cases hlength : maxArity < params.length
  · simp only [hlength, if_true]
    exact .throw rfl nofun
  · simp only [hlength, if_false]
    refine Yields.bind (symbol_yields "\x7b" _ s₃) fun _ s₄ hs₄ => ?_
    have hafter : Serves call .function s₄ := (((hcall.after hs₁.length_le).after
      hs₂.length_le).after hs₃.length_le).after hs₄.length_le
    refine Yields.bind (hafter.here .block (by decide) (Nat.le_add_left 1 _)) fun body _ _ => ?_
    exact .pure (⟨name.text, params, body⟩ : Function) rfl

end Functions

end Bodies

theorem body_yields {call : (q : Procedure) → Reading q.Value} {p : Procedure} {s : TokenStream}
    {owed : Nat} (hcall : Serves call p s) (howed : p.owed ≤ owed) :
    Yields owed 1 (p.read s.tokens) (p.body call) s := by
  cases p with
  | function => exact function_yields hcall
  | block => exact block_yields howed hcall
  | statement => exact statement_yields hcall
  | clause stop => exact clause_yields stop hcall
  | expression => exact hcall.here (.level .assignment) (by decide) (Nat.zero_le owed)
  | level l => exact levelBody_yields l hcall

end Procedure

end MiniC
