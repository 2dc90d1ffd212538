import MiniC.Proofs.Grammar.Diagnostics

/-! Tokens after those that a reading was decided by.

An error about a token that was read stays the same whatever tokens are put after it. A reading
function may look at the token after what it reads, so that it is settled where such a token was
there, or where the tokens put after the end cannot continue what was read. -/
namespace MiniC

/-- Nothing, or tokens of which the first ends what stands before it. -/
def Closing (us : List Token) : Prop :=
  ∀ u ∈ us.head?, u.text ∈ [")", ";", ",", "\x7d"]

/-- The tokens that a reading leaves if more tokens are known not to change it: some, or none where
those that follow are closing. -/
def Ended (us rest : List Token) : Prop :=
  rest ≠ [] ∨ Closing us

/-- The second reading is one of the same tokens as the first with `us` after them. It has the same
error, unless that is about the end of the tokens, and the same value if the rest is as required. -/
def Extends {α : Type} (required : List Token → Prop) (us : List Token)
    (x x' : Except GrammarError (α × List Token)) : Prop :=
  match x with
  | .ok (a, rest) => required rest → x' = .ok (a, rest ++ us)
  | .error e => e.culprit ≠ none → x' = .error e

/-- The two readings go together wherever the first ends. -/
abbrev ExtendsPast {α : Type} (us : List Token) (x x' : Except GrammarError (α × List Token)) :
    Prop :=
  Extends (fun _ => True) us x x'

/-- The two readings go together unless the first was ended by the end of the tokens. -/
abbrev ExtendsOpen {α : Type} (us : List Token) (x x' : Except GrammarError (α × List Token)) :
    Prop :=
  Extends (Ended us) us x x'

section Closing

variable {us : List Token} {u : Token}

theorem Closing.binOp? (h : Closing us) (l : Level) (hu : u ∈ us.head?) :
    l.binOp? u.text = none := by
  have hmem := h u hu
  simp only [List.mem_cons, List.not_mem_nil, or_false] at hmem
  rcases hmem with htext | htext | htext | htext <;> rw [htext] <;> cases l <;> rfl

theorem Closing.ne (h : Closing us) {text : String} (htext : text ∈ ["=", "(", "else"])
    (hu : u ∈ us.head?) : u.text ≠ text := by
  intro heq
  have hmem := h u hu
  rw [heq] at hmem
  simp only [List.mem_cons, List.not_mem_nil, or_false] at htext
  rcases htext with rfl | rfl | rfl <;> exact absurd hmem (by decide)

theorem closing_nil : Closing [] := by
  simp [Closing]

theorem closing_cons (h : u.text ∈ [")", ";", ",", "\x7d"]) : Closing (u :: us) := by
  simpa [Closing] using h

end Closing

namespace Extends

variable {α β : Type} {required required' : List Token → Prop} {us : List Token}
  {x x' : Except GrammarError (α × List Token)}
  {k k' : α × List Token → Except GrammarError (β × List Token)}

theorem of_end {e : GrammarError} (h : e.culprit = none) : Extends required us (.error e) x' :=
  fun hne => absurd h hne

theorem error (e : GrammarError) : Extends required us (.error e) (.error e : Except _ (α × _)) :=
  fun _ => rfl

theorem ok (a : α) (rest : List Token) :
    Extends required us (.ok (a, rest)) (.ok (a, rest ++ us)) :=
  fun _ => rfl

/-- A reading that ended with the tokens says nothing where what follows is not closing. -/
theorem ok_nil (h : ¬ Closing us) (a : α) : ExtendsOpen us (.ok (a, [])) x' := by
  rintro (hne | hclosing)
  · exact absurd rfl hne
  · exact absurd hclosing h

theorem eq_ok {a : α} {rest : List Token} (h : Extends required us x x') (hx : x = .ok (a, rest))
    (hr : required rest) : x' = .ok (a, rest ++ us) := by
  rw [hx] at h
  exact h hr

theorem eq_error {e : GrammarError} (h : Extends required us x x') (hx : x = .error e)
    (he : e.culprit ≠ none) : x' = .error e := by
  rw [hx] at h
  exact h he

theorem mono (h : Extends required us x x') (hr : ∀ rest, required' rest → required rest) :
    Extends required' us x x' := by
  cases x with
  | error e => exact h
  | ok p => exact fun hp => h (hr p.2 hp)

theorem map (h : Extends required us x x') (g : α → β) :
    Extends required us (x.map fun p => (g p.1, p.2)) (x'.map fun p => (g p.1, p.2)) := by
  cases x with
  | error e =>
    intro hne
    rw [h hne]
    rfl
  | ok p =>
    intro hp
    rw [h hp]
    rfl

/-- Only the value is used further. -/
theorem bind_pure (h : Extends required us x x') (g : α → β) :
    Extends required us (x >>= fun p => pure (g p.1, p.2)) (x' >>= fun p => pure (g p.1, p.2)) := by
  cases x with
  | error e =>
    intro hne
    rw [h hne]
    rfl
  | ok p =>
    intro hp
    rw [h hp]
    rfl

theorem bind (h : Extends required us x x')
    (hk : ∀ a rest, x = .ok (a, rest) → required rest →
      Extends required' us (k (a, rest)) (k' (a, rest ++ us)))
    (hend : ∀ a rest, ¬ required rest → ∀ y, Extends required' us (k (a, rest)) y) :
    Extends required' us (x >>= k) (x' >>= k') := by
  cases x with
  | error e =>
    intro hne
    rw [h hne]
    rfl
  | ok p =>
    by_cases hp : required p.2
    · rw [h hp]
      exact hk p.1 p.2 rfl hp
    · exact hend p.1 p.2 hp _

/-- After a reading that is settled, the two computations need only go together from its end. -/
theorem bind_past (h : ExtendsPast us x x')
    (hk : ∀ a rest, x = .ok (a, rest) → Extends required us (k (a, rest)) (k' (a, rest ++ us))) :
    Extends required us (x >>= k) (x' >>= k') :=
  h.bind (fun a rest hx _ => hk a rest hx) fun _ _ hnot => absurd trivial hnot

/-- After a reading that may have been ended by the end of the tokens, what goes on from there has
nothing to say. -/
theorem bind_open (h : ExtendsOpen us x x')
    (hk : ∀ a rest, x = .ok (a, rest) → Extends required us (k (a, rest)) (k' (a, rest ++ us)))
    (hend : ∀ a, ¬ Closing us → ∀ y, Extends required us (k (a, [])) y) :
    Extends required us (x >>= k) (x' >>= k') := by
  refine h.bind (fun a rest hx _ => hk a rest hx) fun a rest hnot y => ?_
  obtain ⟨hrest, hclosing⟩ := not_or.mp hnot
  obtain rfl := not_ne_iff.mp hrest
  exact hend a hclosing y

theorem open_of_past (h : ExtendsPast us x x') : ExtendsOpen us x x' :=
  h.mono fun _ _ => trivial

end Extends

section Expressions

variable (us : List Token)

theorem readSymbol_extends (text : String) (ts : List Token) :
    ExtendsPast us (readSymbol text ts) (readSymbol text (ts ++ us)) := by
  cases ts with
  | nil => exact .of_end rfl
  | cons t ts =>
    rw [List.cons_append]
    by_cases ht : t.text = text
    · rw [readSymbol_cons_of_eq ht, readSymbol_cons_of_eq ht]
      exact .ok () ts
    · rw [readSymbol_cons_of_ne ht, readSymbol_cons_of_ne ht]
      exact .error _

theorem readIdentifier_extends (ts : List Token) :
    ExtendsPast us (readIdentifier ts) (readIdentifier (ts ++ us)) := by
  cases ts with
  | nil => exact .of_end rfl
  | cons t ts =>
    rw [List.cons_append]
    by_cases ht : Token.isWord t.text
    · rw [readIdentifier_cons_of_isWord ht, readIdentifier_cons_of_isWord ht]
      exact .ok t ts
    · rw [readIdentifier_of_not_isWord (by simpa using ht),
        readIdentifier_of_not_isWord (by simpa using ht)]
      exact .error _

theorem readNumber_extends (ts : List Token) :
    ExtendsPast us (readNumber ts) (readNumber (ts ++ us)) := by
  cases ts with
  | nil => exact .of_end rfl
  | cons t ts =>
    rw [List.cons_append]
    simp only [readNumber, Step.number]
    split_ifs
    · exact .error _
    · exact .ok _ ts
    · exact .error _
    · exact .error _

/-- Without tokens a number is missing, at every level. -/
theorem readExpr_nil (l : Level) : readExpr l [] = .error (.expected .number none) := by
  by_cases hl : l = .primary
  · subst hl
    rw [readExpr_number (by simp) (by simp)]
    rfl
  · have hrank := Level.rank_tighter_lt hl
    rw [readExpr_of_tighter hl (by simp), readExpr_nil l.tighter]
    rfl
termination_by l.rank

theorem readOperators_nil (l : Level) (lhs : Expr) : readOperators l lhs [] = .ok (lhs, []) :=
  readOperators_of_stop (by simp) (by simp)

mutual

theorem readExpr_extends (l : Level) (ts : List Token) :
    ExtendsOpen us (readExpr l ts) (readExpr l (ts ++ us)) := by
  by_cases hl : l = .primary
  · subst hl
    exact readPrimary_extends ts
  · have hrank := Level.rank_tighter_lt hl
    cases ts with
    | nil =>
      rw [readExpr_nil]
      exact .of_end rfl
    | cons t ts =>
      cases hop : l.unOp? t.text with
      | none =>
        rw [readExpr_of_tighter hl (by simpa using hop),
          readExpr_of_tighter hl (by simpa using hop)]
        refine (readExpr_extends l.tighter (t :: ts)).bind_open (fun lhs rest h => ?_)
          fun lhs hnot y => ?_
        · have hlength : rest.length < ts.length + 1 := length_lt_of_plain h
          exact readOperators_extends l lhs rest
        · dsimp only
          rw [readOperators_nil]
          exact .ok_nil hnot lhs
      | some op =>
        rw [List.cons_append, readExpr_of_unOp hop, readExpr_of_unOp hop]
        exact (readExpr_extends l ts).map _
termination_by 16 * ts.length + l.rank + 1

theorem readOperators_extends (l : Level) (lhs : Expr) (ts : List Token) :
    ExtendsOpen us (readOperators l lhs ts) (readOperators l lhs (ts ++ us)) := by
  cases ts with
  | nil =>
    rw [readOperators_nil, List.nil_append]
    rintro (hne | hclosing)
    · exact absurd rfl hne
    · exact readOperators_of_stop (fun u hu => hclosing.binOp? l hu)
        fun _ u hu => hclosing.ne (by simp) hu
  | cons t ts =>
    have hrank := Level.rank_le l
    have hrank' := Level.rank_le l.tighter
    cases hop : l.binOp? t.text with
    | some op =>
      rw [List.cons_append, readOperators_of_binOp hop, readOperators_of_binOp hop]
      refine (readExpr_extends l.tighter ts).bind_open (fun rhs rest h => ?_)
        fun rhs hnot y => ?_
      · have hlength := length_lt_of_plain h
        exact readOperators_extends l (.binary op lhs rhs) rest
      · dsimp only
        rw [readOperators_nil]
        exact .ok_nil hnot _
    | none =>
      by_cases hsign : l = .assignment ∧ t.text = "="
      · obtain ⟨rfl, ht⟩ := hsign
        rw [List.cons_append, readOperators_of_assign ht, readOperators_of_assign ht]
        exact (readExpr_extends .assignment ts).map _
      · rw [readOperators_of_stop (by simpa using hop) (by simpa using hsign),
          readOperators_of_stop (by simpa using hop) (by simpa using hsign)]
        exact .ok lhs (t :: ts)
termination_by 16 * ts.length

theorem readPrimary_extends (ts : List Token) :
    ExtendsOpen us (readExpr .primary ts) (readExpr .primary (ts ++ us)) := by
  have hrank := Level.rank_le .assignment
  cases ts with
  | nil =>
    rw [readExpr_nil]
    exact .of_end rfl
  | cons t ts =>
    by_cases hb : t.text = "("
    · rw [List.cons_append, readExpr_bracket hb, readExpr_bracket hb]
      refine (readExpr_extends .assignment ts).bind_open (fun e rest _ => ?_) fun e _ y => ?_
      · exact (readSymbol_extends us ")" rest).open_of_past.bind_pure fun _ => e
      · exact .of_end rfl
    · by_cases hw : Token.isWord t.text
      · cases ts with
        | nil =>
          rw [readExpr_var hw (by simp)]
          rintro (hne | hclosing)
          · exact absurd rfl hne
          · exact readExpr_var hw fun u hu => hclosing.ne (by simp) hu
        | cons u ts =>
          by_cases hu : u.text = "("
          · rw [List.cons_append, List.cons_append, readExpr_call hw hu, readExpr_call hw hu]
            refine (readArguments_extends ts).bind_past fun args rest _ => ?_
            dsimp only
            split_ifs
            · exact .ok _ rest
            · exact .error _
          · rw [List.cons_append, readExpr_var hw (by simpa using hu),
              readExpr_var hw (by simpa using hu)]
            exact .ok _ (u :: ts)
      · rw [readExpr_number (by simpa using hb) (by simpa using hw),
          readExpr_number (by simpa using hb) (by simpa using hw)]
        exact (readNumber_extends us (t :: ts)).open_of_past.map _
termination_by 16 * ts.length
decreasing_by
  all_goals
    have hrank := Level.rank_le .assignment
    subst_vars
    simp only [List.length_cons]
    omega

theorem readArguments_extends (ts : List Token) :
    ExtendsPast us (readArguments ts) (readArguments (ts ++ us)) := by
  cases ts with
  | nil =>
    rw [readArguments_cons (by simp), readArgumentList_eq, readExpr_nil]
    exact .of_end rfl
  | cons t ts =>
    by_cases ht : t.text = ")"
    · rw [List.cons_append, readArguments_nil ht, readArguments_nil ht]
      exact .ok [] ts
    · rw [readArguments_cons (by simpa using ht), readArguments_cons (by simpa using ht)]
      exact readArgumentList_extends (t :: ts)
termination_by 16 * ts.length + 10

theorem readArgumentList_extends (ts : List Token) :
    ExtendsPast us (readArgumentList ts) (readArgumentList (ts ++ us)) := by
  rw [readArgumentList_eq, readArgumentList_eq]
  refine (readExpr_extends .assignment ts).bind_open (fun arg rest h => ?_) fun arg _ y => ?_
  · have hlength := length_lt_of_plain h
    cases rest with
    | nil => exact .of_end rfl
    | cons t rest =>
      rw [List.length_cons] at hlength
      dsimp only [List.cons_append]
      split_ifs with hcomma
      · exact (readArgumentList_extends rest).map _
      · exact (readSymbol_extends us ")" (t :: rest)).map fun _ => [arg]
  · exact .of_end rfl
termination_by 16 * ts.length + 9
decreasing_by
  all_goals
    have hrank := Level.rank_le .assignment
    simp only [List.length_cons] at *
    omega

end

end Expressions

section Statements

variable (us : List Token)

theorem readTerminated_nil (stop : String) :
    readTerminated stop [] = .error (.expected .number none) := by
  rw [readTerminated_eq, readExpr_nil]
  rfl

theorem readStmt_nil : readStmt [] = .error (.expected .number none) := by
  rw [readStmt_expr (by simp), readTerminated_nil]
  rfl

theorem readTerminated_extends (stop : String) (ts : List Token) :
    ExtendsPast us (readTerminated stop ts) (readTerminated stop (ts ++ us)) := by
  rw [readTerminated_eq, readTerminated_eq]
  refine (readExpr_extends us .assignment ts).bind_open (fun e rest _ => ?_) fun e _ y => ?_
  · exact (readSymbol_extends us stop rest).bind_pure fun _ => e
  · exact .of_end rfl

theorem readClause_extends (stop : String) (ts : List Token) :
    ExtendsPast us (readClause stop ts) (readClause stop (ts ++ us)) := by
  cases ts with
  | nil =>
    rw [readClause_of_ne (by simp), readTerminated_nil]
    exact .of_end rfl
  | cons t ts =>
    by_cases ht : t.text = stop
    · rw [List.cons_append, readClause_empty ht, readClause_empty ht]
      exact .ok _ ts
    · rw [readClause_of_ne (by simpa using ht), readClause_of_ne (by simpa using ht)]
      exact readTerminated_extends us stop (t :: ts)

theorem readCondition_extends (ts : List Token) :
    ExtendsPast us (readCondition ts) (readCondition (ts ++ us)) := by
  rw [readCondition_eq, readCondition_eq]
  exact (readSymbol_extends us "(" ts).bind_past fun _ rest _ => readTerminated_extends us ")" rest

mutual

theorem readStmt_extends (ts : List Token) :
    ExtendsOpen us (readStmt ts) (readStmt (ts ++ us)) := by
  cases ts with
  | nil =>
    rw [readStmt_nil]
    exact .of_end rfl
  | cons t ts =>
    rw [List.cons_append]
    cases ho : Opening.ofText? t.text with
    | none =>
      rw [readStmt_expr (by simpa using ho), readStmt_expr (by simpa using ho)]
      exact (readTerminated_extends us ";" (t :: ts)).open_of_past.map _
    | some o =>
      cases o with
      | block =>
        rw [readStmt_block ho, readStmt_block ho]
        exact (readBlock_extends ts).open_of_past.map _
      | ret =>
        rw [readStmt_ret ho, readStmt_ret ho]
        exact (readTerminated_extends us ";" ts).open_of_past.map _
      | branch =>
        rw [readStmt_branch ho, readStmt_branch ho]
        refine (readCondition_extends us ts).bind_past fun cond ts₁ hcond => ?_
        have hlength := length_lt_of_plain hcond
        refine (readStmt_extends ts₁).bind_open (fun body ts₂ hbody => ?_) fun body hnot y => ?_
        · have hlength' := length_lt_of_plain hbody
          cases ts₂ with
          | nil =>
            -- What follows the tokens is no `else`, or the reading is not settled.
            rintro (hne | hclosing)
            · exact absurd rfl hne
            · cases us with
              | nil => rfl
              | cons u us => exact if_neg (hclosing.ne (by simp) rfl)
          | cons u ts₃ =>
            dsimp only [List.cons_append]
            split_ifs with helse
            · exact (readStmt_extends ts₃).map _
            · exact .ok _ (u :: ts₃)
        · exact .ok_nil hnot _
      | forLoop =>
        rw [readStmt_forLoop ho, readStmt_forLoop ho]
        refine (readSymbol_extends us "(" ts).bind_past fun _ ts₁ hopen => ?_
        have hlt₁ := length_lt_of_plain hopen
        refine (readClause_extends us ";" ts₁).bind_past fun init ts₂ hinit => ?_
        have hlt₂ := length_lt_of_plain hinit
        refine (readClause_extends us ";" ts₂).bind_past fun cond ts₃ hcond => ?_
        have hlt₃ := length_lt_of_plain hcond
        refine (readClause_extends us ")" ts₃).bind_past fun step ts₄ hstep => ?_
        have hlt₄ := length_lt_of_plain hstep
        exact (readStmt_extends ts₄).bind_pure fun body => Stmt.forLoop init cond step body
      | whileLoop =>
        rw [readStmt_whileLoop ho, readStmt_whileLoop ho]
        refine (readCondition_extends us ts).bind_past fun cond ts₁ hcond => ?_
        have hlength := length_lt_of_plain hcond
        exact (readStmt_extends ts₁).bind_pure fun body => Stmt.whileLoop cond body
termination_by 2 * ts.length
decreasing_by
  all_goals
    simp only [List.length_cons] at *
    omega

theorem readBlock_extends (ts : List Token) :
    ExtendsPast us (readBlock ts) (readBlock (ts ++ us)) := by
  cases ts with
  | nil =>
    rw [readBlock_nil]
    exact .of_end rfl
  | cons t ts =>
    by_cases ht : t.text = "\x7d"
    · rw [List.cons_append, readBlock_end ht, readBlock_end ht]
      exact .ok [] ts
    · rw [List.cons_append, readBlock_cons ht, readBlock_cons ht, ← List.cons_append]
      refine (readStmt_extends (t :: ts)).bind_open (fun s ts₁ hs => ?_) fun s _ y => ?_
      · have hlength := length_lt_of_plain hs
        exact (readBlock_extends ts₁).bind_pure fun body => s :: body
      · dsimp only
        rw [readBlock_nil]
        exact .of_end rfl
termination_by 2 * ts.length + 1
decreasing_by
  all_goals
    simp only [List.length_cons] at *
    omega

end

theorem readParameterList_extends (ts : List Token) :
    ExtendsPast us (readParameterList ts) (readParameterList (ts ++ us)) := by
  rw [readParameterList_eq, readParameterList_eq]
  refine (readIdentifier_extends us ts).bind_past fun param ts₁ hname => ?_
  have hlength := length_lt_of_plain hname
  cases ts₁ with
  | nil => exact .of_end rfl
  | cons t ts₂ =>
    dsimp only [List.cons_append]
    split_ifs with hcomma
    · exact (readParameterList_extends ts₂).map _
    · exact (readSymbol_extends us ")" (t :: ts₂)).map fun _ => [param.text]
termination_by ts.length
decreasing_by
  simp only [List.length_cons] at *
  omega

theorem readParameters_extends (ts : List Token) :
    ExtendsPast us (readParameters ts) (readParameters (ts ++ us)) := by
  cases ts with
  | nil =>
    rw [readParameters_cons (by simp), readParameterList_eq]
    exact .of_end rfl
  | cons t ts =>
    by_cases ht : t.text = ")"
    · rw [List.cons_append, readParameters_nil ht, readParameters_nil ht]
      exact .ok [] ts
    · rw [readParameters_cons (by simpa using ht), readParameters_cons (by simpa using ht)]
      exact readParameterList_extends us (t :: ts)

theorem readFunction_extends (ts : List Token) :
    ExtendsPast us (readFunction ts) (readFunction (ts ++ us)) := by
  rw [readFunction_eq, readFunction_eq]
  refine (readIdentifier_extends us ts).bind_past fun name ts₁ _ => ?_
  refine (readSymbol_extends us "(" ts₁).bind_past fun _ ts₂ _ => ?_
  refine (readParameters_extends us ts₂).bind_past fun params ts₃ _ => ?_
  dsimp only
  split_ifs
  · exact .error _
  · refine (readSymbol_extends us "\x7b" ts₃).bind_past fun _ ts₄ _ => ?_
    exact (readBlock_extends us ts₄).bind_pure fun body => Function.mk name.text params body

end Statements

section Programs

variable {us : List Token}

/-- An error in one of the constructs is an error of all of them. -/
theorem many_append {α : Type} {step : (ts : List Token) → Step α ts}
    (hstep : ∀ ts, ExtendsOpen us (step ts).plain (step (ts ++ us)).plain) {ts : List Token}
    {e : GrammarError} (h : Step.many step ts = .error e) (he : e.culprit ≠ none) :
    Step.many step (ts ++ us) = .error e := by
  cases ts with
  | nil =>
    rw [many_nil] at h
    cases h
  | cons t ts =>
    rw [many_cons, bind_eq_error_iff] at h
    rw [List.cons_append, many_cons, ← List.cons_append]
    rcases h with herror | ⟨⟨x, rest⟩, hok, h⟩
    · rw [(hstep (t :: ts)).eq_error herror he]
      rfl
    · dsimp only at h
      have hlength := length_lt_of_plain hok
      have hmany : Step.many step rest = .error e := by
        rcases bind_eq_error_iff.mp h with herror | ⟨_, _, hpure⟩
        · exact herror
        · cases hpure
      have hrest : rest ≠ [] := by
        rintro rfl
        rw [many_nil] at hmany
        cases hmany
      rw [(hstep (t :: ts)).eq_ok hok (.inl hrest)]
      show (Step.many step (rest ++ us) >>= _) = _
      rw [many_append hstep hmany he]
      rfl
termination_by ts.length
decreasing_by
  subst_vars
  exact hlength

/-- Tokens after those of an error change nothing, unless the error is about the end. -/
theorem parse_append {dialect : Dialect} {ts : List Token} {e : GrammarError}
    (h : parse dialect ts = .error e) (he : e.culprit ≠ none) :
    parse dialect (ts ++ us) = .error e := by
  cases dialect with
  | expression =>
    rw [parse_expression, bind_eq_error_iff] at h
    rw [parse_expression]
    rcases h with herror | ⟨⟨value, rest⟩, hok, h⟩
    · rw [(readExpr_extends us .assignment ts).eq_error herror he]
      rfl
    · cases rest with
      | nil => cases h
      | cons t rest =>
        rw [(readExpr_extends us .assignment ts).eq_ok hok (.inl (List.cons_ne_nil _ _))]
        exact h
  | statements =>
    rcases bind_eq_error_iff.mp h with herror | ⟨_, _, hpure⟩
    · simp only [parse, many_append (readStmt_extends us) herror he]
      rfl
    · cases hpure
  | functions => exact many_append (fun ts => (readFunction_extends us ts).open_of_past) h he

end Programs

section Errors

variable {source : String} {dialect : Dialect} {tokens : List Token}

/-- The message ends with the words for an input that was too short. -/
def CompileError.SaysEndOfInput (e : CompileError) : Prop :=
  "but reached end of input".toList <:+ e.message.toList

theorem saysEndOfInput_grammatical_iff {place : Excerpt} {cause : GrammarError} :
    (CompileError.grammatical place cause).SaysEndOfInput ↔ cause.culprit = none :=
  GrammarError.saysEndOfInput_iff

/-- An error about a token is shown where that token stands, whatever the other tokens are. -/
theorem GrammarError.excerpt_eq {e : GrammarError} (h : e.culprit ≠ none) (source : String)
    (ts us : List Token) : e.excerpt source ts = e.excerpt source us := by
  obtain ⟨t, ht⟩ := Option.ne_none_iff_exists'.mp h
  rw [excerpt, excerpt, ht]

/-- Whatever stands after the tokens, an error that is not about their end remains, with its
message, its line and its marker. -/
theorem parseTokens_final {e : CompileError} (h : parseTokens source dialect tokens = .error e)
    (hread : ¬ e.SaysEndOfInput) (us : List Token) :
    parseTokens source dialect (tokens ++ us) = .error e := by
  obtain ⟨cause, hparse, rfl⟩ := mapError_eq_error_iff.mp h
  rw [saysEndOfInput_grammatical_iff] at hread
  rw [parseTokens, parse_append hparse hread,
    GrammarError.excerpt_eq hread source tokens (tokens ++ us)]
  rfl

/-- A call with seven arguments, found to be wrong only at its closing bracket, which is the last
token. -/
def overlong : String :=
  "\x7b if (a)\n  f(1, 2, 3, 4, 5, 6, 7)"

theorem overlong_final : ∃ tokens e, tokenize overlong = .ok tokens ∧
    parseTokens overlong .statements tokens = .error e ∧ ¬ e.SaysEndOfInput ∧
    ∀ us, parseTokens overlong .statements (tokens ++ us) = .error e := by
  obtain ⟨tokens, place, callee, htokens, he⟩ : ∃ tokens place callee,
      tokenize overlong = .ok tokens ∧ parseTokens overlong .statements tokens =
        .error (.grammatical place (.tooManyArguments callee)) := ⟨_, _, _, by cbv, by cbv⟩
  have hread : ¬ (CompileError.grammatical place (.tooManyArguments callee)).SaysEndOfInput := by
    rw [saysEndOfInput_grammatical_iff]
    exact Option.some_ne_none callee
  exact ⟨tokens, _, htokens, he, hread, parseTokens_final he hread⟩

end Errors

end MiniC
