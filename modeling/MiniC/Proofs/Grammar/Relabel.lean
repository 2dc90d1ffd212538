import MiniC.Compile
import MiniC.Proofs.Except
import MiniC.Proofs.Grammar.Derivation

/-! Reading looks at the texts of tokens only.

Tokens replaced by others of the same texts are read as the same values, and errors are about the
replaced tokens. Every reading function commutes with such a replacement; the proofs follow the
recursion of the reading functions. -/
namespace MiniC

/-- The error with its token replaced. -/
def GrammarError.map (f : Token → Token) : GrammarError → GrammarError
  | expected what found => expected what (found.map f)
  | emptyNumber literal => emptyNumber (f literal)
  | numberTooLarge literal => numberTooLarge (f literal)
  | tooManyArguments callee => tooManyArguments (f callee)
  | tooManyParameters function => tooManyParameters (f function)
  | leftover token => leftover (f token)

theorem GrammarError.culprit_map (f : Token → Token) (e : GrammarError) :
    (e.map f).culprit = e.culprit.map f := by
  cases e <;> rfl

/-- The outcome of a reading with the remaining tokens, or the token of its error, replaced. -/
def relabel {α : Type} (f : Token → Token) (x : Except GrammarError (α × List Token)) :
    Except GrammarError (α × List Token) :=
  (x.map fun p => (p.1, p.2.map f)).mapError (GrammarError.map f)

section Outcomes

variable {α β : Type} {f : Token → Token}

@[simp] theorem relabel_ok (a : α) (rest : List Token) :
    relabel f (.ok (a, rest)) = .ok (a, rest.map f) :=
  rfl

@[simp] theorem relabel_error (e : GrammarError) :
    relabel f (.error e : Except GrammarError (α × List Token)) = .error (e.map f) :=
  rfl

theorem relabel_map (g : α → β) (x : Except GrammarError (α × List Token)) :
    (relabel f x).map (fun p => (g p.1, p.2)) = relabel f (x.map fun p => (g p.1, p.2)) := by
  cases x <;> rfl

/-- A computation that goes on from where a reading ended need only respect the replacement
there. -/
theorem relabel_bind {x : Except GrammarError (α × List Token)}
    {k k' : α × List Token → Except GrammarError (β × List Token)}
    (hk : ∀ a rest, x = .ok (a, rest) → k' (a, rest.map f) = relabel f (k (a, rest))) :
    (relabel f x >>= k') = relabel f (x >>= k) := by
  cases x with
  | error e => rfl
  | ok p => exact hk p.1 p.2 rfl

end Outcomes

theorem length_lt_of_plain {α : Type} {ts rest : List Token} {s : Step α ts} {a : α}
    (h : s.plain = .ok (a, rest)) : rest.length < ts.length := by
  obtain ⟨⟨b, rest', hrest⟩, -, heq⟩ := map_eq_ok_iff.mp h
  cases heq
  exact hrest

section Symbols

variable {f : Token → Token} (hf : ∀ t, (f t).text = t.text)
include hf

theorem readSymbol_map (text : String) (ts : List Token) :
    readSymbol text (ts.map f) = relabel f (readSymbol text ts) := by
  cases ts with
  | nil => rfl
  | cons t ts =>
    by_cases ht : t.text = text
    · rw [List.map_cons, readSymbol_cons_of_eq ((hf t).trans ht), readSymbol_cons_of_eq ht]
      rfl
    · rw [List.map_cons, readSymbol_cons_of_ne (by rwa [hf t]), readSymbol_cons_of_ne ht]
      rfl

theorem readIdentifier_map (ts : List Token) :
    readIdentifier (ts.map f) =
      (relabel f (readIdentifier ts)).map fun p => (f p.1, p.2) := by
  cases ts with
  | nil => rfl
  | cons t ts =>
    by_cases ht : Token.isWord t.text
    · rw [List.map_cons, readIdentifier_cons_of_isWord (by rwa [hf t]),
        readIdentifier_cons_of_isWord ht]
      rfl
    · rw [List.map_cons, readIdentifier_of_not_isWord (by simpa [hf t] using ht),
        readIdentifier_of_not_isWord (by simpa using ht)]
      rfl

theorem readNumber_map (ts : List Token) :
    readNumber (ts.map f) = relabel f (readNumber ts) := by
  cases ts with
  | nil => rfl
  | cons t ts =>
    rw [List.map_cons]
    simp only [readNumber, Step.number, hf t]
    split_ifs <;> rfl

end Symbols

section Expressions

variable {f : Token → Token} (hf : ∀ t, (f t).text = t.text)
include hf

mutual

theorem readExpr_map (l : Level) (ts : List Token) :
    readExpr l (ts.map f) = relabel f (readExpr l ts) := by
  by_cases hl : l = .primary
  · subst hl
    exact readPrimary_map ts
  · have hrank := Level.rank_tighter_lt hl
    have htighter : (∀ t ∈ ts.head?, l.unOp? t.text = none) →
        readExpr l (ts.map f) = relabel f (readExpr l ts) := by
      intro hnone
      have hnone' : ∀ t ∈ (ts.map f).head?, l.unOp? t.text = none := by
        simpa [hf] using hnone
      rw [readExpr_of_tighter hl hnone', readExpr_of_tighter hl hnone, readExpr_map l.tighter ts]
      refine relabel_bind fun lhs rest h => ?_
      have hlength := length_lt_of_plain h
      exact readOperators_map l lhs rest
    cases ts with
    | nil => exact htighter (by simp)
    | cons t ts =>
      cases hop : l.unOp? t.text with
      | none => exact htighter (by simpa using hop)
      | some op =>
        rw [List.map_cons, readExpr_of_unOp (by rwa [hf t]), readExpr_of_unOp hop,
          readExpr_map l ts, relabel_map]
termination_by 16 * ts.length + l.rank + 1

theorem readOperators_map (l : Level) (lhs : Expr) (ts : List Token) :
    readOperators l lhs (ts.map f) = relabel f (readOperators l lhs ts) := by
  have hstop : (∀ t ∈ ts.head?, l.binOp? t.text = none) →
      (l = .assignment → ∀ t ∈ ts.head?, t.text ≠ "=") →
      readOperators l lhs (ts.map f) = relabel f (readOperators l lhs ts) := by
    intro hop hsign
    rw [readOperators_of_stop (by simpa [hf] using hop) (by simpa [hf] using hsign),
      readOperators_of_stop hop hsign]
    rfl
  cases ts with
  | nil => exact hstop (by simp) (by simp)
  | cons t ts =>
    have hrank := Level.rank_le l
    have hrank' := Level.rank_le l.tighter
    cases hop : l.binOp? t.text with
    | some op =>
      rw [List.map_cons, readOperators_of_binOp (by rwa [hf t]), readOperators_of_binOp hop,
        readExpr_map l.tighter ts]
      refine relabel_bind fun rhs rest h => ?_
      have hlength := length_lt_of_plain h
      exact readOperators_map l (.binary op lhs rhs) rest
    | none =>
      by_cases hsign : l = .assignment ∧ t.text = "="
      · obtain ⟨rfl, ht⟩ := hsign
        rw [List.map_cons, readOperators_of_assign ((hf t).trans ht), readOperators_of_assign ht,
          readExpr_map .assignment ts, relabel_map]
      · exact hstop (by simpa using hop) (by simpa using hsign)
termination_by 16 * ts.length

theorem readPrimary_map (ts : List Token) :
    readExpr .primary (ts.map f) = relabel f (readExpr .primary ts) := by
  have hrank := Level.rank_le .assignment
  cases ts with
  | nil =>
    rw [List.map_nil, readExpr_number (by simp) (by simp)]
    rfl
  | cons t ts =>
    by_cases hb : t.text = "("
    · rw [List.map_cons, readExpr_bracket ((hf t).trans hb), readExpr_bracket hb,
        readExpr_map .assignment ts]
      refine relabel_bind fun e rest _ => ?_
      dsimp only
      rw [readSymbol_map hf]
      exact relabel_bind fun _ _ _ => rfl
    · by_cases hw : Token.isWord t.text
      · have hw' : Token.isWord (f t).text := by rwa [hf t]
        rcases begins_or_not "(" ts with ⟨u, us, rfl, hu⟩ | hne
        · rw [List.map_cons, List.map_cons, readExpr_call hw' ((hf u).trans hu),
            readExpr_call hw hu, readArguments_map us, hf t]
          refine relabel_bind fun args rest _ => ?_
          dsimp only
          split_ifs <;> rfl
        · rw [List.map_cons, readExpr_var hw' (by simpa [hf] using hne), readExpr_var hw hne, hf t]
          rfl
      · rw [readExpr_number (by simpa [hf] using hb) (by simpa [hf] using hw),
          readExpr_number (by simpa using hb) (by simpa using hw), readNumber_map hf, relabel_map]
termination_by 16 * ts.length
decreasing_by
  all_goals
    have hrank := Level.rank_le .assignment
    subst_vars
    simp only [List.length_cons]
    omega

theorem readArguments_map (ts : List Token) :
    readArguments (ts.map f) = relabel f (readArguments ts) := by
  rcases begins_or_not ")" ts with ⟨t, us, rfl, ht⟩ | hne
  · rw [List.map_cons, readArguments_nil ((hf t).trans ht), readArguments_nil ht]
    rfl
  · rw [readArguments_cons (by simpa [hf] using hne), readArguments_cons hne]
    exact readArgumentList_map ts
termination_by 16 * ts.length + 10

theorem readArgumentList_map (ts : List Token) :
    readArgumentList (ts.map f) = relabel f (readArgumentList ts) := by
  have hrank := Level.rank_le .assignment
  rw [readArgumentList_eq, readArgumentList_eq, readExpr_map .assignment ts]
  refine relabel_bind fun arg rest h => ?_
  have hlength := length_lt_of_plain h
  cases rest with
  | nil => rfl
  | cons t rest =>
    rw [List.length_cons] at hlength
    simp only [List.map_cons, hf t]
    split_ifs with hcomma
    · rw [readArgumentList_map rest, relabel_map]
    · rw [← List.map_cons, readSymbol_map hf, relabel_map fun _ => [arg]]
termination_by 16 * ts.length + 9
decreasing_by
  all_goals
    have hrank := Level.rank_le .assignment
    simp only [List.length_cons] at *
    omega

end

end Expressions

section Statements

variable {f : Token → Token} (hf : ∀ t, (f t).text = t.text)
include hf

theorem readTerminated_map (stop : String) (ts : List Token) :
    readTerminated stop (ts.map f) = relabel f (readTerminated stop ts) := by
  rw [readTerminated_eq, readTerminated_eq, readExpr_map hf]
  refine relabel_bind fun e rest _ => ?_
  dsimp only
  rw [readSymbol_map hf]
  exact relabel_bind fun _ _ _ => rfl

theorem readClause_map (stop : String) (ts : List Token) :
    readClause stop (ts.map f) = relabel f (readClause stop ts) := by
  rcases begins_or_not stop ts with ⟨t, us, rfl, ht⟩ | hne
  · rw [List.map_cons, readClause_empty ((hf t).trans ht), readClause_empty ht]
    rfl
  · rw [readClause_of_ne (by simpa [hf] using hne), readClause_of_ne hne]
    exact readTerminated_map hf stop ts

theorem readCondition_map (ts : List Token) :
    readCondition (ts.map f) = relabel f (readCondition ts) := by
  rw [readCondition_eq, readCondition_eq, readSymbol_map hf]
  exact relabel_bind fun _ rest _ => readTerminated_map hf ")" rest

mutual

theorem readStmt_map (ts : List Token) : readStmt (ts.map f) = relabel f (readStmt ts) := by
  cases ts with
  | nil =>
    rw [List.map_nil, readStmt_expr (by simp), ← relabel_map, ← readTerminated_map hf,
      List.map_nil]
  | cons t ts =>
    cases ho : Opening.ofText? t.text with
    | none =>
      rw [readStmt_expr (by simpa [hf] using ho), readStmt_expr (by simpa using ho),
        readTerminated_map hf, relabel_map]
    | some o =>
      have ho' : Opening.ofText? (f t).text = some o := by rwa [hf t]
      rw [List.map_cons]
      cases o with
      | block => rw [readStmt_block ho', readStmt_block ho, readBlock_map ts, relabel_map]
      | ret => rw [readStmt_ret ho', readStmt_ret ho, readTerminated_map hf, relabel_map]
      | branch =>
        rw [readStmt_branch ho', readStmt_branch ho, readCondition_map hf]
        refine relabel_bind fun cond ts₁ hcond => ?_
        have hlength := length_lt_of_plain hcond
        dsimp only
        rw [readStmt_map ts₁]
        refine relabel_bind fun body ts₂ hbody => ?_
        have hlength' := length_lt_of_plain hbody
        cases ts₂ with
        | nil => rfl
        | cons u ts₃ =>
          simp only [List.map_cons, hf u]
          split_ifs with helse
          · rw [readStmt_map ts₃, relabel_map]
          · rfl
      | forLoop =>
        rw [readStmt_forLoop ho', readStmt_forLoop ho, readSymbol_map hf]
        refine relabel_bind fun _ ts₁ hopen => ?_
        have hlt₁ := length_lt_of_plain hopen
        dsimp only
        rw [readClause_map hf]
        refine relabel_bind fun init ts₂ hinit => ?_
        have hlt₂ := length_lt_of_plain hinit
        dsimp only
        rw [readClause_map hf]
        refine relabel_bind fun cond ts₃ hcond => ?_
        have hlt₃ := length_lt_of_plain hcond
        dsimp only
        rw [readClause_map hf]
        refine relabel_bind fun step ts₄ hstep => ?_
        have hlt₄ := length_lt_of_plain hstep
        dsimp only
        rw [readStmt_map ts₄]
        exact relabel_bind fun _ _ _ => rfl
      | whileLoop =>
        rw [readStmt_whileLoop ho', readStmt_whileLoop ho, readCondition_map hf]
        refine relabel_bind fun cond ts₁ hcond => ?_
        have hlength := length_lt_of_plain hcond
        dsimp only
        rw [readStmt_map ts₁]
        exact relabel_bind fun _ _ _ => rfl
termination_by 2 * ts.length
decreasing_by
  all_goals
    simp only [List.length_cons] at *
    omega

theorem readBlock_map (ts : List Token) : readBlock (ts.map f) = relabel f (readBlock ts) := by
  cases ts with
  | nil =>
    rw [List.map_nil, readBlock_nil]
    rfl
  | cons t ts =>
    by_cases ht : t.text = "\x7d"
    · rw [List.map_cons, readBlock_end ((hf t).trans ht), readBlock_end ht]
      rfl
    · rw [List.map_cons, readBlock_cons (by rwa [hf t]), readBlock_cons ht, ← List.map_cons,
        readStmt_map (t :: ts)]
      refine relabel_bind fun s ts₁ hs => ?_
      have hlength := length_lt_of_plain hs
      dsimp only
      rw [readBlock_map ts₁]
      exact relabel_bind fun _ _ _ => rfl
termination_by 2 * ts.length + 1
decreasing_by
  all_goals
    simp only [List.length_cons] at *
    omega

end

end Statements

section Programs

/-- What holds of one construct holds of all of them up to the end of the tokens. -/
theorem many_map {α : Type} {f : Token → Token} {step : (ts : List Token) → Step α ts}
    (hstep : ∀ ts, (step (ts.map f)).plain = relabel f (step ts).plain) (ts : List Token) :
    Step.many step (ts.map f) = (Step.many step ts).mapError (GrammarError.map f) := by
  cases ts with
  | nil =>
    rw [List.map_nil, many_nil]
    rfl
  | cons t ts =>
    rw [List.map_cons, many_cons, many_cons, ← List.map_cons, hstep]
    cases hx : (step (t :: ts)).plain with
    | error e => rfl
    | ok p =>
      obtain ⟨x, rest⟩ := p
      have hlength := length_lt_of_plain hx
      show (Step.many step (rest.map f) >>= _) = Except.mapError _ (Step.many step rest >>= _)
      rw [many_map hstep rest]
      cases Step.many step rest <;> rfl
termination_by ts.length
decreasing_by exact hlength

variable {f : Token → Token} (hf : ∀ t, (f t).text = t.text)
include hf

theorem readParameterList_map (ts : List Token) :
    readParameterList (ts.map f) = relabel f (readParameterList ts) := by
  rw [readParameterList_eq, readParameterList_eq, readIdentifier_map hf]
  cases hname : readIdentifier ts with
  | error e => rfl
  | ok p =>
    obtain ⟨param, ts₁⟩ := p
    have hlength := length_lt_of_plain hname
    cases ts₁ with
    | nil => rfl
    | cons t ts₂ =>
      show ite _ _ _ = relabel f (ite _ _ _)
      rw [hf t, hf param]
      split_ifs with hcomma
      · rw [readParameterList_map ts₂, relabel_map]
      · rw [← List.map_cons, readSymbol_map hf, relabel_map fun _ => [param.text]]
termination_by ts.length
decreasing_by
  simp only [List.length_cons] at *
  omega

theorem readParameters_map (ts : List Token) :
    readParameters (ts.map f) = relabel f (readParameters ts) := by
  rcases begins_or_not ")" ts with ⟨t, us, rfl, ht⟩ | hne
  · rw [List.map_cons, readParameters_nil ((hf t).trans ht), readParameters_nil ht]
    rfl
  · rw [readParameters_cons (by simpa [hf] using hne), readParameters_cons hne]
    exact readParameterList_map hf ts

theorem readFunction_map (ts : List Token) :
    readFunction (ts.map f) = relabel f (readFunction ts) := by
  rw [readFunction_eq, readFunction_eq, readIdentifier_map hf]
  cases readIdentifier ts with
  | error e => rfl
  | ok p =>
    obtain ⟨name, ts₁⟩ := p
    show (readSymbol "(" (ts₁.map f) >>= _) = relabel f (readSymbol "(" ts₁ >>= _)
    rw [readSymbol_map hf]
    refine relabel_bind fun _ ts₂ _ => ?_
    dsimp only
    rw [readParameters_map hf]
    refine relabel_bind fun params ts₃ _ => ?_
    dsimp only
    rw [hf name]
    split_ifs
    · rfl
    · show (readSymbol "\x7b" (ts₃.map f) >>= _) = relabel f (readSymbol "\x7b" ts₃ >>= _)
      rw [readSymbol_map hf]
      refine relabel_bind fun _ ts₄ _ => ?_
      dsimp only
      rw [readBlock_map hf]
      exact relabel_bind fun _ _ _ => rfl

/-- Tokens replaced by others of the same texts form the same program. -/
theorem parse_map (dialect : Dialect) (ts : List Token) :
    parse dialect (ts.map f) = (parse dialect ts).mapError (GrammarError.map f) := by
  cases dialect with
  | expression =>
    rw [parse_expression, parse_expression, readExpr_map hf]
    cases readExpr .assignment ts with
    | error e => rfl
    | ok p =>
      obtain ⟨e, rest⟩ := p
      cases rest <;> rfl
  | statements =>
    simp only [parse, many_map (readStmt_map hf)]
    cases Step.many Step.statement ts <;> rfl
  | functions => exact many_map (readFunction_map hf) ts

end Programs

section Errors

/-- An error is about one of the tokens that were read, or about their end. Otherwise moving the
token of the error, and none of those that were read, would change the outcome. -/
theorem culprit_mem_of_parse {dialect : Dialect} {ts : List Token} {e : GrammarError}
    (h : parse dialect ts = .error e) {t : Token} (ht : e.culprit = some t) : t ∈ ts := by
  by_contra hnot
  let moved (u : Token) : Token := if u ∈ ts then u else { u with pos := u.pos + 1 }
  have htext : ∀ u, (moved u).text = u.text := by
    intro u
    dsimp only [moved]
    split_ifs <;> rfl
  have hkept : ts.map moved = ts :=
    (List.map_congr_left fun u hu => if_pos hu).trans (List.map_id ts)
  have hmap := parse_map htext dialect ts
  rw [hkept, h] at hmap
  have hculprit := congrArg GrammarError.culprit (Except.error.inj hmap)
  rw [GrammarError.culprit_map, ht] at hculprit
  have hpos := congrArg Token.pos (Option.some.inj hculprit)
  simp [moved, hnot] at hpos

theorem GrammarError.message_map {f : Token → Token} (hf : ∀ t, (f t).text = t.text)
    (e : GrammarError) : (e.map f).message = e.message := by
  cases e with
  | expected what found =>
    cases found with
    | none => rfl
    | some t =>
      dsimp only [GrammarError.map, Option.map_some, message]
      rw [hf t]
  | emptyNumber t | numberTooLarge t | tooManyArguments t | tooManyParameters t | leftover t =>
    dsimp only [GrammarError.map, message]
    rw [hf t]

/-- A token without its kind and its place. -/
def Token.bare (t : Token) : Token :=
  ⟨.word, t.text, 0, 0⟩

theorem Token.map_bare_of_texts {ts us : List Token} (h : Token.texts ts = Token.texts us) :
    ts.map Token.bare = us.map Token.bare := by
  have hbare (vs : List Token) :
      vs.map Token.bare = (Token.texts vs).map fun text => ⟨.word, text, 0, 0⟩ := by
    rw [Token.texts, List.map_map]
    rfl
  rw [hbare, hbare, h]

/-- The texts of tokens decide whether they form a program, which one, and what is wrong if they
form none. Their kinds, their places and the source have no part in it. -/
theorem parseTokens_congr_texts {ts us : List Token} (h : Token.texts ts = Token.texts us)
    (source source' : String) (dialect : Dialect) :
    (∃ p, parseTokens source dialect ts = .ok p ∧ parseTokens source' dialect us = .ok p) ∨
    ∃ place place' cause cause',
      parseTokens source dialect ts = .error (.grammatical place cause) ∧
      parseTokens source' dialect us = .error (.grammatical place' cause') ∧
      cause.message = cause'.message := by
  have hkept : ∀ t, (Token.bare t).text = t.text := fun _ => rfl
  have hbare := parse_map hkept dialect ts
  rw [Token.map_bare_of_texts h, parse_map hkept] at hbare
  unfold parseTokens
  cases hts : parse dialect ts with
  | ok p =>
    cases hus : parse dialect us with
    | ok q =>
      rw [hts, hus] at hbare
      cases hbare
      exact .inl ⟨p, rfl, rfl⟩
    | error e =>
      rw [hts, hus] at hbare
      cases hbare
  | error e =>
    cases hus : parse dialect us with
    | ok q =>
      rw [hts, hus] at hbare
      cases hbare
    | error e' =>
      rw [hts, hus] at hbare
      have hmessage := congrArg GrammarError.message (Except.error.inj hbare)
      rw [GrammarError.message_map hkept, GrammarError.message_map hkept] at hmessage
      exact .inr ⟨_, _, e, e', rfl, rfl, hmessage.symm⟩

/-- `x = )` -/
def unfinished : List Token :=
  [⟨.word, "x", 0, 0⟩, ⟨.punctuator, "=", 0, 2⟩, ⟨.punctuator, ")", 0, 4⟩]

/-- The same texts as those of `unfinished`, with kinds and places that no scan gives. -/
def scattered : List Token :=
  [⟨.number, "x", 7, 3⟩, ⟨.word, "=", 2, 9⟩, ⟨.number, ")", 0, 1⟩]

theorem scattered_alike :
    Token.texts unfinished = Token.texts scattered ∧
    ((∃ p, parseTokens "x = )" .statements unfinished = .ok p ∧
      parseTokens "é" .statements scattered = .ok p) ∨
    ∃ place place' cause cause',
      parseTokens "x = )" .statements unfinished = .error (.grammatical place cause) ∧
      parseTokens "é" .statements scattered = .error (.grammatical place' cause') ∧
      cause.message = cause'.message) :=
  have htexts : Token.texts unfinished = Token.texts scattered := rfl
  ⟨htexts, parseTokens_congr_texts htexts "x = )" "é" .statements⟩

end Errors

end MiniC
