import MiniC.Proofs.Except
import MiniC.Proofs.Grammar.Derivation

/-! What is read has a derivation from the texts of the tokens that were used. -/
namespace MiniC

variable {t : Token} {ts rest : List Token} {e : Expr}

theorem of_readSymbol {text : String} {u : Unit} (h : readSymbol text ts = .ok (u, rest)) :
    ∃ t, ts = t :: rest ∧ t.text = text := by
  cases ts with
  | nil =>
    rw [readSymbol_nil] at h
    cases h
  | cons t ts =>
    by_cases ht : t.text = text
    · rw [readSymbol_cons_of_eq ht] at h
      cases h
      exact ⟨t, rfl, ht⟩
    · rw [readSymbol_cons_of_ne ht] at h
      cases h

theorem of_readIdentifier (h : readIdentifier ts = .ok (t, rest)) :
    ts = t :: rest ∧ IsIdentifier t.text := by
  cases ts with
  | nil => cases h
  | cons u us =>
    by_cases hu : Token.isWord u.text
    · rw [readIdentifier_cons_of_isWord hu] at h
      cases h
      exact ⟨rfl, isIdentifier_iff.mpr hu⟩
    · rw [readIdentifier_of_not_isWord (by simpa using hu)] at h
      cases h

theorem of_readNumber {v : Int64} (h : readNumber ts = .ok (v, rest)) :
    ∃ t n, ts = t :: rest ∧ IsNumeral t.text n ∧ n ≤ 2 ^ 63 - 1 ∧ v = .ofNat n := by
  cases ts with
  | nil => cases h
  | cons t ts =>
    simp only [readNumber, Step.number] at h
    split at h
    · next hdigits =>
      split at h
      · cases h
      · next hempty =>
        split at h
        · next hmax =>
          cases h
          exact ⟨t, _, rfl, ⟨hempty, by simpa using hdigits, rfl⟩, hmax, rfl⟩
        · cases h
    · cases h

theorem length_le_of_texts {used : List String}
    (h : Token.texts ts = used ++ Token.texts rest) : rest.length ≤ ts.length := by
  have hlength := congrArg List.length h
  rw [List.length_append, Token.length_texts, Token.length_texts] at hlength
  omega

theorem length_lt_of_texts {used : List String}
    (h : Token.texts ts = used ++ Token.texts rest) (hne : used ≠ []) :
    rest.length < ts.length := by
  have hlength := congrArg List.length h
  have hpos := List.length_pos_of_ne_nil hne
  rw [List.length_append, Token.length_texts, Token.length_texts] at hlength
  omega

theorem length_lt_of_texts_cons {used : List String} {text : String}
    (h : Token.texts ts = used ++ text :: Token.texts rest) : rest.length < ts.length := by
  rw [← List.singleton_append, ← List.append_assoc] at h
  exact length_lt_of_texts h (by simp)

/-- Expressions of every level are sound in lists of less than `n` tokens. -/
def ExprSound (n : Nat) : Prop :=
  ∀ {l : Level} {ts rest : List Token} {e : Expr}, ts.length < n →
    readExpr l ts = .ok (e, rest) →
    ∃ used, Token.texts ts = used ++ Token.texts rest ∧ Expr.Derives l used e

section Expressions

variable {n : Nat}

/-- Operators extend an operand of their own level. -/
theorem derives_of_readOperators (hn : ExprSound n) {l : Level} {lhs e : Expr}
    {before : List String} {ts rest : List Token} (hts : ts.length ≤ n) (hl : l ≠ .primary)
    (hlhs : Expr.Derives l before lhs)
    (hassign : l = .assignment → Expr.Derives .equality before lhs)
    (h : readOperators l lhs ts = .ok (e, rest)) :
    ∃ used, Token.texts ts = used ++ Token.texts rest ∧ Expr.Derives l (before ++ used) e := by
  have hstop : (∀ t ∈ ts.head?, l.binOp? t.text = none) →
      (l = .assignment → ∀ t ∈ ts.head?, t.text ≠ "=") →
      ∃ used, Token.texts ts = used ++ Token.texts rest ∧ Expr.Derives l (before ++ used) e := by
    intro hop hsign
    rw [readOperators_of_stop hop hsign] at h
    cases h
    exact ⟨[], rfl, by rwa [List.append_nil]⟩
  match ts, hts, h, hstop with
  | [], _, _, hstop => exact hstop (by simp) (by simp)
  | t :: ts, hts, h, hstop =>
    rw [List.length_cons] at hts
    cases hop : l.binOp? t.text with
    | some op =>
      rw [readOperators_of_binOp hop, bind_eq_ok_iff] at h
      obtain ⟨⟨rhs, ts₁⟩, hrhs, hops⟩ := h
      dsimp only at hops
      obtain ⟨used, htexts, hderives⟩ := hn (by omega) hrhs
      have hlength := length_le_of_texts htexts
      have hbinary := Expr.Derives.binary (Level.hasBinary_iff.mpr hop)
        (Level.next_iff.mpr ⟨hl, rfl⟩) hlhs hderives
      have hnot : l ≠ .assignment := by
        rintro rfl
        cases hop
      obtain ⟨used', htexts', hderives'⟩ := derives_of_readOperators hn (by omega) hl hbinary
        (fun heq => absurd heq hnot) hops
      refine ⟨t.text :: (used ++ used'), ?_, ?_⟩
      · rw [Token.texts_cons, htexts, htexts', List.cons_append, List.append_assoc]
      · simpa using hderives'
    | none =>
      by_cases hsign : l = .assignment ∧ t.text = "="
      · obtain ⟨rfl, ht⟩ := hsign
        rw [readOperators_of_assign ht, map_eq_ok_iff] at h
        obtain ⟨⟨rhs, ts₁⟩, hrhs, heq⟩ := h
        cases heq
        obtain ⟨used, htexts, hderives⟩ := hn (by omega) hrhs
        refine ⟨"=" :: used, ?_, .assign (hassign rfl) hderives⟩
        rw [Token.texts_cons, htexts, ht, List.cons_append]
      · exact hstop (by simpa using hop) (by simpa using hsign)
termination_by ts.length

theorem derives_of_readArgumentList (hn : ExprSound n) {ts rest : List Token} {es : List Expr}
    (hts : ts.length < n) (h : readArgumentList ts = .ok (es, rest)) :
    ∃ args : List (List String × Expr), args ≠ [] ∧ es = args.map Prod.snd ∧
      Token.texts ts = List.intercalate [","] (args.map Prod.fst) ++ ")" :: Token.texts rest ∧
      ∀ arg ∈ args, Expr.Derives .assignment arg.1 arg.2 := by
  rw [readArgumentList_eq, bind_eq_ok_iff] at h
  obtain ⟨⟨e, ts₁⟩, he, h⟩ := h
  obtain ⟨used, htexts, hderives⟩ := hn hts he
  have hlength := length_le_of_texts htexts
  cases ts₁ with
  | nil => cases h
  | cons t ts₂ =>
    rw [List.length_cons] at hlength
    dsimp only at h
    split at h
    · next hcomma =>
      obtain ⟨⟨more, ts₃⟩, hmore, heq⟩ := map_eq_ok_iff.mp h
      cases heq
      obtain ⟨args, hne, rfl, htexts', hall⟩ := derives_of_readArgumentList hn (by omega) hmore
      obtain ⟨arg, args, rfl⟩ := List.exists_cons_of_ne_nil hne
      refine ⟨(used, e) :: arg :: args, List.cons_ne_nil _ _, rfl, ?_, ?_⟩
      · simp [htexts, hcomma, htexts', List.intercalate_cons_cons]
      · intro a ha
        rcases List.mem_cons.mp ha with rfl | ha
        · exact hderives
        · exact hall a ha
    · obtain ⟨⟨⟨⟩, ts₃⟩, hclose, heq⟩ := map_eq_ok_iff.mp h
      cases heq
      obtain ⟨u, hu, hutext⟩ := of_readSymbol hclose
      cases hu
      refine ⟨[(used, e)], List.cons_ne_nil _ _, rfl, ?_, ?_⟩
      · simp [htexts, hutext]
      · simpa using hderives
termination_by ts.length

theorem derives_of_readArguments (hn : ExprSound n) {es : List Expr} (hts : ts.length < n)
    (h : readArguments ts = .ok (es, rest)) :
    ∃ args : List (List String × Expr), es = args.map Prod.snd ∧
      Token.texts ts = List.intercalate [","] (args.map Prod.fst) ++ ")" :: Token.texts rest ∧
      ∀ arg ∈ args, Expr.Derives .assignment arg.1 arg.2 := by
  rcases begins_or_not ")" ts with ⟨t, us, rfl, ht⟩ | hne
  · rw [readArguments_nil ht] at h
    cases h
    exact ⟨[], rfl, by simp [ht], by simp⟩
  · rw [readArguments_cons hne] at h
    obtain ⟨args, -, hargs⟩ := derives_of_readArgumentList hn hts h
    exact ⟨args, hargs⟩

theorem derives_of_readPrimary (hn : ExprSound n) (hts : ts.length ≤ n)
    (h : readExpr .primary ts = .ok (e, rest)) :
    ∃ used, Token.texts ts = used ++ Token.texts rest ∧ Expr.Derives .primary used e := by
  cases ts with
  | nil =>
    rw [readExpr_number (by simp) (by simp)] at h
    cases h
  | cons t ts =>
    rw [List.length_cons] at hts
    by_cases hb : t.text = "("
    · rw [readExpr_bracket hb, bind_eq_ok_iff] at h
      obtain ⟨⟨inner, ts₁⟩, hinner, h⟩ := h
      obtain ⟨⟨⟨⟩, ts₂⟩, hclose, heq⟩ := bind_eq_ok_iff.mp h
      cases heq
      obtain ⟨close, rfl, hclosetext⟩ := of_readSymbol hclose
      obtain ⟨used, htexts, hderives⟩ := hn (by omega) hinner
      refine ⟨"(" :: (used ++ [")"]), ?_, .brackets hderives⟩
      simp [hb, htexts, hclosetext]
    · by_cases hw : Token.isWord t.text
      · have hname := isIdentifier_iff.mpr hw
        rcases begins_or_not "(" ts with ⟨u, us, rfl, hu⟩ | hne
        · rw [List.length_cons] at hts
          rw [readExpr_call hw hu, bind_eq_ok_iff] at h
          obtain ⟨⟨es, ts₁⟩, hargs, h⟩ := h
          dsimp only at h
          by_cases harity : es.length ≤ maxArity
          · rw [if_pos harity] at h
            cases h
            obtain ⟨args, rfl, htexts, hall⟩ := derives_of_readArguments hn (by omega) hargs
            rw [List.length_map] at harity
            refine ⟨_, ?_, .call hname harity hall⟩
            simp [hu, htexts]
          · rw [if_neg harity] at h
            cases h
        · rw [readExpr_var hw hne] at h
          cases h
          exact ⟨[t.text], rfl, .var hname⟩
      · rw [readExpr_number (by simpa using hb) (by simpa using hw), map_eq_ok_iff] at h
        obtain ⟨⟨v, ts₁⟩, hv, heq⟩ := h
        cases heq
        obtain ⟨u, k, hu, hnumeral, hmax, rfl⟩ := of_readNumber hv
        cases hu
        exact ⟨[t.text], rfl, .num hnumeral hmax⟩

/-- One more token is allowed. Within it, the recursion goes to tighter levels. -/
theorem derives_of_readExpr_step (hn : ExprSound n) {l : Level} {ts rest : List Token} {e : Expr}
    (hts : ts.length ≤ n) (h : readExpr l ts = .ok (e, rest)) :
    ∃ used, Token.texts ts = used ++ Token.texts rest ∧ Expr.Derives l used e := by
  by_cases hl : l = .primary
  · subst hl
    exact derives_of_readPrimary hn hts h
  · have hrank := Level.rank_tighter_lt hl
    have hnext := Level.next_iff.mpr ⟨hl, rfl⟩
    have htighter : (∀ t ∈ ts.head?, l.unOp? t.text = none) →
        ∃ used, Token.texts ts = used ++ Token.texts rest ∧ Expr.Derives l used e := by
      intro hnone
      rw [readExpr_of_tighter hl hnone, bind_eq_ok_iff] at h
      obtain ⟨⟨lhs, ts₁⟩, hlhs, hops⟩ := h
      dsimp only at hops
      obtain ⟨used, htexts, hderives⟩ := derives_of_readExpr_step hn hts hlhs
      have hlength := length_le_of_texts htexts
      have hequality : l = .assignment → Expr.Derives .equality used lhs := by
        rintro rfl
        exact hderives
      obtain ⟨used', htexts', hderives'⟩ := derives_of_readOperators hn (by omega) hl
        (.next hnext hderives) hequality hops
      refine ⟨used ++ used', ?_, hderives'⟩
      rw [htexts, htexts', List.append_assoc]
    cases ts with
    | nil => exact htighter (by simp)
    | cons t ts =>
      cases hop : l.unOp? t.text with
      | none => exact htighter (by simpa using hop)
      | some op =>
        rw [readExpr_of_unOp hop, map_eq_ok_iff] at h
        obtain ⟨⟨operand, ts₁⟩, hoperand, heq⟩ := h
        cases heq
        obtain ⟨used, htexts, hderives⟩ := hn hts hoperand
        refine ⟨t.text :: used, ?_, .unary (Level.hasUnary_iff.mpr hop) hderives⟩
        rw [Token.texts_cons, htexts, List.cons_append]
termination_by l.rank

theorem exprSound (n : Nat) : ExprSound n := by
  induction n with
  | zero =>
    intro l ts rest e hts
    exact absurd hts (Nat.not_lt_zero _)
  | succ n ih =>
    intro l ts rest e hts h
    exact derives_of_readExpr_step ih (Nat.le_of_lt_succ hts) h

theorem derives_of_readExpr {l : Level} (h : readExpr l ts = .ok (e, rest)) :
    ∃ used, Token.texts ts = used ++ Token.texts rest ∧ Expr.Derives l used e :=
  exprSound _ (Nat.lt_succ_self _) h

end Expressions

section Clauses

variable {stop : String}

theorem derives_of_readTerminated (h : readTerminated stop ts = .ok (e, rest)) :
    ∃ used, Token.texts ts = used ++ stop :: Token.texts rest ∧
      Expr.Derives .assignment used e := by
  rw [readTerminated_eq, bind_eq_ok_iff] at h
  obtain ⟨⟨inner, ts₁⟩, hinner, h⟩ := h
  obtain ⟨⟨⟨⟩, ts₂⟩, hstop, heq⟩ := bind_eq_ok_iff.mp h
  cases heq
  obtain ⟨u, rfl, hu⟩ := of_readSymbol hstop
  obtain ⟨used, htexts, hderives⟩ := derives_of_readExpr hinner
  exact ⟨used, by simp [htexts, hu], hderives⟩

theorem derives_of_readClause (h : readClause stop ts = .ok (e, rest)) :
    ∃ used, Token.texts ts = used ++ stop :: Token.texts rest ∧ Expr.DerivesClause used e := by
  rcases begins_or_not stop ts with ⟨t, us, rfl, ht⟩ | hne
  · rw [readClause_empty ht] at h
    cases h
    exact ⟨[], by simp [ht], .empty⟩
  · rw [readClause_of_ne hne] at h
    obtain ⟨used, htexts, hderives⟩ := derives_of_readTerminated h
    exact ⟨used, htexts, .expression hderives⟩

theorem derives_of_readCondition (h : readCondition ts = .ok (e, rest)) :
    rest.length < ts.length ∧ ∃ used, Token.texts ts = "(" :: (used ++ ")" :: Token.texts rest) ∧
      Expr.Derives .assignment used e := by
  rw [readCondition_eq, bind_eq_ok_iff] at h
  obtain ⟨⟨⟨⟩, ts₁⟩, hopen, hinner⟩ := h
  obtain ⟨u, rfl, hu⟩ := of_readSymbol hopen
  obtain ⟨used, htexts, hderives⟩ := derives_of_readTerminated hinner
  have hlength := length_lt_of_texts_cons htexts
  exact ⟨Nat.lt_succ_of_lt hlength, used, by simp [htexts, hu], hderives⟩

end Clauses

section Statements

variable {n : Nat} {s : Stmt} {ss : List Stmt}

/-- Statements are sound in lists of less than `n` tokens. -/
def StmtSound (n : Nat) : Prop :=
  ∀ {ts rest : List Token} {s : Stmt}, ts.length < n → readStmt ts = .ok (s, rest) →
    ∃ used, Token.texts ts = used ++ Token.texts rest ∧
      Stmt.Derives (Token.texts rest).head? used s

theorem derives_of_readBlock (hn : StmtSound n) {ts rest : List Token} {ss : List Stmt}
    (hts : ts.length < n) (h : readBlock ts = .ok (ss, rest)) :
    ∃ used, Token.texts ts = used ++ "\x7d" :: Token.texts rest ∧
      Stmt.DerivesAll (some "\x7d") used ss := by
  cases ts with
  | nil =>
    rw [readBlock_nil] at h
    cases h
  | cons t ts =>
    by_cases ht : t.text = "\x7d"
    · rw [readBlock_end ht] at h
      cases h
      exact ⟨[], by simp [ht], .nil⟩
    · rw [readBlock_cons ht, bind_eq_ok_iff] at h
      obtain ⟨⟨s, ts₁⟩, hs, h⟩ := h
      obtain ⟨⟨more, ts₂⟩, hmore, heq⟩ := bind_eq_ok_iff.mp h
      cases heq
      obtain ⟨used, htexts, hderives⟩ := hn hts hs
      have hlength := length_lt_of_texts htexts hderives.ne_nil
      obtain ⟨used', htexts', hderives'⟩ := derives_of_readBlock hn (by omega) hmore
      refine ⟨used ++ used', by rw [htexts, htexts', List.append_assoc], .cons ?_ hderives'⟩
      rwa [htexts', List.head?_append] at hderives
termination_by ts.length

theorem derives_of_readStmt_expr (hopening : ∀ t ∈ ts.head?, Opening.ofText? t.text = none)
    (h : readStmt ts = .ok (s, rest)) :
    ∃ used, Token.texts ts = used ++ Token.texts rest ∧
      Stmt.Derives (Token.texts rest).head? used s := by
  rw [readStmt_expr hopening, map_eq_ok_iff] at h
  obtain ⟨⟨e, ts₁⟩, he, heq⟩ := h
  cases heq
  obtain ⟨used, htexts, hderives⟩ := derives_of_readTerminated he
  refine ⟨used ++ [";"], by simp [htexts], .expression hderives ?_⟩
  intro text htext
  obtain ⟨us, rfl⟩ := List.head?_eq_some_iff.mp htext
  obtain ⟨t, ts', rfl, rfl, -⟩ := List.map_eq_cons_iff.mp htexts
  exact (Opening.ofText?_eq_none_iff.mp (hopening t rfl)).2

theorem derives_of_readStmt_branch (hn : StmtSound n) (ht : t.text = "if") (hts : ts.length < n)
    (h : readStmt (t :: ts) = .ok (s, rest)) :
    ∃ used, Token.texts (t :: ts) = used ++ Token.texts rest ∧
      Stmt.Derives (Token.texts rest).head? used s := by
  rw [readStmt_branch (Opening.ofText?_eq_some_iff.mpr ht), bind_eq_ok_iff] at h
  obtain ⟨⟨cond, ts₁⟩, hcond, h⟩ := h
  obtain ⟨⟨body, ts₂⟩, hbody, h⟩ := bind_eq_ok_iff.mp h
  obtain ⟨hlength, cs, hcs, hcderives⟩ := derives_of_readCondition hcond
  obtain ⟨bs, hbs, hbderives⟩ := hn (by omega) hbody
  have hlength' := length_lt_of_texts hbs hbderives.ne_nil
  by_cases helse : ∃ u us, ts₂ = u :: us ∧ u.text = "else"
  · obtain ⟨u, us, rfl, hu⟩ := helse
    rw [List.length_cons] at hlength'
    dsimp only at h
    rw [if_pos hu] at h
    obtain ⟨⟨other, ts₃⟩, hother, heq⟩ := map_eq_ok_iff.mp h
    cases heq
    obtain ⟨os, hos, hoderives⟩ := hn (by omega) hother
    rw [Token.texts_cons, hu, List.head?_cons] at hbderives
    refine ⟨_, ?_, .ifElse hcderives hbderives hoderives⟩
    simp [ht, hcs, hbs, hu, hos]
  · have hne : (Token.texts ts₂).head? ≠ some "else" := by
      intro hhead
      obtain ⟨us, hus⟩ := List.head?_eq_some_iff.mp hhead
      obtain ⟨u, us', rfl, hu, -⟩ := List.map_eq_cons_iff.mp hus
      exact helse ⟨u, us', rfl, hu⟩
    have heq : s = .ifThen cond body ∧ rest = ts₂ := by
      cases ts₂ with
      | nil =>
        cases h
        exact ⟨rfl, rfl⟩
      | cons u us =>
        dsimp only at h
        rw [if_neg fun hu => helse ⟨u, us, rfl, hu⟩] at h
        cases h
        exact ⟨rfl, rfl⟩
    obtain ⟨rfl, rfl⟩ := heq
    refine ⟨_, ?_, .ifThen hcderives hbderives hne⟩
    simp [ht, hcs, hbs]

theorem derives_of_readStmt_forLoop (hn : StmtSound n) (ht : t.text = "for")
    (hts : ts.length < n) (h : readStmt (t :: ts) = .ok (s, rest)) :
    ∃ used, Token.texts (t :: ts) = used ++ Token.texts rest ∧
      Stmt.Derives (Token.texts rest).head? used s := by
  rw [readStmt_forLoop (Opening.ofText?_eq_some_iff.mpr ht), bind_eq_ok_iff] at h
  obtain ⟨⟨⟨⟩, ts₁⟩, hopen, h⟩ := h
  obtain ⟨⟨init, ts₂⟩, hinit, h⟩ := bind_eq_ok_iff.mp h
  obtain ⟨⟨cond, ts₃⟩, hcond, h⟩ := bind_eq_ok_iff.mp h
  obtain ⟨⟨step, ts₄⟩, hstep, h⟩ := bind_eq_ok_iff.mp h
  obtain ⟨⟨body, ts₅⟩, hbody, heq⟩ := bind_eq_ok_iff.mp h
  cases heq
  obtain ⟨u, rfl, hu⟩ := of_readSymbol hopen
  obtain ⟨as, has, haderives⟩ := derives_of_readClause hinit
  obtain ⟨cs, hcs, hcderives⟩ := derives_of_readClause hcond
  obtain ⟨bs, hbs, hbderives⟩ := derives_of_readClause hstep
  rw [List.length_cons] at hts
  have ha := length_lt_of_texts_cons has
  have hc := length_lt_of_texts_cons hcs
  have hb := length_lt_of_texts_cons hbs
  obtain ⟨ss, hss, hsderives⟩ := hn (by omega) hbody
  refine ⟨_, ?_, .forLoop haderives hcderives hbderives hsderives⟩
  simp [ht, hu, has, hcs, hbs, hss]

theorem derives_of_readStmt_step (hn : StmtSound n) (hts : ts.length ≤ n)
    (h : readStmt ts = .ok (s, rest)) :
    ∃ used, Token.texts ts = used ++ Token.texts rest ∧
      Stmt.Derives (Token.texts rest).head? used s := by
  cases ts with
  | nil => exact derives_of_readStmt_expr (by simp) h
  | cons t ts =>
    rw [List.length_cons] at hts
    cases ho : Opening.ofText? t.text with
    | none => exact derives_of_readStmt_expr (by simpa using ho) h
    | some o =>
      have ht := Opening.ofText?_eq_some_iff.mp ho
      cases o with
      | block =>
        rw [readStmt_block ho, map_eq_ok_iff] at h
        obtain ⟨⟨body, ts₁⟩, hbody, heq⟩ := h
        cases heq
        obtain ⟨used, htexts, hderives⟩ := derives_of_readBlock hn (by omega) hbody
        refine ⟨_, ?_, .block hderives⟩
        simp [ht, htexts, Opening.text]
      | ret =>
        rw [readStmt_ret ho, map_eq_ok_iff] at h
        obtain ⟨⟨e, ts₁⟩, he, heq⟩ := h
        cases heq
        obtain ⟨used, htexts, hderives⟩ := derives_of_readTerminated he
        refine ⟨_, ?_, .ret hderives⟩
        simp [ht, htexts, Opening.text]
      | branch => exact derives_of_readStmt_branch hn ht (by omega) h
      | forLoop => exact derives_of_readStmt_forLoop hn ht (by omega) h
      | whileLoop =>
        rw [readStmt_whileLoop ho, bind_eq_ok_iff] at h
        obtain ⟨⟨cond, ts₁⟩, hcond, h⟩ := h
        obtain ⟨⟨body, ts₂⟩, hbody, heq⟩ := bind_eq_ok_iff.mp h
        cases heq
        obtain ⟨hlength, cs, hcs, hcderives⟩ := derives_of_readCondition hcond
        obtain ⟨bs, hbs, hbderives⟩ := hn (by omega) hbody
        refine ⟨_, ?_, .whileLoop hcderives hbderives⟩
        simp [ht, hcs, hbs, Opening.text]

theorem stmtSound (n : Nat) : StmtSound n := by
  induction n with
  | zero =>
    intro ts rest s hts
    exact absurd hts (Nat.not_lt_zero _)
  | succ n ih =>
    intro ts rest s hts h
    exact derives_of_readStmt_step ih (Nat.le_of_lt_succ hts) h

end Statements

section Programs

theorem derives_of_readParameterList {ts rest : List Token} {params : List String}
    (h : readParameterList ts = .ok (params, rest)) :
    Token.texts ts = params.intersperse "," ++ ")" :: Token.texts rest ∧
      (∀ param ∈ params, IsIdentifier param) ∧ params ≠ [] := by
  rw [readParameterList_eq, bind_eq_ok_iff] at h
  obtain ⟨⟨t, ts₁⟩, ht, h⟩ := h
  obtain ⟨rfl, hname⟩ := of_readIdentifier ht
  cases ts₁ with
  | nil => cases h
  | cons u ts₂ =>
    dsimp only at h
    split at h
    · next hcomma =>
      obtain ⟨⟨more, ts₃⟩, hmore, heq⟩ := map_eq_ok_iff.mp h
      cases heq
      obtain ⟨htexts, hnames, hne⟩ := derives_of_readParameterList hmore
      obtain ⟨x, xs, rfl⟩ := List.exists_cons_of_ne_nil hne
      refine ⟨?_, ?_, List.cons_ne_nil _ _⟩
      · simp [hcomma, htexts]
      · simpa [hname] using hnames
    · obtain ⟨⟨⟨⟩, ts₃⟩, hclose, heq⟩ := map_eq_ok_iff.mp h
      cases heq
      obtain ⟨v, hv, hvtext⟩ := of_readSymbol hclose
      cases hv
      refine ⟨?_, ?_, List.cons_ne_nil _ _⟩
      · simp [hvtext]
      · simpa using hname
termination_by ts.length

theorem derives_of_readParameters {params : List String}
    (h : readParameters ts = .ok (params, rest)) :
    Token.texts ts = params.intersperse "," ++ ")" :: Token.texts rest ∧
      ∀ param ∈ params, IsIdentifier param := by
  rcases begins_or_not ")" ts with ⟨t, us, rfl, ht⟩ | hne
  · rw [readParameters_nil ht] at h
    cases h
    exact ⟨by simp [ht], by simp⟩
  · rw [readParameters_cons hne] at h
    obtain ⟨htexts, hnames, -⟩ := derives_of_readParameterList h
    exact ⟨htexts, hnames⟩

theorem derives_of_readFunction {f : Function} (h : readFunction ts = .ok (f, rest)) :
    ∃ used, Token.texts ts = used ++ Token.texts rest ∧ Function.Derives used f := by
  rw [readFunction_eq, bind_eq_ok_iff] at h
  obtain ⟨⟨name, ts₁⟩, hname, h⟩ := h
  obtain ⟨⟨⟨⟩, ts₂⟩, hopen, h⟩ := bind_eq_ok_iff.mp h
  obtain ⟨⟨params, ts₃⟩, hparams, h⟩ := bind_eq_ok_iff.mp h
  dsimp only at h
  by_cases harity : maxArity < params.length
  · rw [if_pos harity] at h
    cases h
  · rw [if_neg harity] at h
    obtain ⟨⟨⟨⟩, ts₄⟩, hbrace, h⟩ := bind_eq_ok_iff.mp h
    obtain ⟨⟨body, ts₅⟩, hbody, heq⟩ := bind_eq_ok_iff.mp h
    cases heq
    obtain ⟨rfl, hidentifier⟩ := of_readIdentifier hname
    obtain ⟨u, rfl, hu⟩ := of_readSymbol hopen
    obtain ⟨hptexts, hpnames⟩ := derives_of_readParameters hparams
    obtain ⟨v, rfl, hv⟩ := of_readSymbol hbrace
    obtain ⟨bs, hbs, hbderives⟩ :=
      derives_of_readBlock (stmtSound _) (Nat.lt_succ_self _) hbody
    refine ⟨_, ?_, .mk hidentifier hpnames (Nat.not_lt.mp harity) hbderives⟩
    simp [hu, hptexts, hv, hbs]

theorem derives_of_many_statement {ts : List Token} {ss : List Stmt}
    (h : Step.many Step.statement ts = .ok ss) : Stmt.DerivesAll none (Token.texts ts) ss := by
  cases ts with
  | nil =>
    rw [many_nil] at h
    cases h
    exact .nil
  | cons t ts =>
    rw [many_cons, bind_eq_ok_iff] at h
    obtain ⟨⟨s, ts₁⟩, hs, h⟩ := h
    obtain ⟨more, hmore, heq⟩ := bind_eq_ok_iff.mp h
    cases heq
    obtain ⟨used, htexts, hderives⟩ := stmtSound _ (Nat.lt_succ_self _) hs
    have hlength := length_lt_of_texts htexts hderives.ne_nil
    rw [htexts]
    refine .cons ?_ (derives_of_many_statement hmore)
    rwa [Option.or_none]
termination_by ts.length

theorem derives_of_many_function {ts : List Token} {fs : List Function}
    (h : Step.many Step.function ts = .ok fs) : Function.DerivesAll (Token.texts ts) fs := by
  cases ts with
  | nil =>
    rw [many_nil] at h
    cases h
    exact .nil
  | cons t ts =>
    rw [many_cons, bind_eq_ok_iff] at h
    obtain ⟨⟨f, ts₁⟩, hf, h⟩ := h
    obtain ⟨more, hmore, heq⟩ := bind_eq_ok_iff.mp h
    cases heq
    obtain ⟨used, htexts, hderives⟩ := derives_of_readFunction hf
    have hlength := length_lt_of_texts htexts hderives.ne_nil
    rw [htexts]
    exact .cons hderives (derives_of_many_function hmore)
termination_by ts.length

/-- A program that is parsed has a derivation from the texts of all tokens. -/
theorem derives_of_parse {dialect : Dialect} {p : Program} (h : parse dialect ts = .ok p) :
    Program.Derives dialect (Token.texts ts) p := by
  cases dialect with
  | expression =>
    rw [parse_expression, bind_eq_ok_iff] at h
    obtain ⟨⟨e, rest⟩, he, h⟩ := h
    cases rest with
    | nil =>
      cases h
      obtain ⟨used, htexts, hderives⟩ := derives_of_readExpr he
      rw [Token.texts_nil, List.append_nil] at htexts
      rw [htexts]
      exact .expression hderives
    | cons t rest => cases h
  | statements =>
    obtain ⟨body, hbody, heq⟩ := bind_eq_ok_iff.mp h
    cases heq
    exact .statements (derives_of_many_statement hbody)
  | functions => exact .functions (derives_of_many_function h)

end Programs

end MiniC
