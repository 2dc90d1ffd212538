import MiniC.Compile
import MiniC.Proofs.Except
import MiniC.Proofs.Printing.Readable
import MiniC.Proofs.Token.Lexeme

/-! More layout between tokens changes nothing but their places.

A source is its tokens with gaps before, between and after them. What follows a token matters to it
by one character only: in a gap that was empty before, that is a blank or a line feed, and none of
these makes a lexeme longer. -/
namespace MiniC
namespace Token

/-- Blanks and line feeds only. -/
def IsLayout (gap : List Char) : Prop :=
  ∀ c ∈ gap, isBlank c ∨ c = '\n'

/-- A source that consists of texts with gaps before, between and after them. -/
inductive Spread : List (List Char) → List String → List Char → Prop where
  | last {gap} : IsLayout gap → Spread [gap] [] gap
  | cons {gap gaps text ts cs} : IsLayout gap → Spread gaps ts cs →
      Spread (gap :: gaps) (text :: ts) (gap ++ (text.toList ++ cs))

/-- A token with its place after a text. -/
def movedAfter (before : List Char) (t : Token) : Token :=
  { t with line := endLine before, pos := endOffset before }

/-- Tokens with their places after a text, where gaps stand before and between them. -/
def movedAll : List Char → List (List Char) → List Token → List Token
  | before, gap :: gaps, t :: ts =>
    t.movedAfter (before ++ gap) :: movedAll (before ++ gap ++ t.text.toList) gaps ts
  | _, _, _ => []

section Longest

variable {kind : TokenKind} {text : String} {c : Char} {after after' gap cs : List Char}

theorem detached_of_isLayout (h : IsLayout (c :: gap)) (cs : List Char) :
    Detached (c :: gap ++ cs) := by
  have hc : (c = ' ' ∨ c = '\t') ∨ c = '\r' ∨ c = '\n' := by
    simpa [isBlank, or_assoc] using h c List.mem_cons_self
  refine detached_cons ?_ ?_ <;> rcases hc with (rfl | rfl) | rfl | rfl <;> decide

/-- A longer punctuator shows in the character after a lexeme. -/
theorem exists_equals_of_length_lt {p : String} (hne : text.toList ≠ []) (hp : p ∈ punctuators)
    (hbegins : p.toList <+: text.toList ++ after) (hlt : text.length < p.length) :
    after.head? = some '=' ∧ p.toList = text.toList ++ ['='] := by
  obtain ⟨c, tail, htext⟩ := List.exists_cons_of_ne_nil hne
  rw [← String.length_toList, ← String.length_toList] at hlt
  obtain ⟨more, hmore⟩ :=
    List.prefix_of_prefix_length_le (List.prefix_append _ after) hbegins hlt.le
  have htail := tail_of_mem_punctuators p hp
  rw [← hmore, htext, List.cons_append, List.tail_cons] at htail
  have hmoreNe : more ≠ [] := by
    rintro rfl
    rw [← hmore, List.append_nil] at hlt
    exact lt_irrefl _ hlt
  have hequals : more = ['='] := by
    rcases htail with h | h
    · exact absurd (List.append_eq_nil_iff.mp h).2 hmoreNe
    · rcases List.append_eq_singleton_iff.mp h with ⟨-, h⟩ | ⟨-, h⟩
      · exact h
      · exact absurd h hmoreNe
  subst hequals
  rw [← hmore, List.prefix_append_right_inj] at hbegins
  obtain ⟨rest, rfl⟩ := hbegins
  exact ⟨rfl, hmore.symm⟩

/-- Whether a lexeme is the longest is decided by the character that follows. -/
theorem Longest.congr (h : Longest kind text after)
    (hnext : after'.head? = after.head? ∨ Detached after') : Longest kind text after' := by
  have hword {good : Char → Bool} (hgood : ∀ d, good d → isWordRest d)
      (hafter : ∀ d ∈ after.head?, ¬ good d) : ∀ d ∈ after'.head?, ¬ good d := by
    intro d hd
    rcases hnext with hsame | hdetached
    · exact hafter d (hsame ▸ hd)
    · exact fun hg => Bool.false_ne_true ((hdetached d hd).1.symm.trans (hgood d hg))
  cases kind with
  | punctuator =>
    refine ⟨h.1, fun p hp hbegins => ?_⟩
    by_contra hlt
    obtain ⟨hhead, hlist⟩ :=
      exists_equals_of_length_lt h.isLexeme.chars.1 hp hbegins (Nat.lt_of_not_le hlt)
    rcases hnext with hsame | hdetached
    · obtain ⟨rest, rfl⟩ := List.head?_eq_some_iff.mp (hsame.symm.trans hhead)
      exact hlt (h.2 p hp (hlist ▸ by simp))
    · exact (hdetached '=' hhead).2 rfl
  | number => exact ⟨h.1, h.2.1, hword (fun d => isWordRest_of_isDigit) h.2.2⟩
  | word =>
    refine ⟨h.1, ?_⟩
    have hafter : ∀ d ∈ after.head?, ¬ isWordRest d := by simpa [isWordRest] using h.2
    simpa [isWordRest] using hword (fun d => id) hafter

end Longest

section Scan

variable {before : List Char} {gap gaps cs : List Char} {t : Token} {ts : List Token}

theorem scanAfter_gap (h : IsLayout gap) (before cs : List Char) :
    scanAfter before (gap ++ cs) = scanAfter (before ++ gap) cs := by
  induction gap generalizing before with
  | nil => simp
  | cons c gap ih =>
    obtain ⟨hc, hgap⟩ := List.forall_mem_cons.mp h
    rw [List.cons_append, scanAfter, if_pos (by simpa using hc), ih hgap, List.append_assoc]
    rfl

theorem scanAfter_text (h : Longest t.kind t.text cs) :
    scanAfter before (t.text.toList ++ cs) = do
      return t.movedAfter before :: (← scanAfter (before ++ t.text.toList) cs) := by
  obtain ⟨hne, hchars⟩ := h.isLexeme.chars
  obtain ⟨c, tail, htext⟩ := List.exists_cons_of_ne_nil hne
  have hlist : t.text = String.ofList (c :: tail) := by rw [← htext, String.ofList_toList]
  have hskip : ¬ (isBlank c || c = '\n') := by
    simpa using hchars c (htext ▸ List.mem_cons_self)
  rw [hlist] at h
  rw [htext, List.cons_append, scanAfter, if_neg hskip, lexeme?_of_longest h]
  simp only [List.drop_left, ← hlist]
  rfl

/-- Where a scan begins, there is a gap, and after it the first token. -/
theorem exists_gap_of_scanAfter (h : scanAfter before cs = .ok (t :: ts)) :
    ∃ gap after, IsLayout gap ∧ cs = gap ++ (t.text.toList ++ after) ∧
      Longest t.kind t.text after ∧
      scanAfter (before ++ gap ++ t.text.toList) after = .ok ts := by
  fun_induction scanAfter before cs with
  | case1 => cases h
  | case2 before c cs hskip ih =>
    obtain ⟨gap, after, hgap, rfl, hlongest, hrest⟩ := ih h
    have hlayout : IsLayout (c :: gap) := List.forall_mem_cons.mpr ⟨by simpa using hskip, hgap⟩
    exact ⟨c :: gap, after, hlayout, rfl, hlongest, by simpa using hrest⟩
  | case3 => cases h
  | case4 before c cs hskip kind tail hsome token =>
    obtain ⟨rest, hrest, heq⟩ := bind_eq_ok_iff.mp h
    obtain ⟨rfl, rfl⟩ := List.cons.inj (pure_eq_ok_iff.mp heq)
    obtain ⟨after, rfl, hlongest⟩ := lexeme?_eq_some_iff.mp hsome
    rw [List.drop_left] at hrest
    refine ⟨[], after, List.forall_mem_nil _, ?_, hlongest, ?_⟩
    · simp [token]
    · simpa [token] using hrest

theorem isLayout_of_scanAfter (h : scanAfter before cs = .ok []) : IsLayout cs := by
  fun_induction scanAfter before cs with
  | case1 => exact List.forall_mem_nil _
  | case2 before c cs hskip ih => exact List.forall_mem_cons.mpr ⟨by simpa using hskip, ih h⟩
  | case3 => cases h
  | case4 before c cs hskip kind tail hsome token =>
    obtain ⟨rest, -, heq⟩ := bind_eq_ok_iff.mp h
    cases heq

theorem text_ne_nil_of_scanAfter (h : scanAfter before cs = .ok ts) :
    ∀ text ∈ texts ts, text.toList ≠ [] := by
  induction ts generalizing before cs with
  | nil => exact List.forall_mem_nil _
  | cons t ts ih =>
    obtain ⟨gap, after, -, -, hlongest, hrest⟩ := exists_gap_of_scanAfter h
    exact List.forall_mem_cons.mpr ⟨hlongest.isLexeme.chars.1, ih hrest⟩

theorem exists_spread_of_scanAfter (h : scanAfter before cs = .ok ts) :
    ∃ gaps, Spread gaps (texts ts) cs := by
  induction ts generalizing before cs with
  | nil => exact ⟨[cs], .last (isLayout_of_scanAfter h)⟩
  | cons t ts ih =>
    obtain ⟨gap, after, hgap, rfl, -, hrest⟩ := exists_gap_of_scanAfter h
    obtain ⟨gaps, hgaps⟩ := ih hrest
    exact ⟨gap :: gaps, .cons hgap hgaps⟩

/-- Only one gap stands before a lexeme. -/
theorem eq_of_gap {gap gap' after rest rest' : List Char} (ht : Longest t.kind t.text after)
    (hgap : IsLayout gap) (hgap' : IsLayout gap')
    (h : gap ++ (t.text.toList ++ rest) = gap' ++ (t.text.toList ++ rest')) :
    gap = gap' ∧ t.text.toList ++ rest = t.text.toList ++ rest' := by
  obtain ⟨hne, hchars⟩ := ht.isLexeme.chars
  obtain ⟨c, tail, htext⟩ := List.exists_cons_of_ne_nil hne
  have hopens (more : List Char) :
      Opens (fun c => (isBlank c || c = '\n') = false) (t.text.toList ++ more) := by
    rw [htext]
    exact opens_cons.mpr (by simpa using hchars c (htext ▸ List.mem_cons_self))
  refine append_inj_of_boundary (fun c hc => ?_) (fun c hc => ?_) (hopens rest) (hopens rest') h
  · simpa using hgap c hc
  · simpa using hgap' c hc

end Scan

section Widening

variable {gaps gaps' : List (List Char)} {ts : List String} {tokens : List Token}
  {before before' cs cs' : List Char}

/-- What begins a wider spread is what began the narrower one, or layout. -/
theorem Spread.head?_eq_or (hwide : List.Forall₂ List.Sublist gaps gaps') (h : Spread gaps ts cs)
    (h' : Spread gaps' ts cs') (hts : ∀ text ∈ ts, text.toList ≠ []) :
    cs'.head? = cs.head? ∨ Detached cs' := by
  cases hwide with
  | nil => cases h
  | @cons gap gap' gaps gaps' hsub _ =>
    cases gap' with
    | cons c gap' =>
      refine .inr ?_
      cases h' with
      | last hgap => simpa using detached_of_isLayout hgap []
      | cons hgap _ => exact detached_of_isLayout hgap _
    | nil =>
      obtain rfl := List.sublist_nil.mp hsub
      refine .inl ?_
      cases h with
      | last => cases h' with | last => rfl
      | @cons _ _ text _ _ _ _ =>
        cases h' with
        | cons =>
          obtain ⟨c, tail, htext⟩ := List.exists_cons_of_ne_nil (hts text List.mem_cons_self)
          simp [htext]

/-- A scan of more widely spread texts finds the same tokens at other places. -/
theorem scanAfter_widened (hwide : List.Forall₂ List.Sublist gaps gaps')
    (h : Spread gaps (texts tokens) cs) (h' : Spread gaps' (texts tokens) cs')
    (hscan : scanAfter before cs = .ok tokens) :
    scanAfter before' cs' = .ok (movedAll before' gaps' tokens) := by
  induction hwide generalizing tokens cs cs' before before' with
  | nil => cases h
  | @cons gap gap' gaps gaps' hsub hwide ih =>
    cases tokens with
    | nil =>
      cases h' with
      | last hgap =>
        have hskip := scanAfter_gap hgap before' []
        rw [List.append_nil, scanAfter] at hskip
        exact hskip
    | cons t tokens =>
      cases h with
      | @cons _ _ _ _ rest hgap h =>
      cases h' with
      | @cons _ _ _ _ rest' hgap' h' =>
      obtain ⟨between, after, hbetween, hsplit, hlongest, hscan⟩ := exists_gap_of_scanAfter hscan
      obtain ⟨rfl, hsame⟩ := eq_of_gap hlongest hgap hbetween hsplit
      obtain rfl := List.append_cancel_left hsame
      have hnext := h.head?_eq_or hwide h' (text_ne_nil_of_scanAfter hscan)
      rw [scanAfter_gap hgap', scanAfter_text (hlongest.congr hnext), ih h h' hscan]
      rfl

/-- Only places change. -/
theorem lexemes_movedAll (h : Spread gaps (texts tokens) cs) (before : List Char) :
    (movedAll before gaps tokens).map (fun t => (t.kind, t.text)) =
      tokens.map fun t => (t.kind, t.text) := by
  induction tokens generalizing gaps cs before with
  | nil => cases h with | last => rfl
  | cons t tokens ih =>
    cases h with
    | cons hgap h => exact congrArg ((t.kind, t.text) :: ·) (ih h _)

end Widening

end Token

/-- A source is its tokens, each at its place, with gaps of blanks and line feeds around them. The
tokens stay the same when more of these are inserted before them, after them, or between two of
them, and each has its place after the text that then stands before it. -/
theorem tokenize_widened {source : String} {tokens : List Token}
    (h : tokenize source = .ok tokens) :
    (∃ gaps, Token.Spread gaps (Token.texts tokens) source.toList ∧
      tokens = Token.movedAll [] gaps tokens) ∧
    ∀ gaps gaps' source', Token.Spread gaps (Token.texts tokens) source.toList →
      List.Forall₂ List.Sublist gaps gaps' →
      Token.Spread gaps' (Token.texts tokens) source'.toList →
      ∃ tokens', tokenize source' = .ok tokens' ∧
        tokens'.map (fun t => (t.kind, t.text)) = tokens.map (fun t => (t.kind, t.text)) ∧
        tokens' = Token.movedAll [] gaps' tokens := by
  have hscan := mapError_eq_ok_iff.mp h
  rw [Token.scan_eq_scanAfter] at hscan
  obtain ⟨gaps, hgaps⟩ := Token.exists_spread_of_scanAfter hscan
  have hrefl : List.Forall₂ List.Sublist gaps gaps :=
    List.forall₂_same.mpr fun gap _ => List.Sublist.refl gap
  have hsame : Token.scanAfter [] source.toList = .ok (Token.movedAll [] gaps tokens) :=
    Token.scanAfter_widened hrefl hgaps hgaps hscan
  refine ⟨⟨gaps, hgaps, Except.ok.inj (hscan.symm.trans hsame)⟩,
    fun gaps gaps' source' hgaps hwide hgaps' =>
      ⟨_, ?_, Token.lexemes_movedAll hgaps' [], rfl⟩⟩
  rw [tokenize, Token.scan_eq_scanAfter, Token.scanAfter_widened hwide hgaps hgaps' hscan]
  rfl

/-- Layout comes between `<=` and the sign after it, where no blank stood, and the line feed that
stood before `c` gets more on both sides. -/
theorem comparison_widened :
    ∃ tokens tokens', tokenize "a<=-1;\nc" = .ok tokens ∧
      tokenize "\n a<=\t-1 ;\r\n  c\n" = .ok tokens' ∧
      tokens'.map (fun t => (t.kind, t.text)) = tokens.map (fun t => (t.kind, t.text)) ∧
      tokens'.map (fun t => (t.line, t.pos)) =
        [(1, 1), (1, 2), (1, 5), (1, 6), (1, 8), (2, 2)] := by
  let gaps : List (List Char) := [[], [], [], [], [], ['\n'], []]
  let gaps' : List (List Char) :=
    [['\n', ' '], [], ['\t'], [], [' '], ['\r', '\n', ' ', ' '], ['\n']]
  have h : ∃ tokens, tokenize "a<=-1;\nc" = .ok tokens ∧
      Token.texts tokens = ["a", "<=", "-", "1", ";", "c"] ∧
      (Token.movedAll [] gaps' tokens).map (fun t => (t.line, t.pos)) =
        [(1, 1), (1, 2), (1, 5), (1, 6), (1, 8), (2, 2)] := ⟨_, by cbv, by cbv, by cbv⟩
  obtain ⟨tokens, htokens, htexts, hplaces⟩ := h
  have hgaps : Token.Spread gaps (Token.texts tokens) "a<=-1;\nc".toList := by
    rw [htexts]
    refine .cons ?_ (.cons ?_ (.cons ?_ (.cons ?_ (.cons ?_ (.cons ?_ (.last ?_))))))
    all_goals simp [Token.IsLayout, Token.isBlank]
  have hgaps' : Token.Spread gaps' (Token.texts tokens) "\n a<=\t-1 ;\r\n  c\n".toList := by
    rw [htexts]
    refine .cons ?_ (.cons ?_ (.cons ?_ (.cons ?_ (.cons ?_ (.cons ?_ (.last ?_))))))
    all_goals simp [Token.IsLayout, Token.isBlank]
  have hwide : List.Forall₂ List.Sublist gaps gaps' := by
    simp [gaps, gaps']
  obtain ⟨tokens', htokens', hlexemes, rfl⟩ :=
    (tokenize_widened htokens).2 gaps gaps' _ hgaps hwide hgaps'
  exact ⟨tokens, _, htokens, htokens', hlexemes, hplaces⟩

end MiniC
