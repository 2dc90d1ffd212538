import MiniC.Proofs.Except
import MiniC.Proofs.Grammar.Derivation
import MiniC.Token.Scan

/-! Lexemes with spaces between them are scanned as they are. -/
namespace MiniC.Token

/-- Texts that the scanner makes tokens of. -/
def IsLexeme (text : String) : Prop :=
  text ∈ punctuators ∨ IsIdentifier text ∨ ∃ n, IsNumeral text n

/-- What may follow a lexeme: a space, or nothing. -/
def Separated (rest : List Char) : Prop :=
  ∀ c ∈ rest.head?, c = ' '

variable {text : String} {c : Char} {cs rest : List Char}

theorem lexeme?_of_punctuator (h : text ∈ punctuators) (hs : Separated rest)
    (htext : text.toList = c :: cs) : lexeme? c (cs ++ rest) = some (.punctuator, cs) := by
  have hrest : rest = [] ∨ ∃ more, rest = ' ' :: more := by
    cases rest with
    | nil => exact .inl rfl
    | cons d more => exact .inr ⟨more, by rw [hs d rfl]⟩
  simp only [punctuators, List.mem_cons, List.not_mem_nil, or_false] at h
  rcases hrest with rfl | ⟨more, rfl⟩
  · rcases h with rfl | rfl | rfl | rfl | rfl | rfl | rfl | rfl | rfl | rfl | rfl | rfl | rfl |
      rfl | rfl | rfl | rfl | rfl
    all_goals
      simp at htext
      obtain ⟨rfl, rfl⟩ := htext
      simp [lexeme?, punctuators]
  · rcases h with rfl | rfl | rfl | rfl | rfl | rfl | rfl | rfl | rfl | rfl | rfl | rfl | rfl |
      rfl | rfl | rfl | rfl | rfl
    all_goals
      simp at htext
      obtain ⟨rfl, rfl⟩ := htext
      simp [lexeme?, punctuators]

/-- No punctuator begins like a word or a number. -/
theorem find?_punctuators_eq_none (h : isWordRest c) :
    (punctuators.find? fun p => p.toList.isPrefixOf (c :: cs)) = none := by
  rw [List.find?_eq_none]
  intro p hp hprefix
  have hall : ∀ p ∈ punctuators, p.toList.head?.map isWordRest = some false := by decide
  have hfirst := hall p hp
  cases hlist : p.toList with
  | nil => simp [hlist] at hfirst
  | cons d ds =>
    rw [hlist] at hfirst hprefix
    obtain ⟨rfl, -⟩ : d = c ∧ _ := by simpa using hprefix
    simp [h] at hfirst

theorem takeWhile_append_of_separated {good : Char → Bool} (hcs : ∀ d ∈ cs, good d)
    (hspace : good ' ' = false) (hs : Separated rest) :
    (cs ++ rest).takeWhile good = cs := by
  rw [List.takeWhile_append_of_pos hcs]
  cases rest with
  | nil => simp
  | cons d more =>
    obtain rfl := hs d rfl
    simp [hspace]

theorem isWordRest_of_isWordStart (h : isWordStart c) : isWordRest c := by
  simp only [isWordStart, isWordRest, Char.isAlphanum, Bool.or_eq_true] at h ⊢
  rcases h with h | h
  · exact .inl (.inl h)
  · exact .inr h

theorem exists_wordStart {text : String} (h : isWord text) :
    ∃ c cs, text.toList = c :: cs ∧ isWordStart c ∧ ∀ d ∈ cs, isWordRest d := by
  unfold isWord at h
  split at h
  · cases h
  · next c cs hcs =>
    rw [Bool.and_eq_true, List.all_eq_true] at h
    exact ⟨c, cs, hcs, h.1, h.2⟩

theorem isWordRest_of_mem {text : String} (h : isWord text) : ∀ c ∈ text.toList, isWordRest c := by
  obtain ⟨c, cs, hcs, hstart, hrest⟩ := exists_wordStart h
  rw [hcs]
  exact List.forall_mem_cons.mpr ⟨isWordRest_of_isWordStart hstart, hrest⟩

theorem isWordRest_of_isDigit (h : c.isDigit) : isWordRest c := by
  simp [isWordRest, Char.isAlphanum, h]

theorem not_isDigit_of_isWordStart (h : isWordStart c) : c.isDigit = false := by
  rw [Bool.eq_false_iff]
  intro hdigit
  rw [not_isWordStart_of_isDigit hdigit] at h
  cases h

theorem lexeme?_of_isLexeme (h : IsLexeme text) (hs : Separated rest)
    (htext : text.toList = c :: cs) : ∃ kind, lexeme? c (cs ++ rest) = some (kind, cs) := by
  rcases h with h | h | ⟨n, h⟩
  · exact ⟨_, lexeme?_of_punctuator h hs htext⟩
  · obtain ⟨c', cs', htext', hstart, hall⟩ := h
    obtain ⟨rfl, rfl⟩ := List.cons.inj (htext.symm.trans htext')
    have hstart' : isWordStart c := by simpa [isWordStart] using hstart
    have hall' : ∀ d ∈ cs, isWordRest d := fun d hd => by simpa [isWordRest] using hall d hd
    refine ⟨.word, ?_⟩
    rw [lexeme?, find?_punctuators_eq_none (isWordRest_of_isWordStart hstart')]
    simp only [not_isDigit_of_isWordStart hstart', hstart', if_true,
      takeWhile_append_of_separated hall' (by decide) hs]
    rfl
  · obtain ⟨-, hdigits, -⟩ := h
    rw [htext] at hdigits
    obtain ⟨hc, hcs⟩ := List.forall_mem_cons.mp hdigits
    refine ⟨.number, ?_⟩
    rw [lexeme?, find?_punctuators_eq_none (isWordRest_of_isDigit hc)]
    simp only [hc, if_true, takeWhile_append_of_separated hcs (by decide) hs]

/-- Lexemes hold no blanks and no line feeds. -/
theorem IsLexeme.chars (h : IsLexeme text) :
    text.toList ≠ [] ∧ ∀ d ∈ text.toList, isBlank d = false ∧ d ≠ '\n' := by
  have hword : ∀ d, isWordRest d → isBlank d = false ∧ d ≠ '\n' := by
    intro d hd
    constructor
    · rw [Bool.eq_false_iff]
      intro hblank
      simp only [isBlank, Bool.or_eq_true, decide_eq_true_eq] at hblank
      rcases hblank with (rfl | rfl) | rfl <;> exact absurd hd (by decide)
    · rintro rfl
      exact absurd hd (by decide)
  rcases h with h | ⟨c, cs, htext, hstart, hall⟩ | ⟨n, hne, hdigits, -⟩
  · have hall : punctuators.all fun p => p.toList ≠ [] &&
        p.toList.all fun d => !isBlank d && d ≠ '\n' := by decide
    simpa using List.all_eq_true.mp hall text h
  · rw [htext]
    refine ⟨List.cons_ne_nil _ _, List.forall_mem_cons.mpr ⟨?_, fun d hd => ?_⟩⟩
    · exact hword c (isWordRest_of_isWordStart (by simpa [isWordStart] using hstart))
    · exact hword d (by simpa [isWordRest] using hall d hd)
  · refine ⟨by simpa using hne, fun d hd => ?_⟩
    exact hword d (isWordRest_of_isDigit (hdigits d hd))

theorem scanLine_of_isLexeme (h : IsLexeme text) (hs : Separated rest) (line pos : Nat) :
    ∃ token, token.text = text ∧ scanLine line pos (text.toList ++ rest) =
      (scanLine line token.stop rest).map fun tokens => token :: tokens := by
  obtain ⟨hne, hchars⟩ := h.chars
  obtain ⟨c, cs, htext⟩ := List.exists_cons_of_ne_nil hne
  obtain ⟨kind, hlexeme⟩ := lexeme?_of_isLexeme h hs htext
  have hblank := (hchars c (by simp [htext])).1
  have hlist : String.ofList (c :: cs) = text := by rw [← htext, String.ofList_toList]
  refine ⟨⟨kind, text, line, pos⟩, rfl, ?_⟩
  rw [htext, List.cons_append, scanLine, hblank, hlexeme]
  simp only [hlist, List.drop_left, Bool.false_eq_true, if_false]
  cases scanLine line (Token.stop ⟨kind, text, line, pos⟩) rest <;> rfl

/-- A line of lexemes with a space between them is cut into these lexemes. -/
theorem scanLine_intercalate {texts : List String} (h : ∀ text ∈ texts, IsLexeme text)
    (line pos : Nat) :
    ∃ tokens, scanLine line pos (List.intercalate [' '] (texts.map String.toList)) = .ok tokens ∧
      Token.texts tokens = texts := by
  induction texts generalizing pos with
  | nil => exact ⟨[], by rw [List.map_nil, List.intercalate_nil, scanLine], rfl⟩
  | cons text texts ih =>
    obtain ⟨htext, htexts⟩ := List.forall_mem_cons.mp h
    cases texts with
    | nil =>
      have hs : Separated [] := by simp [Separated]
      obtain ⟨token, rfl, hscan⟩ := scanLine_of_isLexeme htext hs line pos
      rw [List.append_nil, scanLine] at hscan
      refine ⟨[token], ?_, rfl⟩
      rw [List.map_singleton, List.intercalate_singleton]
      exact hscan
    | cons text' texts =>
      let more := List.intercalate [' '] ((text' :: texts).map String.toList)
      have hs : Separated (' ' :: more) := by simp [Separated]
      obtain ⟨token, rfl, hscan⟩ := scanLine_of_isLexeme htext hs line pos
      obtain ⟨tokens, htokens, htexts'⟩ := ih htexts (token.stop + ' '.utf8Size)
      have hspace : scanLine line token.stop (' ' :: more) = .ok tokens := by
        rw [scanLine, if_pos (by decide)]
        exact htokens
      refine ⟨token :: tokens, ?_, by rw [Token.texts_cons, htexts']⟩
      rw [List.map_cons, List.map_cons, List.intercalate_cons_cons, List.append_assoc]
      rw [hspace] at hscan
      exact hscan

theorem lineChars_of_not_mem {cs : List Char} (h : '\n' ∉ cs) : Source.lineChars cs = [cs] := by
  induction cs with
  | nil => rfl
  | cons c cs ih =>
    obtain ⟨hc, hcs⟩ := not_or.mp (mt List.mem_cons.mpr h)
    rw [Source.lineChars, if_neg (Ne.symm hc), ih hcs]
    rfl

theorem not_mem_intercalate {lines : List (List Char)} (hs : c ∉ cs)
    (h : ∀ line ∈ lines, c ∉ line) : c ∉ List.intercalate cs lines := by
  induction lines with
  | nil => simp
  | cons line lines ih =>
    obtain ⟨hline, hlines⟩ := List.forall_mem_cons.mp h
    cases lines with
    | nil => simpa using hline
    | cons line' lines =>
      rw [List.intercalate_cons_cons]
      simp only [List.mem_append, not_or]
      exact ⟨⟨hline, hs⟩, ih hlines⟩

theorem scan_intercalate {texts : List String} (h : ∀ text ∈ texts, IsLexeme text) :
    ∃ tokens, scan (String.intercalate " " texts) = .ok tokens ∧ Token.texts tokens = texts := by
  have hlist : (String.intercalate " " texts).toList =
      List.intercalate [' '] (texts.map String.toList) := by
    simp
  have hline : '\n' ∉ List.intercalate [' '] (texts.map String.toList) := by
    refine not_mem_intercalate (by decide) (List.forall_mem_map.mpr fun text htext hmem => ?_)
    exact ((h text htext).chars.2 _ hmem).2 rfl
  obtain ⟨tokens, htokens, htexts⟩ := scanLine_intercalate h 0 0
  refine ⟨tokens, ?_, htexts⟩
  rw [scan, hlist, lineChars_of_not_mem hline]
  simp only [scanLines, htokens]
  simp [bind, Except.bind, pure, Except.pure]

end MiniC.Token
