import MiniC.Proofs.Grammar.Relabel
import MiniC.Proofs.Token.Fault

/-! Where grammar errors point in the source of the tokens.

An error is about a token that was read, or about their end. Its message tells the two apart. The
lines of a source that has tokens hold single-byte characters only, so that the byte offsets of the
tokens are columns. -/
namespace MiniC

namespace GrammarError

/-- The message ends with the words for an input that was too short. -/
def SaysEndOfInput (e : GrammarError) : Prop :=
  "but reached end of input".toList <:+ e.message.toList

/-- The message has a text between double quotes. -/
def Quotes (e : GrammarError) (text : String) : Prop :=
  (quoted text).toList <:+: e.message.toList

variable {e : GrammarError} {t : Token}

theorem message_of_culprit (h : e.culprit = some t) :
    ∃ front back, e.message = front ++ (quoted t.text ++ back) ∧
      back.toList.getLast? ≠ some 't' := by
  cases e with
  | expected what found =>
    cases h
    refine ⟨"expected " ++ what.describe ++ ", but got ", "", ?_, by decide⟩
    rw [String.append_empty]
    rfl
  | emptyNumber literal =>
    cases h
    exact ⟨_, _, String.append_assoc .., by decide⟩
  | numberTooLarge literal =>
    cases h
    exact ⟨_, _, String.append_assoc .., by decide⟩
  | tooManyArguments callee =>
    cases h
    refine ⟨"too many arguments in call to ", " (at most " ++ toString maxArity ++ ")", ?_,
      by decide⟩
    dsimp only [message]
    simp only [String.append_assoc]
  | tooManyParameters function =>
    cases h
    refine ⟨"too many parameters in ", " (at most " ++ toString maxArity ++ ")", ?_, by decide⟩
    dsimp only [message]
    simp only [String.append_assoc]
  | leftover token =>
    cases h
    refine ⟨"extra characters: ", "", ?_, by decide⟩
    rw [String.append_empty]
    rfl

theorem quotes_culprit (h : e.culprit = some t) : e.Quotes t.text := by
  obtain ⟨front, back, hmessage, -⟩ := message_of_culprit h
  rw [Quotes, hmessage, String.toList_append, String.toList_append]
  exact List.infix_append' _ _ _

theorem saysEndOfInput_iff : e.SaysEndOfInput ↔ e.culprit = none := by
  constructor
  · rintro ⟨front, hfront⟩
    by_contra hne
    obtain ⟨t, ht⟩ := Option.ne_none_iff_exists'.mp hne
    obtain ⟨before, back, hmessage, hback⟩ := message_of_culprit ht
    have hlast : e.message.toList.getLast? = some 't' := by
      rw [← hfront, List.getLast?_append]
      rfl
    -- with a token quoted, the last character is a quotation mark or that of the words after it
    rw [hmessage, String.toList_append, String.toList_append, quoted, String.toList_append,
      List.getLast?_append, List.getLast?_append, List.getLast?_append] at hlast
    cases hend : back.toList.getLast? with
    | none => simp [hend] at hlast
    | some c => simp_all
  · intro h
    cases e with
    | expected what found =>
      obtain rfl : found = none := h
      refine ⟨("expected " ++ what.describe ++ ", ").toList, ?_⟩
      dsimp only [message]
      rw [← String.toList_append, String.append_assoc]
      rfl
    | _ => cases h

end GrammarError

/-- An excerpt shows a line of a source, with the caret under one of the columns. -/
def Excerpt.PointsAt (place : Excerpt) (source : String) (i column : Nat) : Prop :=
  ∃ line, (Source.lineChars source.toList)[i]? = some line ∧ ShownAs line place.line.toList ∧
    place.marker = String.ofList (List.replicate column ' ' ++ ['^'])

section Columns

open Token (IsSourceChar)

variable {source : String} {i : Nat} {line cs : List Char} {c : Char} {t : Token}

theorem utf8Size_of_isSourceChar (h : IsSourceChar c) : c.utf8Size = 1 := by
  rw [Char.utf8Size_eq_one_iff]
  rcases h with rfl | rfl | rfl | h | h | rfl | h
  · decide
  · decide
  · decide
  · simp only [Char.isAlpha, Char.isUpper, Char.isLower, Bool.or_eq_true, Bool.and_eq_true,
      decide_eq_true_eq] at h
    rcases h with ⟨-, h⟩ | ⟨-, h⟩
    · exact UInt32.le_trans h (by decide)
    · exact UInt32.le_trans h (by decide)
  · simp only [Char.isDigit, Bool.and_eq_true, decide_eq_true_eq] at h
    exact UInt32.le_trans h.2 (by decide)
  · decide
  · have hsymbols : ∀ d ∈ Token.symbols, d.val ≤ 127 := by simp [Token.symbols]
    exact hsymbols c h

theorem byteLength_eq_length (h : ∀ c ∈ cs, IsSourceChar c) : byteLength cs = cs.length := by
  induction cs with
  | nil => rfl
  | cons c cs ih =>
    obtain ⟨hc, hcs⟩ := List.forall_mem_cons.mp h
    rw [byteLength_cons, utf8Size_of_isSourceChar hc, ih hcs, List.length_cons, Nat.add_comm]

theorem isSourceChar_of_scanLines {lines : List (List Char)} {tokens : List Token}
    (h : Token.scanLines i lines = .ok tokens) (hline : line ∈ lines) :
    ∀ c ∈ line, IsSourceChar c := by
  intro c hc
  obtain ⟨n, hn⟩ := List.getElem?_of_mem hc
  by_contra hnot
  exact Token.not_faultAt_of_scanLines h line hline n ⟨c, hn, .inl hnot⟩

/-- The excerpt for an offset of a line shows what stands there, where the carriage returns at the
end of the line come later. -/
theorem pointsAt_ofOffset (before mid after : List Char)
    (hline : (Source.lineChars source.toList)[i]? = some (before ++ (mid ++ after)))
    (hchars : ∀ c ∈ before, IsSourceChar c) (h : (before ++ mid).getLast? ≠ some '\r') :
    (Excerpt.ofOffset (Source.line source i) (byteLength before)).PointsAt source i
        (byteLength before) ∧
      mid <+: (Excerpt.ofOffset (Source.line source i) (byteLength before)).line.toList.drop
        (byteLength before) := by
  have hplace := ofOffset_byteLength before mid after h
  rw [Source.line_of_getElem? hline]
  refine ⟨⟨_, hline, shownAs_ofOffset _ _, ?_⟩, ?_⟩
  · rw [hplace, Excerpt.marker, byteLength_eq_length hchars]
  · rw [hplace, byteLength_eq_length hchars, String.toList_ofList, List.drop_left]
    exact List.prefix_append mid _

/-- A token does not end in a carriage return. -/
theorem getLast?_append_text (before : List Char) (h : Token.IsLexeme t.text) :
    (before ++ t.text.toList).getLast? ≠ some '\r' := by
  obtain ⟨hne, hchars⟩ := h.chars
  rw [List.getLast?_append_of_ne_nil _ hne]
  intro hlast
  have hreturn := hchars '\r' (List.mem_of_getLast? hlast)
  simp [Token.isBlank] at hreturn

theorem pointsAt_pos (hline : (Source.lineChars source.toList)[t.line]? = some line)
    (hchars : ∀ c ∈ line, IsSourceChar c) (ht : t.StandsIn line) :
    (Excerpt.ofOffset (Source.line source t.line) t.pos).PointsAt source t.line t.pos ∧
      t.text.toList <+:
        (Excerpt.ofOffset (Source.line source t.line) t.pos).line.toList.drop t.pos := by
  obtain ⟨before, after, rfl, hpos, hlongest⟩ := ht
  rw [← hpos]
  refine pointsAt_ofOffset before t.text.toList after hline (fun c hc => ?_) ?_
  · exact hchars c (List.mem_append_left _ hc)
  · exact getLast?_append_text before hlongest.isLexeme

theorem pointsAt_stop (hline : (Source.lineChars source.toList)[t.line]? = some line)
    (hchars : ∀ c ∈ line, IsSourceChar c) (ht : t.StandsIn line) :
    (Excerpt.ofOffset (Source.line source t.line) t.stop).PointsAt source t.line t.stop := by
  obtain ⟨before, after, rfl, hpos, hlongest⟩ := ht
  rw [← List.append_assoc] at hline hchars
  rw [Token.stop_eq, ← hpos, ← byteLength_append]
  refine (pointsAt_ofOffset (before ++ t.text.toList) [] after hline (fun c hc => ?_) ?_).1
  · exact hchars c (List.mem_append_left _ hc)
  · rw [List.append_nil]
    exact getLast?_append_text before hlongest.isLexeme

theorem pointsAt_zero (source : String) :
    (Excerpt.ofOffset (Source.line source 0) 0).PointsAt source 0 0 := by
  obtain ⟨line, rest, hlines⟩ := List.exists_cons_of_ne_nil (Source.lineChars_ne_nil source.toList)
  have hline : (Source.lineChars source.toList)[0]? = some line := by rw [hlines]; rfl
  exact (pointsAt_ofOffset [] [] line hline (by simp) (by simp)).1

end Columns

/-- An error about the end of the input points just past the last token of the source, or at the
start of a source without tokens. Any other points at a token that its message quotes. -/
theorem parseTokens_points {source : String} {dialect : Dialect} {tokens : List Token}
    {e : CompileError} (htokens : tokenize source = .ok tokens)
    (h : parseTokens source dialect tokens = .error e) :
    ∃ place cause, e = .grammatical place cause ∧
      (cause.SaysEndOfInput →
        (∀ t, tokens.getLast? = some t → place.PointsAt source t.line t.stop) ∧
        (tokens = [] → place.PointsAt source 0 0)) ∧
      (¬ cause.SaysEndOfInput → ∃ t ∈ tokens, place.PointsAt source t.line t.pos ∧
        t.text.toList <+: place.line.toList.drop t.pos ∧ cause.Quotes t.text) := by
  obtain ⟨cause, hparse, rfl⟩ := mapError_eq_error_iff.mp h
  have hscan := mapError_eq_ok_iff.mp htokens
  have hstands (t : Token) (ht : t ∈ tokens) : ∃ line,
      (Source.lineChars source.toList)[t.line]? = some line ∧
        (∀ c ∈ line, Token.IsSourceChar c) ∧ t.StandsIn line := by
    obtain ⟨line, hline, hplace⟩ := (Token.cutsFrom_of_scanLines (i := 0) hscan).cutsUp.placed t ht
    exact ⟨line, hline, isSourceChar_of_scanLines hscan (List.mem_of_getElem? hline), hplace⟩
  refine ⟨cause.excerpt source tokens, cause, rfl, fun hend => ⟨fun t ht => ?_, fun hnone => ?_⟩,
    fun hread => ?_⟩
  · obtain ⟨line, hline, hchars, hplace⟩ := hstands t (List.mem_of_getLast? ht)
    rw [GrammarError.excerpt, GrammarError.saysEndOfInput_iff.mp hend, ht]
    exact pointsAt_stop hline hchars hplace
  · rw [GrammarError.excerpt, GrammarError.saysEndOfInput_iff.mp hend, hnone]
    exact pointsAt_zero source
  · rw [GrammarError.saysEndOfInput_iff] at hread
    obtain ⟨t, hculprit⟩ := Option.ne_none_iff_exists'.mp hread
    have ht := culprit_mem_of_parse hparse hculprit
    obtain ⟨line, hline, hchars, hplace⟩ := hstands t ht
    have hexcerpt : cause.excerpt source tokens =
        .ofOffset (Source.line source t.line) t.pos := by
      rw [GrammarError.excerpt, hculprit]
    obtain ⟨hpoints, hbegins⟩ := pointsAt_pos hline hchars hplace
    rw [← hexcerpt] at hpoints hbegins
    exact ⟨t, ht, hpoints, hbegins, GrammarError.quotes_culprit hculprit⟩

/-- The operator lacks an operand. A carriage return stands before it, and one at the end of the
line. -/
def dangling : String :=
  "f(a) \x7b\n\treturn a \r+ ;\r\n\x7d"

theorem dangling_points :
    ∃ tokens e, tokenize dangling = .ok tokens ∧
      parseTokens dangling .functions tokens = .error e ∧
      ∃ place cause, e = .grammatical place cause ∧
        (cause.SaysEndOfInput →
          (∀ t, tokens.getLast? = some t → place.PointsAt dangling t.line t.stop) ∧
          (tokens = [] → place.PointsAt dangling 0 0)) ∧
        (¬ cause.SaysEndOfInput → ∃ t ∈ tokens, place.PointsAt dangling t.line t.pos ∧
          t.text.toList <+: place.line.toList.drop t.pos ∧ cause.Quotes t.text) := by
  have h : ∃ tokens e, tokenize dangling = .ok tokens ∧
      parseTokens dangling .functions tokens = .error e := ⟨_, _, by cbv, by cbv⟩
  obtain ⟨tokens, e, htokens, he⟩ := h
  exact ⟨tokens, e, htokens, he, parseTokens_points htokens he⟩

end MiniC
