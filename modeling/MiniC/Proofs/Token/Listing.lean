import MiniC.Proofs.Token.Decomposition

/-! The listing of tokens determines their texts.

Commas and braces stand between texts and are texts themselves, but a space stands only after a
comma that ends a text. So the listing of tokens, read as words with one space between them, has
one word for each token. -/
namespace MiniC.Token

section Words

variable {words words' : List (List Char)}

/-- A comma and a space between words are a space between words that end in a comma, up to the
last comma. -/
theorem intercalate_comma (h : words ≠ []) :
    [',', ' '].intercalate words ++ [','] = [' '].intercalate (words.map (· ++ [','])) := by
  induction words with
  | nil => exact absurd rfl h
  | cons word words ih =>
    cases words with
    | nil => simp
    | cons next words =>
      have hrest := ih (List.cons_ne_nil next words)
      rw [List.map_cons] at hrest
      rw [List.intercalate_cons_cons, List.map_cons, List.map_cons, List.intercalate_cons_cons,
        ← hrest]
      simp

theorem intercalate_ne_nil (h : words ≠ []) (hne : ∀ word ∈ words, word ≠ []) :
    [',', ' '].intercalate words ≠ [] := by
  obtain ⟨word, words, rfl⟩ := List.exists_cons_of_ne_nil h
  have hword := hne word List.mem_cons_self
  cases words <;> simp [List.intercalate_cons_cons, hword]

/-- Words without spaces are found again between commas and spaces. -/
theorem eq_of_intercalate_eq (hne : ∀ word ∈ words, word ≠ []) (hne' : ∀ word ∈ words', word ≠ [])
    (hspace : ∀ word ∈ words, ' ' ∉ word) (hspace' : ∀ word ∈ words', ' ' ∉ word)
    (h : [',', ' '].intercalate words = [',', ' '].intercalate words') : words = words' := by
  have hsplit {ws : List (List Char)} (hws : ws ≠ []) (hfree : ∀ w ∈ ws, ' ' ∉ w) :
      ([',', ' '].intercalate ws ++ [',']).splitOn ' ' = ws.map (· ++ [',']) := by
    rw [intercalate_comma hws]
    refine List.splitOn_intercalate ' ' ?_ (by simpa using hws)
    simpa using hfree
  by_cases hempty : words = []
  · subst hempty
    by_contra hother
    exact intercalate_ne_nil (Ne.symm hother) hne' h.symm
  · have hempty' : words' ≠ [] := by
      rintro rfl
      exact intercalate_ne_nil hempty hne h
    have hmap : words.map (· ++ [',']) = words'.map (· ++ [',']) := by
      rw [← hsplit hempty hspace, h, hsplit hempty' hspace']
    exact List.map_injective_iff.mpr (List.append_left_injective [',']) hmap

end Words

theorem toList_listing (tokens : List Token) :
    (listing tokens).toList =
      '\x7b' :: ([',', ' '].intercalate ((texts tokens).map String.toList) ++ ['\x7d']) := by
  simp [listing, texts, String.toList_intercalate]

theorem isLexeme_of_tokenize {source : String} {tokens : List Token}
    (h : tokenize source = .ok tokens) : ∀ text ∈ texts tokens, IsLexeme text := by
  have hcuts := cutsFrom_of_scanLines (i := 0) (mapError_eq_ok_iff.mp h)
  intro text htext
  obtain ⟨t, ht, rfl⟩ := List.mem_map.mp htext
  obtain ⟨-, line, -, -, after, -, -, hlongest⟩ := hcuts.placed t ht
  exact hlongest.isLexeme

theorem not_mem_of_isLexeme {text : String} (h : IsLexeme text) : ' ' ∉ text.toList := by
  intro hmem
  exact absurd (h.chars.2 ' ' hmem).1 (by decide)

/-- Lists of lexemes that are listed alike have the same texts. -/
theorem texts_eq_of_listing_eq {tokens tokens' : List Token}
    (h : ∀ text ∈ texts tokens, IsLexeme text) (h' : ∀ text ∈ texts tokens', IsLexeme text)
    (heq : listing tokens = listing tokens') : texts tokens = texts tokens' := by
  have hchars := congrArg String.toList heq
  rw [toList_listing, toList_listing, List.cons.injEq, List.append_cancel_right_eq] at hchars
  have hne {ts : List Token} (hts : ∀ text ∈ texts ts, IsLexeme text) :
      ∀ word ∈ (texts ts).map String.toList, word ≠ [] :=
    List.forall_mem_map.mpr fun text htext => (hts text htext).chars.1
  have hspace {ts : List Token} (hts : ∀ text ∈ texts ts, IsLexeme text) :
      ∀ word ∈ (texts ts).map String.toList, ' ' ∉ word :=
    List.forall_mem_map.mpr fun text htext => not_mem_of_isLexeme (hts text htext)
  have hwords := eq_of_intercalate_eq (hne h) (hne h') (hspace h) (hspace h') hchars.2
  exact List.map_injective_iff.mpr (fun _ _ => String.toList_inj.mp) hwords

end MiniC.Token

namespace MiniC

/-- The tokens of two sources are listed alike if and only if they have the same texts in the same
order. -/
theorem listing_determines_texts {source source' : String} {tokens tokens' : List Token}
    (h : tokenize source = .ok tokens) (h' : tokenize source' = .ok tokens') :
    Token.listing tokens = Token.listing tokens' ↔ Token.texts tokens = Token.texts tokens' := by
  constructor
  · exact Token.texts_eq_of_listing_eq (Token.isLexeme_of_tokenize h)
      (Token.isLexeme_of_tokenize h')
  · intro htexts
    rw [Token.listing, Token.listing]
    exact congrArg (fun ts => "\x7b" ++ String.intercalate ", " ts ++ "\x7d") htexts

/-- Commas and braces as tokens: the listings are of the same length and begin and end alike. -/
theorem listing_commas_braces :
    ∃ tokens tokens', tokenize "a , , \x7b\x7d" = .ok tokens ∧ tokenize "a,\n,,\x7d" = .ok tokens' ∧
      Token.listing tokens = "\x7ba, ,, ,, \x7b, \x7d\x7d" ∧
      (Token.listing tokens = Token.listing tokens' ↔ Token.texts tokens = Token.texts tokens') ∧
      Token.listing tokens ≠ Token.listing tokens' := by
  have h : ∃ tokens, tokenize "a , , \x7b\x7d" = .ok tokens ∧
      Token.listing tokens = "\x7ba, ,, ,, \x7b, \x7d\x7d" ∧
      Token.texts tokens = ["a", ",", ",", "\x7b", "\x7d"] := ⟨_, by cbv, by cbv, by cbv⟩
  have h' : ∃ tokens, tokenize "a,\n,,\x7d" = .ok tokens ∧
      Token.texts tokens = ["a", ",", ",", ",", "\x7d"] := ⟨_, by cbv, by cbv⟩
  obtain ⟨tokens, htokens, hlisting, htexts⟩ := h
  obtain ⟨tokens', htokens', htexts'⟩ := h'
  have hiff := listing_determines_texts htokens htokens'
  refine ⟨tokens, tokens', htokens, htokens', hlisting, hiff, fun heq => ?_⟩
  have hsame := hiff.mp heq
  rw [htexts, htexts'] at hsame
  exact absurd hsame (by decide)

end MiniC
