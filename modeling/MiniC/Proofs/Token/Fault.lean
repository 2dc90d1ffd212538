import MiniC.Proofs.Excerpt
import MiniC.Proofs.Token.Decomposition

/-! Where no tokens can be made of a source.

A scan fails at the first character of its line that is outside the alphabet, or that is an
exclamation mark without its equals sign. No lexeme holds such a character, so that it does not
matter how the characters before it are cut. -/
namespace MiniC
namespace Token

/-- The characters of punctuators. -/
def symbols : List Char :=
  ['=', '!', '>', '<', '+', '-', '*', '/', '(', ')', '\x7b', '\x7d', ';', ',', '&']

/-- The characters that lines are written in. -/
def IsSourceChar (c : Char) : Prop :=
  c = ' ' ∨ c = '\t' ∨ c = '\r' ∨ c.isAlpha ∨ c.isDigit ∨ c = '_' ∨ c ∈ symbols

/-- The character with an index is outside the alphabet, or is an exclamation mark that
no equals sign follows. -/
def FaultAt (cs : List Char) (n : Nat) : Prop :=
  ∃ c, cs[n]? = some c ∧ (¬ IsSourceChar c ∨ c = '!' ∧ cs[n + 1]? ≠ some '=')

def FirstFault (cs : List Char) (n : Nat) : Prop :=
  FaultAt cs n ∧ ∀ m < n, ¬ FaultAt cs m

section Lexemes

variable {text : String} {kind : TokenKind} {c : Char} {tail cs before : List Char} {m n : Nat}

theorem isSourceChar_of_isBlank (h : isBlank c) : IsSourceChar c ∧ c ≠ '!' := by
  simp only [isBlank, Bool.or_eq_true, decide_eq_true_eq] at h
  rcases h with (rfl | rfl) | rfl <;> simp [IsSourceChar]

theorem isSourceChar_of_isWordRest (h : isWordRest c) : IsSourceChar c ∧ c ≠ '!' := by
  refine ⟨?_, by rintro rfl; exact absurd h (by decide)⟩
  simp only [isWordRest, Char.isAlphanum, Bool.or_eq_true, decide_eq_true_eq] at h
  rcases h with (h | h) | h <;> simp [IsSourceChar, h]

theorem subset_symbols : ∀ p ∈ punctuators, p.toList ⊆ symbols := by
  decide

theorem eq_of_exclamation : ∀ p ∈ punctuators, '!' ∈ p.toList → p = "!=" := by
  decide

theorem singleton_mem_punctuators : ∀ c ∈ symbols, c ≠ '!' → String.singleton c ∈ punctuators := by
  simp [symbols, punctuators]

/-- In a lexeme all characters are of the alphabet, and an equals sign follows an exclamation
mark. -/
theorem IsLexeme.sound (h : IsLexeme text) (hc : text.toList[m]? = some c) :
    IsSourceChar c ∧ (c = '!' → text.toList[m + 1]? = some '=') := by
  have hmem : c ∈ text.toList := List.mem_of_getElem? hc
  have hword (hrest : isWordRest c) :
      IsSourceChar c ∧ (c = '!' → text.toList[m + 1]? = some '=') := by
    obtain ⟨hchar, hne⟩ := isSourceChar_of_isWordRest hrest
    exact ⟨hchar, fun heq => absurd heq hne⟩
  rcases h with h | h | ⟨n, -, hdigits, -⟩
  · refine ⟨by simp [IsSourceChar, subset_symbols text h hmem], ?_⟩
    rintro rfl
    obtain rfl := eq_of_exclamation text h hmem
    match m, hc with
    | 0, _ => rfl
    | 1, hc => simp at hc
    | m + 2, hc => simp at hc
  · obtain ⟨d, ds, htext, hstart, hall⟩ := h
    rw [htext] at hmem
    rcases List.mem_cons.mp hmem with rfl | hmem
    · exact hword (isWordRest_of_isWordStart (by simpa [isWordStart] using hstart))
    · exact hword (by simpa [isWordRest] using hall c hmem)
  · exact hword (isWordRest_of_isDigit (hdigits c hmem))

theorem not_faultAt_of_lexeme? (h : lexeme? c cs = some (kind, tail))
    (hm : m < (c :: tail).length) : ¬ FaultAt (c :: cs) m := by
  obtain ⟨after, rfl, hlongest⟩ := lexeme?_eq_some_iff.mp h
  rintro ⟨d, hd, hfault⟩
  have htext : (String.ofList (c :: tail)).toList[m]? = some d := by
    rw [String.toList_ofList, ← hd, ← List.cons_append, List.getElem?_append_left hm]
  obtain ⟨hchar, hequals⟩ := hlongest.isLexeme.sound htext
  rcases hfault with hnot | ⟨rfl, hnext⟩
  · exact hnot hchar
  · have hsign := hequals rfl
    rw [String.toList_ofList] at hsign
    obtain ⟨hlength, -⟩ := List.getElem?_eq_some_iff.mp hsign
    rw [← List.cons_append, List.getElem?_append_left hlength] at hnext
    exact hnext hsign

/-- Where no lexeme begins, the character there is at fault. -/
theorem faultAt_of_lexeme? (hblank : ¬ isBlank c) (h : lexeme? c cs = none) :
    FaultAt (c :: cs) 0 := by
  refine ⟨c, rfl, ?_⟩
  by_contra hsound
  push Not at hsound
  obtain ⟨hchar, hequals⟩ := hsound
  unfold lexeme? at h
  split at h
  · cases h
  · next hfind =>
    have hnone (p : String) (hp : p ∈ punctuators) : ¬ p.toList <+: c :: cs := by
      simpa [List.isPrefixOf_iff_prefix] using List.find?_eq_none.mp hfind p hp
    split_ifs at h with hdigit hstart
    have hstart : c.isAlpha = false ∧ c ≠ '_' := by simpa [isWordStart] using hstart
    have hblank : (c ≠ ' ' ∧ c ≠ '\t') ∧ c ≠ '\r' := by simpa [isBlank] using hblank
    have hsymbol : c ∈ symbols := by simpa [IsSourceChar, hstart, hblank, hdigit] using hchar
    by_cases hmark : c = '!'
    · have hhead : cs.head? = some '=' := by
        simpa [List.head?_eq_getElem?] using hequals hmark
      obtain ⟨ds, rfl⟩ := List.head?_eq_some_iff.mp hhead
      exact hnone "!=" (by decide) (by simp [hmark])
    · exact hnone _ (singleton_mem_punctuators c hsymbol hmark) (by simp)

theorem faultAt_append_right : FaultAt (before ++ cs) (before.length + n) ↔ FaultAt cs n := by
  simp only [FaultAt, Nat.add_assoc, List.getElem?_append_right (Nat.le_add_right _ _),
    Nat.add_sub_cancel_left]

theorem FirstFault.append (before : List Char) (h : FirstFault cs n)
    (hbefore : ∀ m < before.length, ¬ FaultAt (before ++ cs) m) :
    FirstFault (before ++ cs) (before.length + n) := by
  refine ⟨faultAt_append_right.mpr h.1, fun m hm hfault => ?_⟩
  by_cases hlt : m < before.length
  · exact hbefore m hlt hfault
  · obtain ⟨k, rfl⟩ := Nat.exists_eq_add_of_le (Nat.not_lt.mp hlt)
    exact h.2 k (by omega) (faultAt_append_right.mp hfault)

end Lexemes

section Scan

variable {line pos : Nat} {cs : List Char} {tokens : List Token} {e : InvalidCharacter}

theorem not_faultAt_of_isBlank {c : Char} (h : isBlank c) : ¬ FaultAt (c :: cs) 0 := by
  rintro ⟨d, hd, hfault⟩
  obtain rfl : c = d := by simpa using hd
  obtain ⟨hchar, hne⟩ := isSourceChar_of_isBlank h
  rcases hfault with hnot | ⟨heq, -⟩
  · exact hnot hchar
  · exact hne heq

/-- A fault after a lexeme is one of the line. -/
theorem not_faultAt_of_drop {c : Char} {kind : TokenKind} {tail : List Char}
    (hlexeme : lexeme? c cs = some (kind, tail)) (h : ∀ n, ¬ FaultAt (cs.drop tail.length) n)
    (n : Nat) : ¬ FaultAt (c :: cs) n := by
  by_cases hn : n < (c :: tail).length
  · exact not_faultAt_of_lexeme? hlexeme hn
  · obtain ⟨k, rfl⟩ := Nat.exists_eq_add_of_le (Nat.not_lt.mp hn)
    obtain ⟨after, rfl, -⟩ := lexeme?_eq_some_iff.mp hlexeme
    rw [List.drop_left] at h
    rw [← List.cons_append, faultAt_append_right]
    exact h k

theorem not_faultAt_of_scanLine (h : scanLine line pos cs = .ok tokens) (n : Nat) :
    ¬ FaultAt cs n := by
  fun_induction scanLine line pos cs generalizing tokens n with
  | case1 =>
    rintro ⟨d, hd, -⟩
    simp at hd
  | case2 pos c cs hblank ih =>
    cases n with
    | zero => exact not_faultAt_of_isBlank hblank
    | succ n =>
      rw [← List.singleton_append, Nat.add_comm, ← List.length_singleton (a := c),
        faultAt_append_right]
      exact ih h n
  | case3 => cases h
  | case4 pos c cs hblank kind tail hlexeme token =>
    rename_i ih
    obtain ⟨rest, hrest, -⟩ := bind_eq_ok_iff.mp h
    exact not_faultAt_of_drop hlexeme (fun n => ih hrest n) n

/-- A scan that fails has come to the first fault of the line. -/
theorem firstFault_of_scanLine (h : scanLine line pos cs = .error e) :
    ∃ n, FirstFault cs n ∧ cs[n]? = some e.char ∧ e.line = line ∧
      e.pos = pos + byteLength (cs.take n) := by
  fun_induction scanLine line pos cs with
  | case1 => cases h
  | case2 pos c cs hblank ih =>
    obtain ⟨n, hfault, hchar, hline, hpos⟩ := ih h
    refine ⟨[c].length + n, ?_, ?_, hline, ?_⟩
    · refine hfault.append [c] fun m hm => ?_
      obtain rfl : m = 0 := by simpa using hm
      exact not_faultAt_of_isBlank hblank
    · simpa [Nat.add_comm 1] using hchar
    · simp [Nat.add_comm 1, hpos, Nat.add_assoc]
  | case3 pos c cs hblank hnone =>
    cases h
    exact ⟨0, ⟨faultAt_of_lexeme? hblank hnone, by simp⟩, rfl, rfl, rfl⟩
  | case4 pos c cs hblank kind tail hlexeme token =>
    rename_i ih
    rcases bind_eq_error_iff.mp h with hrest | ⟨rest, -, hnot⟩
    · obtain ⟨n, hfault, hchar, hline, hpos⟩ := ih hrest
      obtain ⟨after, rfl, -⟩ := lexeme?_eq_some_iff.mp hlexeme
      rw [List.drop_left] at hfault hchar hpos
      refine ⟨(c :: tail).length + n, ?_, ?_, hline, ?_⟩
      · exact hfault.append (c :: tail) fun m hm => not_faultAt_of_lexeme? hlexeme hm
      · rw [← List.cons_append, List.getElem?_append_right (Nat.le_add_right _ _),
          Nat.add_sub_cancel_left]
        exact hchar
      · rw [← List.cons_append, List.take_length_add_append, byteLength_append, hpos, stop_eq,
          String.toList_ofList, Nat.add_assoc]
    · cases hnot

end Scan

section Lines

variable {lines : List (List Char)} {i : Nat} {tokens : List Token} {e : InvalidCharacter}

theorem not_faultAt_of_scanLines (h : scanLines i lines = .ok tokens) :
    ∀ line ∈ lines, ∀ n, ¬ FaultAt line n := by
  induction lines generalizing i tokens with
  | nil => exact List.forall_mem_nil _
  | cons line rest ih =>
    rw [scanLines] at h
    obtain ⟨first, hfirst, h⟩ := bind_eq_ok_iff.mp h
    obtain ⟨others, hothers, -⟩ := bind_eq_ok_iff.mp h
    exact List.forall_mem_cons.mpr ⟨not_faultAt_of_scanLine hfirst, ih hothers⟩

/-- A scan that fails has come to the first fault of the first line that has one. -/
theorem firstFault_of_scanLines (h : scanLines i lines = .error e) :
    ∃ before cs after n, lines = before ++ cs :: after ∧ e.line = i + before.length ∧
      (∀ line ∈ before, ∀ m, ¬ FaultAt line m) ∧ FirstFault cs n ∧ cs[n]? = some e.char ∧
      e.pos = byteLength (cs.take n) := by
  induction lines generalizing i with
  | nil => cases h
  | cons line rest ih =>
    rw [scanLines] at h
    rcases bind_eq_error_iff.mp h with hline | ⟨first, hfirst, h⟩
    · obtain ⟨n, hfault, hchar, hindex, hpos⟩ := firstFault_of_scanLine hline
      refine ⟨[], line, rest, n, rfl, hindex, List.forall_mem_nil _, hfault, hchar, ?_⟩
      rw [hpos, Nat.zero_add]
    · rcases bind_eq_error_iff.mp h with hrest | ⟨others, -, hnot⟩
      · obtain ⟨before, line', after, n, rfl, hindex, hbefore, hplace⟩ := ih hrest
        refine ⟨line :: before, line', after, n, rfl, ?_, ?_, hplace⟩
        · rw [hindex, List.length_cons]
          omega
        · exact List.forall_mem_cons.mpr ⟨not_faultAt_of_scanLine hfirst, hbefore⟩
      · cases hnot

end Lines

section Positions

variable {cs rest : List Char} {pos : Nat}

/-- The scan of a line comes to a byte offset and has the characters `rest` to go. -/
inductive ScanReaches (cs : List Char) : Nat → List Char → Prop where
  | start : ScanReaches cs 0 cs
  | blank {pos c rest} : ScanReaches cs pos (c :: rest) → isBlank c →
      ScanReaches cs (pos + c.utf8Size) rest
  | lexeme {pos c rest kind tail} : ScanReaches cs pos (c :: rest) → ¬ isBlank c →
      lexeme? c rest = some (kind, tail) →
      ScanReaches cs (pos + byteLength (c :: tail)) (rest.drop tail.length)

/-- The scan of the whole line is what the scan from there on makes of the rest, after the tokens
found before. -/
theorem scanLine_of_scanReaches (h : ScanReaches cs pos rest) (line : Nat) :
    ∃ earlier, scanLine line 0 cs = (scanLine line pos rest).map (earlier ++ ·) := by
  induction h with
  | start =>
    refine ⟨[], ?_⟩
    cases scanLine line 0 cs <;> rfl
  | blank _ hblank ih =>
    obtain ⟨earlier, hscan⟩ := ih
    rw [scanLine, if_pos hblank] at hscan
    exact ⟨earlier, hscan⟩
  | @lexeme pos c rest kind tail _ hblank hlexeme ih =>
    obtain ⟨earlier, hscan⟩ := ih
    rw [scanLine, if_neg hblank, hlexeme] at hscan
    refine ⟨earlier ++ [⟨kind, String.ofList (c :: tail), line, pos⟩], ?_⟩
    simp only [stop_eq, String.toList_ofList] at hscan
    rw [hscan]
    cases scanLine line (pos + byteLength (c :: tail)) (rest.drop tail.length) <;>
      simp [bind, Except.bind, pure, Except.pure, Except.map]

theorem split_of_scanReaches (h : ScanReaches cs pos rest) :
    ∃ before, cs = before ++ rest ∧ byteLength before = pos := by
  induction h with
  | start => exact ⟨[], rfl, rfl⟩
  | @blank pos c rest _ _ ih =>
    obtain ⟨before, rfl, rfl⟩ := ih
    exact ⟨before ++ [c], by simp, by simp⟩
  | @lexeme pos c rest kind tail _ _ hlexeme ih =>
    obtain ⟨before, rfl, rfl⟩ := ih
    obtain ⟨after, rfl, -⟩ := lexeme?_eq_some_iff.mp hlexeme
    exact ⟨before ++ c :: tail, by simp, by simp⟩

/-- The scan stops at character boundaries only. -/
theorem isValid_of_scanReaches (h : ScanReaches cs pos rest) :
    String.Pos.Raw.IsValid (String.ofList cs) ⟨pos⟩ := by
  obtain ⟨before, rfl, rfl⟩ := split_of_scanReaches h
  refine String.Pos.Raw.isValid_iff_exists_append.mpr
    ⟨String.ofList before, String.ofList rest, String.ofList_append, ?_⟩
  rw [String.Pos.Raw.ext_iff, String.byteIdx_rawEndPos, utf8ByteSize_ofList]

end Positions

end Token

/-- The excerpt for a fault shows its line, with the caret under the character at fault. -/
theorem excerpt_of_faultAt {source : String} {e : InvalidCharacter} {cs : List Char} {n : Nat}
    (hline : (Source.lineChars source.toList)[e.line]? = some cs) (hfault : Token.FaultAt cs n)
    (hchar : cs[n]? = some e.char) (hpos : e.pos = byteLength (cs.take n)) :
    ShownAs cs (e.excerpt source).line.toList ∧ (e.excerpt source).column = n ∧
      (e.excerpt source).line.toList[n]? = some e.char := by
  obtain ⟨hlt, hget⟩ := List.getElem?_eq_some_iff.mp hchar
  have hsplit : cs = cs.take n ++ ([e.char] ++ cs.drop (n + 1)) := by
    rw [List.singleton_append, ← hget, ← List.drop_eq_getElem_cons, List.take_append_drop]
  have hlength : (cs.take n).length = n := List.length_take_of_le hlt.le
  have hne : e.char ≠ '\r' := by
    obtain ⟨c, hc, hnot⟩ := hfault
    obtain rfl := Option.some.inj (hchar.symm.trans hc)
    intro hreturn
    simp [hreturn, Token.IsSourceChar] at hnot
  have hplace : e.excerpt source =
      ⟨String.ofList (cs.take n ++ ([e.char] ++ trimReturns (cs.drop (n + 1)))), n⟩ := by
    have hoffset := ofOffset_byteLength (cs.take n) [e.char] (cs.drop (n + 1)) (by simpa using hne)
    rw [← hsplit, hlength] at hoffset
    rw [InvalidCharacter.excerpt, Source.line_of_getElem? hline, hpos, hoffset]
  refine ⟨?_, ?_, ?_⟩
  · rw [InvalidCharacter.excerpt, Source.line_of_getElem? hline]
    exact shownAs_ofOffset cs e.pos
  · rw [hplace]
  · rw [hplace, String.toList_ofList, List.getElem?_append_right hlength.le, hlength, Nat.sub_self]
    rfl

/-- A source cannot be cut into tokens if and only if one of its lines has a fault. The error then
shows the first of these lines, with the caret under the first fault of it, and the scan of a line
never stops within a character. -/
theorem tokenize_faults (source : String) :
    ((∃ e, tokenize source = .error e) ↔
      ∃ line ∈ Source.lineChars source.toList, ∃ n, Token.FaultAt line n) ∧
    (∀ e, tokenize source = .error e → ∃ place cause before cs after n c,
      e = .lexical place cause ∧ Source.lineChars source.toList = before ++ cs :: after ∧
      (∀ line ∈ before, ∀ m, ¬ Token.FaultAt line m) ∧ Token.FirstFault cs n ∧
      ShownAs cs place.line.toList ∧
      place.marker = String.ofList (List.replicate n ' ' ++ ['^']) ∧
      place.line.toList[n]? = some c ∧
      cause.message = "invalid token: '" ++ String.singleton c ++ "'") ∧
    ∀ cs ∈ Source.lineChars source.toList, ∀ pos rest, Token.ScanReaches cs pos rest →
      (∀ line, ∃ earlier,
        Token.scanLine line 0 cs = (Token.scanLine line pos rest).map (earlier ++ ·)) ∧
      String.Pos.Raw.IsValid (String.ofList cs) ⟨pos⟩ ∧
      ∃ before, cs = before ++ rest ∧ byteLength before = pos := by
  have hlocated (e : CompileError) (h : tokenize source = .error e) :
      ∃ cause before cs after n, e = .lexical (cause.excerpt source) cause ∧
        Source.lineChars source.toList = before ++ cs :: after ∧ cause.line = before.length ∧
        (∀ line ∈ before, ∀ m, ¬ Token.FaultAt line m) ∧ Token.FirstFault cs n ∧
        cs[n]? = some cause.char ∧ cause.pos = byteLength (cs.take n) := by
    obtain ⟨cause, hscan, rfl⟩ := mapError_eq_error_iff.mp h
    obtain ⟨before, cs, after, n, hlines, hline, hplace⟩ := Token.firstFault_of_scanLines hscan
    rw [Nat.zero_add] at hline
    exact ⟨cause, before, cs, after, n, rfl, hlines, hline, hplace⟩
  refine ⟨⟨?_, ?_⟩, fun e h => ?_, fun cs _ pos rest h => ?_⟩
  · rintro ⟨e, h⟩
    obtain ⟨cause, before, cs, after, n, -, hlines, -, -, hfault, -⟩ := hlocated e h
    exact ⟨cs, by simp [hlines], n, hfault.1⟩
  · rintro ⟨line, hmem, n, hfault⟩
    cases h : tokenize source with
    | error e => exact ⟨e, rfl⟩
    | ok tokens =>
      have hscan := mapError_eq_ok_iff.mp h
      exact absurd hfault (Token.not_faultAt_of_scanLines hscan line hmem n)
  · obtain ⟨cause, before, cs, after, n, rfl, hlines, hline, hbefore, hfault, hchar, hpos⟩ :=
      hlocated e h
    have hget : (Source.lineChars source.toList)[cause.line]? = some cs := by
      rw [hlines, hline, List.getElem?_append_right le_rfl, Nat.sub_self]
      rfl
    obtain ⟨hshown, hcolumn, hat⟩ := excerpt_of_faultAt hget hfault.1 hchar hpos
    refine ⟨_, cause, before, cs, after, n, cause.char, rfl, hlines, hbefore, hfault, hshown, ?_,
      hat, rfl⟩
    rw [Excerpt.marker, hcolumn]
  · exact ⟨Token.scanLine_of_scanReaches h, Token.isValid_of_scanReaches h,
      Token.split_of_scanReaches h⟩

/-- On its second line the source has `é`, and before it a carriage return and `!=`. -/
theorem accented_faults :
    ∃ e, tokenize "a = 1;\nb \r!= é !\r" = .error e ∧
      ∃ place cause before cs after n c,
        e = .lexical place cause ∧
        Source.lineChars "a = 1;\nb \r!= é !\r".toList = before ++ cs :: after ∧
        (∀ line ∈ before, ∀ m, ¬ Token.FaultAt line m) ∧ Token.FirstFault cs n ∧
        ShownAs cs place.line.toList ∧
        place.marker = String.ofList (List.replicate n ' ' ++ ['^']) ∧
        place.line.toList[n]? = some c ∧
        cause.message = "invalid token: '" ++ String.singleton c ++ "'" := by
  have h : ∃ e, tokenize "a = 1;\nb \r!= é !\r" = .error e := ⟨_, by cbv⟩
  obtain ⟨e, he⟩ := h
  exact ⟨e, he, (tokenize_faults "a = 1;\nb \r!= é !\r").2.1 e he⟩

end MiniC
