import MiniC.Proofs.Printing.Scanning

/-! A source read as one text.

The texts of its tokens do not depend on where lines end, and sources joined at a place that no
lexeme spans are read one after the other. A token has its place after the text before it. -/
namespace MiniC.Token

/-- The texts of the lexemes of a source, if all of it is lexemes and blanks. -/
def readTexts : List Char → Option (List String)
  | [] => some []
  | c :: cs =>
    if isBlank c || c = '\n' then readTexts cs
    else match lexeme? c cs with
      | none => none
      | some (_, tail) => (readTexts (cs.drop tail.length)).map (String.ofList (c :: tail) :: ·)
termination_by cs => cs.length
decreasing_by all_goals (simp only [List.length_cons, List.length_drop]; omega)

/-- No lexeme goes on into what follows. -/
def Detached (rest : List Char) : Prop :=
  ∀ d ∈ rest.head?, isWordRest d = false ∧ d ≠ '='

variable {c : Char} {cs rest : List Char}

theorem detached_cons (hword : isWordRest c = false) (hequals : c ≠ '=') : Detached (c :: rest) := by
  rintro d ⟨⟩
  exact ⟨hword, hequals⟩

theorem takeWhile_append_of_head {good : Char → Bool} (h : ∀ d ∈ rest.head?, good d = false) :
    (cs ++ rest).takeWhile good = cs.takeWhile good := by
  have hrest : rest.takeWhile good = [] := by
    cases rest with
    | nil => rfl
    | cons d more => simp [h d rfl]
  rw [List.takeWhile_append, hrest, List.append_nil]
  split
  · next hlength => exact ((List.takeWhile_prefix good).eq_of_length hlength).symm
  · rfl

/-- A punctuator of two characters ends in an equals sign. -/
theorem tail_of_mem_punctuators :
    ∀ p ∈ punctuators, p.toList.tail = [] ∨ p.toList.tail = ['='] := by
  decide

theorem isPrefixOf_punctuator {p : String} (hp : p ∈ punctuators) (h : Detached rest) :
    p.toList.isPrefixOf (c :: (cs ++ rest)) = p.toList.isPrefixOf (c :: cs) := by
  have htail := tail_of_mem_punctuators p hp
  cases hlist : p.toList with
  | nil => rfl
  | cons a as =>
    rw [hlist, List.tail_cons] at htail
    rcases htail with rfl | rfl
    · rfl
    · cases cs with
      | cons d ds => rfl
      | nil =>
        cases rest with
        | nil => rfl
        | cons d more =>
          have hne : ('=' == d) = false := by simpa using (h d rfl).2.symm
          simp [List.isPrefixOf, hne]

theorem lexeme?_append (h : Detached rest) : lexeme? c (cs ++ rest) = lexeme? c cs := by
  have hdigit : ∀ d ∈ rest.head?, d.isDigit = false := by
    intro d hd
    rw [Bool.eq_false_iff]
    intro hdigit
    exact Bool.false_ne_true ((h d hd).1.symm.trans (isWordRest_of_isDigit hdigit))
  have hword : ∀ d ∈ rest.head?, isWordRest d = false := fun d hd => (h d hd).1
  rw [lexeme?, lexeme?, List.find?_congr fun p hp => isPrefixOf_punctuator hp h,
    takeWhile_append_of_head hdigit, takeWhile_append_of_head hword]

theorem readTexts_append (h : Detached rest) :
    readTexts (cs ++ rest) =
      (readTexts cs).bind fun ts => (readTexts rest).map (ts ++ ·) := by
  fun_induction readTexts cs with
  | case1 => simp
  | case2 c cs hblank ih =>
    rw [List.cons_append, readTexts, if_pos hblank, ih]
  | case3 c cs hblank hnone =>
    rw [List.cons_append, readTexts, if_neg hblank, lexeme?_append h, hnone]
    rfl
  | case4 c cs hblank kind tail hsome ih =>
    have hlength := (isPrefix_of_lexeme? hsome).length_le
    rw [List.cons_append, readTexts, if_neg hblank, lexeme?_append h, hsome]
    simp only [List.drop_append_of_le_length hlength, ih]
    cases readTexts (cs.drop tail.length) <;> cases readTexts rest <;> rfl

/-- A source between two others, where a space stands before it and no lexeme goes on after it. -/
theorem readTexts_between {pre post : List Char} {before between after : List String}
    (hpre : readTexts pre = some before) (hcs : readTexts cs = some between)
    (hpost : readTexts post = some after) (h : Detached post) :
    readTexts (pre ++ ' ' :: (cs ++ post)) = some (before ++ (between ++ after)) := by
  have hspace : Detached (' ' :: (cs ++ post)) := detached_cons (by decide) (by decide)
  have hskip : readTexts (' ' :: (cs ++ post)) = readTexts (cs ++ post) := by
    rw [readTexts, if_pos (by decide)]
  rw [readTexts_append hspace, hskip, readTexts_append h, hpre, hcs, hpost]
  rfl

section Places

/-- The index of the line in which a text ends. -/
def endLine (before : List Char) : Nat :=
  before.count '\n'

/-- The length in bytes of the line in which a text ends. -/
def endOffset (before : List Char) : Nat :=
  byteLength (before.rtakeWhile (· ≠ '\n'))

variable {before : List Char}

@[simp] theorem endLine_newline : endLine (before ++ ['\n']) = endLine before + 1 := by
  simp [endLine]

@[simp] theorem endOffset_newline : endOffset (before ++ ['\n']) = 0 := by
  rw [endOffset, List.rtakeWhile_concat_neg _ _ _ (by simp), byteLength_nil]

theorem endLine_append (h : '\n' ∉ cs) : endLine (before ++ cs) = endLine before := by
  rw [endLine, endLine, List.count_append, List.count_eq_zero_of_not_mem h, Nat.add_zero]

theorem endOffset_append (h : '\n' ∉ cs) :
    endOffset (before ++ cs) = endOffset before + byteLength cs := by
  induction cs using List.reverseRecOn with
  | nil => simp
  | append_singleton cs c ih =>
    obtain ⟨hcs, hc⟩ := not_or.mp (mt List.mem_append.mpr h)
    have hne : c ≠ '\n' := fun heq => hc (by simp [heq])
    rw [← List.append_assoc, endOffset, List.rtakeWhile_concat_pos _ _ _ (by simpa using hne),
      byteLength_append, byteLength_append, ← Nat.add_assoc, ← ih hcs, endOffset]

end Places

/-- The tokens of a text that comes after another, read without cutting it into lines. -/
def scanAfter (before : List Char) : List Char → Except InvalidCharacter (List Token)
  | [] => .ok []
  | c :: cs =>
    if isBlank c || c = '\n' then scanAfter (before ++ [c]) cs
    else match lexeme? c cs with
      | none => .error ⟨c, endLine before, endOffset before⟩
      | some (kind, tail) => do
        let token : Token :=
          ⟨kind, String.ofList (c :: tail), endLine before, endOffset before⟩
        return token :: (← scanAfter (before ++ c :: tail) (cs.drop tail.length))
termination_by cs => cs.length
decreasing_by all_goals (simp only [List.length_cons, List.length_drop]; omega)

section Scan

variable {before : List Char}

/-- The tokens of a line, and then those of what follows it. -/
theorem scanAfter_append {line pos : Nat} (h : '\n' ∉ cs) (hrest : Detached rest)
    (hline : endLine before = line) (hpos : endOffset before = pos) :
    scanAfter before (cs ++ rest) = do
      return (← scanLine line pos cs) ++ (← scanAfter (before ++ cs) rest) := by
  fun_induction scanLine line pos cs generalizing before with
  | case1 =>
    rw [List.nil_append, List.append_nil]
    cases scanAfter before rest <;> rfl
  | case2 pos c cs hblank ih =>
    obtain ⟨hc, hcs⟩ := not_or.mp (mt List.mem_cons.mpr h)
    have hskip : isBlank c || c = '\n' := by simp [hblank]
    have hnext : '\n' ∉ [c] := by simpa using hc
    rw [List.cons_append, scanAfter, if_pos hskip, ih hcs, List.append_assoc]
    · rfl
    · rw [endLine_append hnext, hline]
    · rw [endOffset_append hnext, hpos, byteLength_cons, byteLength_nil, Nat.add_zero]
  | case3 pos c cs hblank hnone =>
    obtain ⟨hc, -⟩ := not_or.mp (mt List.mem_cons.mpr h)
    have hskip : ¬ (isBlank c || c = '\n') := by simpa [hblank] using Ne.symm hc
    rw [List.cons_append, scanAfter, if_neg hskip, lexeme?_append hrest, hnone, hline, hpos]
    rfl
  | case4 pos c cs hblank kind tail hsome token =>
    rename_i ih
    obtain ⟨hc, hcs⟩ := not_or.mp (mt List.mem_cons.mpr h)
    have hskip : ¬ (isBlank c || c = '\n') := by simpa [hblank] using Ne.symm hc
    obtain ⟨more, rfl⟩ := isPrefix_of_lexeme? hsome
    obtain ⟨htail, hmore⟩ := not_or.mp (mt List.mem_append.mpr hcs)
    have htext : '\n' ∉ c :: tail := not_or.mpr ⟨hc, htail⟩ ∘ List.mem_cons.mp
    rw [List.drop_left] at ih
    rw [List.cons_append, scanAfter, if_neg hskip, lexeme?_append hrest, hsome]
    simp only [List.append_assoc, List.drop_left]
    have hplace : endLine (before ++ c :: tail) = line := by rw [endLine_append htext, hline]
    have hstop : endOffset (before ++ c :: tail) = token.stop := by
      rw [endOffset_append htext, hpos, stop, utf8ByteSize_ofList]
    rw [ih hmore hplace hstop, hline, hpos, List.append_assoc, List.cons_append]
    cases scanLine line token.stop more <;>
      cases scanAfter (before ++ c :: (tail ++ more)) rest <;> rfl

/-- Line feeds end lines, and nothing else does. -/
theorem scanAfter_intercalate {line : Nat} {lines : List (List Char)} (hne : lines ≠ [])
    (h : ∀ l ∈ lines, '\n' ∉ l) (hline : endLine before = line) (hpos : endOffset before = 0) :
    scanAfter before (['\n'].intercalate lines) = scanLines line lines := by
  induction lines generalizing before line with
  | nil => exact absurd rfl hne
  | cons l ls ih =>
    obtain ⟨hl, hls⟩ := List.forall_mem_cons.mp h
    cases ls with
    | nil =>
      have hlast : scanAfter before (l ++ []) = _ :=
        scanAfter_append hl (by simp [Detached]) hline hpos
      rw [List.append_nil, scanAfter] at hlast
      rw [List.intercalate_singleton, hlast]
      rfl
    | cons l' ls =>
      have hbreak : Detached ('\n' :: ['\n'].intercalate (l' :: ls)) :=
        detached_cons (by decide) (by decide)
      have hplace : endLine (before ++ l ++ ['\n']) = line + 1 := by
        rw [endLine_newline, endLine_append hl, hline]
      rw [List.intercalate_cons_cons, List.append_assoc, List.singleton_append,
        scanAfter_append hl hbreak hline hpos, scanAfter, if_pos (by simp),
        ih (List.cons_ne_nil l' ls) hls hplace endOffset_newline]
      rfl

/-- Where lines end matters to the places of tokens only. -/
theorem scan_eq_scanAfter (source : String) : scan source = scanAfter [] source.toList := by
  have hlines : scanAfter [] _ = scanLines 0 _ :=
    scanAfter_intercalate (Source.lineChars_ne_nil source.toList)
      (fun l hl => Source.newline_not_mem hl) rfl rfl
  rw [Source.intercalate_lineChars] at hlines
  exact hlines.symm

end Scan

/-- The texts that a scan finds, if it finds no fault. -/
def textsFound (x : Except InvalidCharacter (List Token)) : Option (List String) :=
  x.toOption.map texts

theorem textsFound_cons {token : Token} {y : Except InvalidCharacter (List Token)} :
    textsFound (do return token :: (← y)) = (textsFound y).map (token.text :: ·) := by
  cases y <;> rfl

theorem textsFound_scanAfter (before : List Char) :
    textsFound (scanAfter before cs) = readTexts cs := by
  fun_induction readTexts cs generalizing before with
  | case1 =>
    rw [scanAfter]
    rfl
  | case2 c cs hblank ih =>
    rw [scanAfter, if_pos hblank]
    exact ih _
  | case3 c cs hblank hnone =>
    rw [scanAfter, if_neg hblank, hnone]
    rfl
  | case4 c cs hblank kind tail hsome ih =>
    rw [scanAfter, if_neg hblank, hsome]
    simp only [textsFound_cons, ih]

/-- Where lines end makes no difference to the texts. -/
theorem textsFound_scan (source : String) :
    textsFound (scan source) = readTexts source.toList := by
  rw [scan_eq_scanAfter, textsFound_scanAfter]

end MiniC.Token
