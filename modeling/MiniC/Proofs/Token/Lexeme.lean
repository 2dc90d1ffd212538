import MiniC.Proofs.Printing.Texts

/-! The lexeme at a place is the longest of its class, and where there is none a character of the
line is outside the alphabet, or an exclamation mark stands without its equals sign. -/
namespace MiniC.Token

/-- A text is a lexeme of a kind that cannot be made longer where `after` follows it. -/
def Longest (kind : TokenKind) (text : String) (after : List Char) : Prop :=
  match kind with
  | .punctuator => text ∈ punctuators ∧
      ∀ p ∈ punctuators, p.toList <+: text.toList ++ after → p.length ≤ text.length
  | .number => text ≠ "" ∧ (∀ c ∈ text.toList, c.isDigit) ∧ ∀ d ∈ after.head?, ¬ d.isDigit
  | .word => IsIdentifier text ∧ ∀ d ∈ after.head?, ¬ (d.isAlphanum ∨ d = '_')

section Classes

variable {text : String} {kind : TokenKind} {c : Char} {tail cs after : List Char}

theorem isWord_iff : IsIdentifier (String.ofList (c :: tail)) ↔
    isWordStart c ∧ ∀ d ∈ tail, isWordRest d := by
  rw [isIdentifier_iff]
  simp [isWord]

theorem Longest.isLexeme (h : Longest kind text after) : IsLexeme text := by
  cases kind with
  | punctuator => exact .inl h.1
  | number => exact .inr (.inr ⟨_, h.1, h.2.1, rfl⟩)
  | word => exact .inr (.inl h.1)

/-- A punctuator is no beginning of one that stands after it in the table. -/
theorem punctuators_pairwise : punctuators.Pairwise fun p q => ¬ p.toList <+: q.toList := by
  simp only [← List.isPrefixOf_iff_prefix]
  decide

theorem prefix_of_find? {p : String}
    (hp : (punctuators.find? fun p => p.toList.isPrefixOf cs) = some p) :
    p ∈ punctuators ∧ p.toList <+: cs := by
  have hmatch : p.toList.isPrefixOf cs := by simpa using List.find?_some hp
  exact ⟨List.mem_of_find?_eq_some hp, List.isPrefixOf_iff_prefix.mp hmatch⟩

/-- The first punctuator of the table that matches is the longest that does. -/
theorem length_le_of_find? {p q : String}
    (hp : (punctuators.find? fun p => p.toList.isPrefixOf cs) = some p) (hq : q ∈ punctuators)
    (hbegins : q.toList <+: cs) : q.length ≤ p.length := by
  obtain ⟨hmatch, earlier, later, htable, hearlier⟩ := List.find?_eq_some_iff_append.mp hp
  rw [List.isPrefixOf_iff_prefix] at hmatch
  rw [htable, List.mem_append, List.mem_cons] at hq
  rcases hq with hq | rfl | hq
  · have hnot := hearlier q hq
    simp [List.isPrefixOf_iff_prefix.mpr hbegins] at hnot
  · exact le_rfl
  · have hpairwise := punctuators_pairwise
    rw [htable, List.pairwise_append, List.pairwise_cons] at hpairwise
    have hnot := hpairwise.2.1.1 q hq
    by_contra hlt
    refine hnot (List.prefix_of_prefix_length_le hmatch hbegins ?_)
    rw [String.length_toList, String.length_toList]
    exact Nat.le_of_not_le hlt

theorem lexeme?_of_longest (h : Longest kind (String.ofList (c :: tail)) after) :
    lexeme? c (tail ++ after) = some (kind, tail) := by
  unfold lexeme?
  cases kind with
  | punctuator =>
    obtain ⟨hmem, hlongest⟩ := h
    simp only [String.toList_ofList, String.length_ofList] at hlongest
    cases hfind : punctuators.find? fun p => p.toList.isPrefixOf (c :: (tail ++ after)) with
    | none =>
      have hnot := List.find?_eq_none.mp hfind _ hmem
      simp at hnot
    | some p =>
      obtain ⟨hp, hbegins⟩ := prefix_of_find? hfind
      have hle := hlongest p hp hbegins
      have hge := length_le_of_find? hfind hmem (by simp)
      rw [String.length_ofList] at hge
      have hlength : p.toList.length = (c :: tail).length := by
        rw [String.length_toList]
        exact le_antisymm hle hge
      have heq : p.toList = c :: tail := by
        have hsame : (c :: tail) <+: c :: (tail ++ after) := List.prefix_append (c :: tail) after
        exact (List.prefix_of_prefix_length_le hbegins hsame hlength.le).eq_of_length hlength
      simp [heq]
  | number =>
    obtain ⟨-, hdigits, hafter⟩ := h
    rw [String.toList_ofList, List.forall_mem_cons] at hdigits
    obtain ⟨hc, htail⟩ := hdigits
    have hrest : (tail ++ after).takeWhile Char.isDigit = tail := by
      rw [takeWhile_append_of_head (by simpa using hafter)]
      exact List.takeWhile_eq_self_iff.mpr htail
    rw [find?_punctuators_eq_none (isWordRest_of_isDigit hc)]
    simp only [hc, if_true, hrest]
  | word =>
    obtain ⟨hword, hafter⟩ := h
    obtain ⟨hc, htail⟩ := isWord_iff.mp hword
    have hstop : ∀ d ∈ after.head?, isWordRest d = false := by simpa [isWordRest] using hafter
    have hrest : (tail ++ after).takeWhile isWordRest = tail := by
      rw [takeWhile_append_of_head hstop]
      exact List.takeWhile_eq_self_iff.mpr htail
    rw [find?_punctuators_eq_none (isWordRest_of_isWordStart hc)]
    simp only [not_isDigit_of_isWordStart hc, hc, if_true, hrest]
    rfl

theorem longest_of_lexeme? (h : lexeme? c cs = some (kind, tail)) :
    ∃ after, cs = tail ++ after ∧ Longest kind (String.ofList (c :: tail)) after := by
  have hdrop {good : Char → Bool} : ∀ d ∈ (cs.dropWhile good).head?, ¬ good d := by
    intro d hd
    have hnot := List.head?_dropWhile_not good cs
    rw [hd] at hnot
    simpa using hnot
  unfold lexeme? at h
  split at h
  · next p hfind =>
    obtain ⟨rfl, rfl⟩ := by simpa using h
    obtain ⟨hmem, after, hafter⟩ := prefix_of_find? hfind
    obtain ⟨hne, -⟩ := IsLexeme.chars (.inl hmem)
    obtain ⟨d, ds, hp⟩ := List.exists_cons_of_ne_nil hne
    rw [hp, List.cons_append] at hafter
    obtain ⟨rfl, rfl⟩ := List.cons.inj hafter
    have htext : String.ofList (d :: ds) = p := by rw [← hp, String.ofList_toList]
    refine ⟨after, by rw [hp, List.tail_cons], ?_⟩
    rw [hp, List.tail_cons, htext]
    refine ⟨hmem, fun q hq hbegins => length_le_of_find? hfind hq ?_⟩
    rwa [hp, List.cons_append] at hbegins
  · split at h
    · next hc =>
      obtain ⟨rfl, rfl⟩ := by simpa using h
      refine ⟨cs.dropWhile Char.isDigit, (List.takeWhile_append_dropWhile).symm, ?_, ?_, hdrop⟩
      · simp
      · rw [String.toList_ofList]
        exact List.forall_mem_cons.mpr ⟨hc, fun d hd => List.mem_takeWhile_imp hd⟩
    · split at h
      · next hc =>
        obtain ⟨rfl, rfl⟩ := by simpa using h
        refine ⟨cs.dropWhile isWordRest, (List.takeWhile_append_dropWhile).symm, ?_, ?_⟩
        · exact isWord_iff.mpr ⟨hc, fun d hd => List.mem_takeWhile_imp hd⟩
        · have hstop : ∀ d ∈ (cs.dropWhile isWordRest).head?, ¬ isWordRest d := hdrop
          simpa [isWordRest] using hstop
      · cases h

theorem lexeme?_eq_some_iff : lexeme? c cs = some (kind, tail) ↔
    ∃ after, cs = tail ++ after ∧ Longest kind (String.ofList (c :: tail)) after := by
  refine ⟨longest_of_lexeme?, ?_⟩
  rintro ⟨after, rfl, h⟩
  exact lexeme?_of_longest h

end Classes

end MiniC.Token
