import Mathlib
import MiniC.Compile
import MiniC.Proofs.Excerpt

/-! The caret of every line and byte offset.

An offset lies between two characters, past the end, or within a character. The column can be found
by cutting the line at a character boundary in each of the three cases, and in all of them it counts
the characters that have ended. -/
namespace MiniC

/-- The characters of the first `pos` bytes of a line. There are none where `pos` is no boundary
between characters, or is past the end. -/
def cut? : Nat → List Char → Option (List Char)
  | 0, _ => some []
  | _ + 1, [] => none
  | pos + 1, c :: cs =>
    if c.utf8Size ≤ pos + 1 then (cut? (pos + 1 - c.utf8Size) cs).map (c :: ·) else none

/-- The last boundary that is not after an offset, searched for from the offset downwards. There is
none if not even 0 is one. -/
def boundaryBelow? (line : List Char) : Nat → Option Nat
  | 0 => if (cut? 0 line).isSome then some 0 else none
  | pos + 1 => if (cut? (pos + 1) line).isSome then some (pos + 1) else boundaryBelow? line pos

/-- The column of an offset from cuts of the line: at the offset if that is a boundary, at the end
if the offset is past it, and else at the boundary below. There is none if one of the cuts or the
search fails. -/
def cutColumn? (line : List Char) (pos : Nat) : Option Nat :=
  match cut? pos line with
  | some before => some before.length
  | none =>
    if byteLength line ≤ pos then some (line.length + (pos - byteLength line))
    else do
      let boundary ← boundaryBelow? line pos
      let before ← cut? boundary line
      return before.length

/-- The byte offset of the last byte of the character with an index. -/
def lastByte (line : List Char) (i : Nat) : Nat :=
  byteLength (line.take (i + 1)) - 1

/-- How many characters have their last byte before an offset. -/
def endedBefore (line : List Char) (pos : Nat) : Nat :=
  (List.range line.length).countP fun i => lastByte line i < pos

section Cuts

variable {line before after : List Char} {c : Char} {pos k : Nat}

@[simp] theorem cut?_zero (line : List Char) : cut? 0 line = some [] := by
  cases line <;> rfl

theorem cut?_cons (h : 0 < pos) :
    cut? pos (c :: line) =
      if c.utf8Size ≤ pos then (cut? (pos - c.utf8Size) line).map (c :: ·) else none := by
  cases pos with
  | zero => exact absurd h (Nat.lt_irrefl 0)
  | succ pos => rfl

/-- Whole characters before the offset belong to the cut. -/
theorem cut?_append (before rest : List Char) (k : Nat) :
    cut? (byteLength before + k) (before ++ rest) = (cut? k rest).map (before ++ ·) := by
  induction before with
  | nil => simp
  | cons c before ih =>
    have hsize := c.utf8Size_pos
    have hsub : c.utf8Size + byteLength before + k - c.utf8Size = byteLength before + k := by omega
    rw [byteLength_cons, List.cons_append, cut?_cons (by omega), if_pos (by omega), hsub, ih,
      Option.map_map]
    rfl

theorem cut?_byteLength (before after : List Char) :
    cut? (byteLength before) (before ++ after) = some before := by
  simpa using cut?_append before after 0

theorem cut?_past (line : List Char) (k : Nat) : cut? (byteLength line + (k + 1)) line = none := by
  simpa [cut?] using cut?_append line [] (k + 1)

theorem cut?_within (hpos : 0 < k) (hlt : k < c.utf8Size) :
    cut? (byteLength before + k) (before ++ c :: after) = none := by
  rw [cut?_append, cut?_cons hpos, if_neg (Nat.not_le.mpr hlt), Option.map_none]

/-- From within a character the search ends where the character begins. -/
theorem boundaryBelow?_within (hlt : k < c.utf8Size) :
    boundaryBelow? (before ++ c :: after) (byteLength before + k) = some (byteLength before) := by
  induction k with
  | zero =>
    have hcut := cut?_byteLength before (c :: after)
    cases hlength : byteLength before with
    | zero => simp [boundaryBelow?]
    | succ n =>
      rw [hlength] at hcut
      simp [boundaryBelow?, hcut]
  | succ k ih =>
    have hcut : cut? (byteLength before + k + 1) (before ++ c :: after) = none :=
      cut?_within (Nat.succ_pos k) hlt
    rw [← Nat.add_assoc, boundaryBelow?, hcut]
    exact ih (Nat.lt_of_succ_lt hlt)

/-- An offset in a line is in one of its characters. -/
theorem exists_split (h : pos < byteLength line) :
    ∃ before c after k, line = before ++ c :: after ∧ pos = byteLength before + k ∧
      k < c.utf8Size := by
  induction line generalizing pos with
  | nil => exact absurd h (Nat.not_lt_zero pos)
  | cons c line ih =>
    by_cases hc : pos < c.utf8Size
    · exact ⟨[], c, line, pos, rfl, (Nat.zero_add pos).symm, hc⟩
    · rw [byteLength_cons] at h
      have hlt : pos - c.utf8Size < byteLength line := by omega
      obtain ⟨before, d, after, k, rfl, hpos, hk⟩ := ih hlt
      refine ⟨c :: before, d, after, k, rfl, ?_, hk⟩
      rw [byteLength_cons]
      omega

theorem columnAt_within (hlt : k < c.utf8Size) :
    columnAt (byteLength before + k) (before ++ c :: after) = before.length := by
  rw [columnAt_append, columnAt, if_neg (Nat.not_le.mpr hlt), Nat.add_zero]

theorem columnAt_past (line : List Char) (k : Nat) :
    columnAt (byteLength line + k) line = line.length + k := by
  simpa [columnAt] using columnAt_append line [] k

/-- No cut fails, and the search ends at a boundary. -/
theorem cutColumn?_eq (line : List Char) (pos : Nat) :
    cutColumn? line pos = some (columnAt pos line) := by
  by_cases hpos : pos < byteLength line
  · obtain ⟨before, c, after, k, rfl, rfl, hk⟩ := exists_split hpos
    rw [columnAt_within hk, cutColumn?]
    cases k with
    | zero => rw [Nat.add_zero, cut?_byteLength]
    | succ k =>
      rw [cut?_within (Nat.succ_pos k) hk, boundaryBelow?_within hk]
      dsimp only
      rw [if_neg (Nat.not_le.mpr hpos)]
      simp [cut?_byteLength]
  · obtain ⟨k, rfl⟩ := Nat.exists_eq_add_of_le (Nat.not_lt.mp hpos)
    rw [columnAt_past, cutColumn?]
    cases k with
    | zero =>
      have hcut := cut?_byteLength line []
      rw [List.append_nil] at hcut
      rw [Nat.add_zero, hcut, Nat.add_zero]
    | succ k =>
      rw [cut?_past]
      simp

example : [0, 1, 2, 3, 5].map (cutColumn? ['é', '@']) =
    [some 0, some 0, some 1, some 2, some 4] := by decide

end Cuts

section Counting

variable {line : List Char} {c : Char} {pos pos' : Nat}

theorem endedBefore_nil (pos : Nat) : endedBefore [] pos = 0 :=
  rfl

theorem lastByte_cons_succ {i : Nat} (h : i < line.length) :
    lastByte (c :: line) (i + 1) = c.utf8Size + lastByte line i := by
  have hpos : 0 < byteLength (line.take (i + 1)) := by
    rw [List.take_succ_eq_append_getElem h, byteLength_append, byteLength_cons]
    exact Nat.add_pos_right _ (Nat.add_pos_left (Char.utf8Size_pos _) _)
  rw [lastByte, lastByte, List.take_succ_cons, byteLength_cons]
  omega

theorem lastByte_cons_zero : lastByte (c :: line) 0 = c.utf8Size - 1 := by
  simp [lastByte]

/-- A character that has ended is counted, and moves the offset for those after it. -/
theorem endedBefore_cons (c : Char) (line : List Char) (pos : Nat) :
    endedBefore (c :: line) pos =
      if c.utf8Size ≤ pos then endedBefore line (pos - c.utf8Size) + 1 else 0 := by
  have hsize := c.utf8Size_pos
  have hfirst : lastByte (c :: line) 0 < pos ↔ c.utf8Size ≤ pos := by
    rw [lastByte_cons_zero]
    omega
  have hlater : (List.range line.length).countP (fun i => lastByte (c :: line) (i + 1) < pos) =
      if c.utf8Size ≤ pos then endedBefore line (pos - c.utf8Size) else 0 := by
    split
    · refine List.countP_congr fun i hi => ?_
      rw [lastByte_cons_succ (List.mem_range.mp hi)]
      simp only [decide_eq_true_eq]
      omega
    · refine List.countP_eq_zero.mpr fun i hi => ?_
      rw [lastByte_cons_succ (List.mem_range.mp hi)]
      simp only [decide_eq_true_eq]
      omega
  rw [endedBefore, List.length_cons, List.range_succ_eq_map, List.countP_cons, List.countP_map]
  simp only [Function.comp_def, Nat.succ_eq_add_one, hlater, decide_eq_true_eq, hfirst]
  split <;> rfl

/-- The column counts the characters that have ended, and each byte past the end. -/
theorem columnAt_eq (line : List Char) (pos : Nat) :
    columnAt pos line = endedBefore line pos + (pos - byteLength line) := by
  induction line generalizing pos with
  | nil => simp [columnAt, endedBefore_nil]
  | cons c line ih =>
    rw [columnAt, endedBefore_cons, byteLength_cons, ih]
    split <;> omega

theorem endedBefore_mono (line : List Char) (h : pos ≤ pos') :
    endedBefore line pos ≤ endedBefore line pos' := by
  refine List.countP_mono_left fun i _ hi => ?_
  simp only [decide_eq_true_eq] at hi ⊢
  omega

theorem columnAt_mono (line : List Char) : Monotone fun pos => columnAt pos line := by
  intro pos pos' h
  have hended := endedBefore_mono line h
  simp only [columnAt_eq]
  omega

end Counting

/-- What an excerpt shows for a line and a byte offset: the line without the carriage returns at its
end, and a caret after one space for each character that has ended and one for each byte past the
end. The column is the one that cuts of the line give. -/
structure Excerpt.Shows (place : Excerpt) (line : List Char) (pos : Nat) : Prop where
  shown : ShownAs line place.line.toList
  marker : place.marker.toList =
    List.replicate (endedBefore place.line.toList pos + (pos - byteLength place.line.toList)) ' ' ++
      ['^']
  cuts : cutColumn? place.line.toList pos = some place.column

theorem shows_ofOffset (line : String) (pos : Nat) :
    (Excerpt.ofOffset line pos).Shows line.toList pos where
  shown := by simpa using shownAs_ofOffset line.toList pos
  marker := by
    rw [Excerpt.marker, String.toList_ofList, ← columnAt_eq]
    simp [Excerpt.ofOffset]
  cuts := by
    rw [cutColumn?_eq]
    simp [Excerpt.ofOffset]

/-- Errors of both kinds that have a place show the caret under the offset that they were found at,
whatever the line and the offset are, and a greater offset has no smaller column. -/
theorem ofOffset_shows_caret (line : String) :
    (∀ pos, (Excerpt.ofOffset line pos).Shows line.toList pos ∧
      (∀ cause, (CompileError.lexical (.ofOffset line pos) cause).display =
        (Excerpt.ofOffset line pos).line ++ "\n" ++ (Excerpt.ofOffset line pos).marker ++ " " ++
          cause.message) ∧
      ∀ cause, (CompileError.grammatical (.ofOffset line pos) cause).display =
        (Excerpt.ofOffset line pos).line ++ "\n" ++ (Excerpt.ofOffset line pos).marker ++ " " ++
          cause.message) ∧
    Monotone fun pos => (Excerpt.ofOffset line pos).column :=
  ⟨fun pos => ⟨shows_ofOffset line pos, fun _ => rfl, fun _ => rfl⟩,
    columnAt_mono (trimReturns line.toList)⟩

end MiniC
