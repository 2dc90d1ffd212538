/-! Physical lines of a source text, and lengths in bytes.

Lines end at line feeds only, so a carriage return stays in its line, and every text has at
least one line. -/
namespace MiniC

/-- The length of a text in bytes. -/
def byteLength : List Char → Nat
  | [] => 0
  | c :: cs => c.utf8Size + byteLength cs

@[simp] theorem byteLength_nil : byteLength [] = 0 :=
  rfl

@[simp] theorem byteLength_cons (c : Char) (cs : List Char) :
    byteLength (c :: cs) = c.utf8Size + byteLength cs :=
  rfl

@[simp] theorem byteLength_append (cs ds : List Char) :
    byteLength (cs ++ ds) = byteLength cs + byteLength ds := by
  induction cs with
  | nil => simp
  | cons c cs ih => simp [ih, Nat.add_assoc]

theorem utf8ByteSize_ofList (cs : List Char) :
    (String.ofList cs).utf8ByteSize = byteLength cs := by
  induction cs with
  | nil => rfl
  | cons c cs ih =>
    rw [show c :: cs = [c] ++ cs from rfl, String.ofList_append, String.utf8ByteSize_append, ih]
    simp

namespace Source

/-- The lines of a text, each without its line feed. -/
def lineChars : List Char → List (List Char)
  | [] => [[]]
  | c :: cs => if c = '\n' then [] :: lineChars cs else (lineChars cs).modifyHead (c :: ·)

theorem lineChars_ne_nil (cs : List Char) : lineChars cs ≠ [] := by
  induction cs with
  | nil => simp [lineChars]
  | cons c cs ih => by_cases h : c = '\n' <;> simp [lineChars, h, ih]

theorem newline_not_mem {cs l : List Char} (h : l ∈ lineChars cs) : '\n' ∉ l := by
  induction cs generalizing l with
  | nil => simp_all [lineChars]
  | cons c cs ih =>
    by_cases hc : c = '\n'
    · simp only [lineChars, hc, if_true, List.mem_cons] at h
      rcases h with rfl | h
      · simp
      · exact ih h
    · cases hl : lineChars cs with
      | nil => exact absurd hl (lineChars_ne_nil cs)
      | cons first rest =>
        simp only [lineChars, hc, if_false, hl, List.modifyHead_cons, List.mem_cons] at h ih
        rcases h with rfl | h
        · simpa [Ne.symm hc] using ih (.inl rfl)
        · exact ih (.inr h)

/-- No character is lost: the lines, joined by line feeds, are the text. -/
theorem intercalate_lineChars (cs : List Char) : ['\n'].intercalate (lineChars cs) = cs := by
  induction cs with
  | nil => rfl
  | cons c cs ih =>
    cases hl : lineChars cs with
    | nil => exact absurd hl (lineChars_ne_nil cs)
    | cons first rest =>
      rw [hl] at ih
      by_cases hc : c = '\n'
      · simp only [lineChars, hc, if_true, hl]
        rw [List.intercalate_cons_cons, ih]
        rfl
      · simp only [lineChars, hc, if_false, hl, List.modifyHead_cons]
        cases rest <;> simp_all

/-- The physical lines of a source, from the first. -/
def lines (source : String) : List String :=
  (lineChars source.toList).map String.ofList

/-- The line with a zero-based index; past the last line it is empty. -/
def line (source : String) (index : Nat) : String :=
  ((lines source)[index]?).getD ""

end Source

end MiniC
