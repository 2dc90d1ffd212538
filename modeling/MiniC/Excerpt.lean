import MiniC.Source

/-! A source line with a caret under one of its characters.

Positions come as byte offsets and are shown as columns, that is as counts of characters:
`columnAt` makes the step from one to the other. -/
namespace MiniC

/-- The column of byte offset `pos` in a line: the number of characters that end at or before
`pos`. Past the end of the line each further byte counts as one column. -/
def columnAt : Nat → List Char → Nat
  | pos, [] => pos
  | pos, c :: cs => if c.utf8Size ≤ pos then columnAt (pos - c.utf8Size) cs + 1 else 0

@[simp] theorem columnAt_zero_cons (c : Char) (cs : List Char) : columnAt 0 (c :: cs) = 0 := by
  simp [columnAt, Nat.not_le.2 c.utf8Size_pos]

/-- Whole characters before the offset count one each. -/
theorem columnAt_append (before rest : List Char) (pos : Nat) :
    columnAt (byteLength before + pos) (before ++ rest) = before.length + columnAt pos rest := by
  induction before with
  | nil => simp
  | cons c before ih =>
    have h : c.utf8Size + byteLength before + pos - c.utf8Size = byteLength before + pos := by omega
    simp only [byteLength_cons, List.cons_append, columnAt, h, ih, List.length_cons]
    rw [if_pos (by omega)]
    omega

/-- A line without the carriage returns at its end. -/
def trimReturns (line : List Char) : List Char :=
  (line.reverse.dropWhile (· = '\r')).reverse

/-- A line to show, and the column that its caret stands in. -/
structure Excerpt where
  line : String
  column : Nat
  deriving DecidableEq, Repr

namespace Excerpt

/-- The excerpt of a line for byte offset `pos`. -/
def ofOffset (line : String) (pos : Nat) : Excerpt where
  line := String.ofList (trimReturns line.toList)
  column := columnAt pos (trimReturns line.toList)

/-- Spaces up to the column, and the caret. -/
def marker (e : Excerpt) : String :=
  String.ofList (List.replicate e.column ' ' ++ ['^'])

/-- The line, and below it the caret followed by a message. -/
def annotate (e : Excerpt) (message : String) : String :=
  e.line ++ "\n" ++ e.marker ++ " " ++ message

end Excerpt

end MiniC
