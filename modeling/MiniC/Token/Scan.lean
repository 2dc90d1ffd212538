import MiniC.Source
import MiniC.Token.Basic

/-! Cutting a source into tokens.

Every physical line is scanned on its own. At each place a blank is skipped, or the longest
lexeme that stands there becomes a token. -/
namespace MiniC

/-- A character that neither separates tokens nor begins one, with the index of its line and
its byte offset in that line. -/
structure InvalidCharacter where
  char : Char
  line : Nat
  pos : Nat
  deriving DecidableEq, Repr

/-- What the fault is, in words. -/
def InvalidCharacter.message (e : InvalidCharacter) : String :=
  "invalid token: '" ++ String.singleton e.char ++ "'"

namespace Token

/-- The lexeme that stands at `c` when `cs` follows it: its kind and its characters after `c`. -/
def lexeme? (c : Char) (cs : List Char) : Option (TokenKind × List Char) :=
  match punctuators.find? fun p => p.toList.isPrefixOf (c :: cs) with
  | some p => some (.punctuator, p.toList.tail)
  | none =>
    if c.isDigit then some (.number, cs.takeWhile Char.isDigit)
    else if isWordStart c then some (.word, cs.takeWhile isWordRest)
    else none

/-- A lexeme takes the characters that follow. -/
theorem isPrefix_of_lexeme? {c : Char} {cs tail : List Char} {kind : TokenKind}
    (h : lexeme? c cs = some (kind, tail)) : tail <+: cs := by
  unfold lexeme? at h
  split at h
  · next p hp =>
    have hp := List.find?_some hp
    obtain ⟨-, rfl⟩ := by simpa using h
    cases ht : p.toList with
    | nil => simp
    | cons d ds => simp_all
  · split at h
    · obtain ⟨-, rfl⟩ := by simpa using h
      exact List.takeWhile_prefix _
    · split at h
      · obtain ⟨-, rfl⟩ := by simpa using h
        exact List.takeWhile_prefix _
      · simp at h

/-- The tokens of the rest of line `line` from byte offset `pos` on. -/
def scanLine (line : Nat) : Nat → List Char → Except InvalidCharacter (List Token)
  | _, [] => .ok []
  | pos, c :: cs =>
    if isBlank c then scanLine line (pos + c.utf8Size) cs
    else match lexeme? c cs with
      | none => .error ⟨c, line, pos⟩
      | some (kind, tail) => do
        let token : Token := ⟨kind, String.ofList (c :: tail), line, pos⟩
        return token :: (← scanLine line token.stop (cs.drop tail.length))
termination_by _ cs => cs.length
decreasing_by all_goals (simp only [List.length_cons, List.length_drop]; omega)

/-- The tokens of consecutive lines, the first of which has index `line`. -/
def scanLines : Nat → List (List Char) → Except InvalidCharacter (List Token)
  | _, [] => .ok []
  | line, cs :: rest => do
    let tokens ← scanLine line 0 cs
    return tokens ++ (← scanLines (line + 1) rest)

/-- All tokens of a source, or the first character that belongs to none. -/
def scan (source : String) : Except InvalidCharacter (List Token) :=
  scanLines 0 (Source.lineChars source.toList)

end Token

end MiniC
