import MiniC.Grammar.Error
import MiniC.Program.Basic

/-! Reading one construct from the front of a token list.

A step either fails or returns a value and the tokens that remain, which are fewer than before;
every recursion over tokens ends for this reason. Steps look at the texts of tokens only. -/
namespace MiniC

/-- Token lists shorter than `ts`. -/
abbrev Rest (ts : List Token) : Type :=
  { rest : List Token // rest.length < ts.length }

theorem length_lt_length_cons (t : Token) (ts : List Token) : ts.length < (t :: ts).length :=
  Nat.lt_succ_self ts.length

namespace Rest

/-- What follows the first token. -/
def tail (t : Token) (ts : List Token) : Rest (t :: ts) :=
  ⟨ts, length_lt_length_cons t ts⟩

/-- What remains after two steps, the second of which began where the first had ended. -/
def trans {ts : List Token} (first : Rest ts) (second : Rest first.val) : Rest ts :=
  ⟨second.val, Nat.lt_trans second.property first.property⟩

@[simp] theorem val_tail (t : Token) (ts : List Token) : (tail t ts).val = ts :=
  rfl

@[simp] theorem val_trans {ts : List Token} (first : Rest ts) (second : Rest first.val) :
    (first.trans second).val = second.val :=
  rfl

end Rest

/-- The outcome of reading an `α` from the front of `ts`. -/
abbrev Step (α : Type) (ts : List Token) : Type :=
  Except GrammarError (α × Rest ts)

namespace Step

/-- What follows the first token, if that token is written `text`. -/
def accept (text : String) : (ts : List Token) → Option (Rest ts)
  | [] => none
  | t :: ts => if t.text = text then some (.tail t ts) else none

/-- The first token and what follows it, if that token has the form of a word. Keywords are
words too. -/
def word? : (ts : List Token) → Option (Token × Rest ts)
  | [] => none
  | t :: ts => if Token.isWord t.text then some (t, .tail t ts) else none

/-- A token written `text`. -/
def symbol (text : String) (ts : List Token) : Step Unit ts :=
  match accept text ts with
  | some rest => .ok ((), rest)
  | none => .error (.expected (.symbol text) ts.head?)

/-- A token with the form of a word. -/
def identifier (ts : List Token) : Step Token ts :=
  match word? ts with
  | some found => .ok found
  | none => .error (.expected .identifier ts.head?)

/-- The value of a text of decimal digits. -/
def decimal (text : String) : Nat :=
  Nat.ofDigitChars 10 text.toList 0

/-- The largest number that can be written. -/
def maxNumber : Nat := 9223372036854775807

/-- A number: digits only, at least one, and not too large a value. -/
def number : (ts : List Token) → Step Int64 ts
  | [] => .error (.expected .number none)
  | t :: ts =>
    if t.text.toList.all Char.isDigit then
      if t.text = "" then .error (.emptyNumber t)
      else if decimal t.text ≤ maxNumber then .ok (Int64.ofNat (decimal t.text), .tail t ts)
      else .error (.numberTooLarge t)
    else .error (.expected .number (some t))

/-- All constructs of one kind up to the end of the tokens. -/
def many {α : Type} (step : (ts : List Token) → Step α ts) :
    List Token → Except GrammarError (List α)
  | [] => return []
  | t :: ts => do
    let (x, ⟨rest, _⟩) ← step (t :: ts)
    return x :: (← many step rest)
termination_by ts => ts.length
decreasing_by assumption

end Step

end MiniC
