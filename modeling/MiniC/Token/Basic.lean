/-! Tokens and the characters they are made of. -/
namespace MiniC

/-- The three kinds of token. Keywords are words like any other. -/
inductive TokenKind where
  | punctuator
  | number
  | word
  deriving DecidableEq, Repr

/-- A piece of the source, with the index of its line and its byte offset in that line. -/
structure Token where
  kind : TokenKind
  text : String
  line : Nat
  pos : Nat
  deriving DecidableEq, Repr

namespace Token

/-- Byte offset just past the token. -/
def stop (t : Token) : Nat :=
  t.pos + t.text.utf8ByteSize

/-- The punctuators. One that begins with another stands before it, so the first that matches
is the longest that matches. -/
def punctuators : List String :=
  ["==", "!=", ">=", "<=", ">", "<", "+", "-", "*", "/", "(", ")", "\x7b", "\x7d", ";", ",", "=",
    "&"]

/-- Characters that separate tokens within a line. -/
def isBlank (c : Char) : Bool :=
  c = ' ' || c = '\t' || c = '\r'

/-- An ASCII letter or an underscore. -/
def isWordStart (c : Char) : Bool :=
  c.isAlpha || c = '_'

/-- An ASCII letter, a digit or an underscore. -/
def isWordRest (c : Char) : Bool :=
  c.isAlphanum || c = '_'

/-- Whether a text has the form of a word: a letter or underscore, then letters, digits and
underscores. -/
def isWord (text : String) : Bool :=
  match text.toList with
  | [] => false
  | c :: cs => isWordStart c && cs.all isWordRest

/-- All token texts in order, `{a, =, 1}`. -/
def listing (tokens : List Token) : String :=
  "\x7b" ++ String.intercalate ", " (tokens.map text) ++ "\x7d"

end Token

end MiniC
