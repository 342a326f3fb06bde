/-
  WordExpr.Literal

  The literals of expressions and assignments: hexadecimal after `0x`, decimal otherwise,
  where a decimal literal may carry `u` suffixes that mean nothing. A literal denotes a
  word, so its value is reduced to the width at hand.
-/
import WordExpr.Word
import WordExpr.Numeral

namespace WordExpr.Literal

/-- Why a literal denotes no word. -/
inductive Failure where
  | numeral (e : Numeral.Failure)
  | width (e : WidthError)
  deriving DecidableEq, Repr

/-- The wording of a failure. -/
def Failure.message : Failure → String
  | numeral e => e.message
  | width e => e.message

/-- The suffix letters of decimal literals. -/
def isSuffix (c : Char) : Bool := c = 'u' || c = 'U'

/-- The integer that a literal denotes, before it is reduced to a word. -/
def read (text : String) : Except Numeral.Failure Int :=
  match text.toList with
  | '0' :: 'x' :: r | '0' :: 'X' :: r => Numeral.read .hexadecimal (String.ofList r)
  | cs => Numeral.read .decimal (String.ofList (Text.dropEndWhile isSuffix cs))

/-- The word that a literal denotes. A text that is no numeral is refused before the width
    is looked at. -/
def value (text : String) (bits : Int) : Except Failure Nat :=
  match read text with
  | .error e => .error (.numeral e)
  | .ok n =>
    match Word.reduce bits n with
    | .error e => .error (.width e)
    | .ok v => .ok v

end WordExpr.Literal
