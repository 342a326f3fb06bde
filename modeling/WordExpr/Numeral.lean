/-
  WordExpr.Numeral

  Reading an integer from a whole text, in base 10 or 16. The text may be padded with
  white space and may start with a sign; single underscores may stand between digits; a
  hexadecimal numeral may announce itself by `0x`. Digits of every script count as their
  ASCII counterparts, except that a text of ASCII characters alone is taken as it is.

  Decimal numerals of more than `maxDecimalDigits` digits are refused.
-/
import WordExpr.Text.Blank
import WordExpr.Text.Digit
import WordExpr.Text.Quoted

namespace WordExpr.Numeral

/-- The bases in which numerals are read. -/
inductive Base where
  | decimal
  | hexadecimal
  deriving DecidableEq, Repr

/-- The number that a base is the base of. -/
def Base.radix : Base → Nat
  | decimal => 10
  | hexadecimal => 16

/-- Most digits that a decimal numeral may have. -/
def maxDecimalDigits : Nat := 4300

/-- Most characters of a refused text that a message quotes. -/
def maxQuoted : Nat := 200

/-- Why a text is not read as an integer. -/
inductive Failure where
  /-- The text is no numeral of the base. -/
  | malformed (base : Base) (text : String)
  /-- The numeral has more decimal digits than are read. -/
  | tooManyDigits (digits : Nat)
  deriving DecidableEq, Repr

/-- The wording of a failure. The text is quoted, and the quotation cut when it is long. -/
def Failure.message : Failure → String
  | malformed base text =>
    "invalid literal for int() with base " ++ toString base.radix ++ ": "
      ++ String.ofList ((Text.quoted text).toList.take maxQuoted)
  | tooManyDigits digits =>
    "Exceeds the limit (" ++ toString maxDecimalDigits
      ++ " digits) for integer string conversion: value has " ++ toString digits
      ++ " digits; use sys.set_int_max_str_digits() to increase the limit"

/-! ## Characters -/

/-- A character of a text that is not all ASCII, as the ASCII character that plays its
    part: a space, a digit, or a character that no numeral holds. -/
def asciiPart (c : Char) : Char :=
  if c.toNat < 127 then c
  else if Text.isBlank c then ' '
  else match Text.digitValue? c with
    | some d => Nat.digitChar d
    | none => '?'

/-- A text in the ASCII characters that numerals are made of. -/
def asciiForm (cs : List Char) : List Char :=
  if cs.all fun c => c.toNat < 128 then cs else cs.map asciiPart

/-- The value of an ASCII character as a digit of a base. -/
def digit? (base : Base) (c : Char) : Option Nat :=
  (Text.asciiDigitValue? c).filter fun d => d < base.radix

/-- Can the character stand in the body of a numeral? -/
def isBody (base : Base) (c : Char) : Bool := c = '_' || (digit? base c).isSome

/-! ## The parts of a numeral -/

/-- A sign, and what follows it. -/
def splitSign : List Char → Bool × List Char
  | '+' :: r => (false, r)
  | '-' :: r => (true, r)
  | r => (false, r)

/-- What follows the announcement of a base, which may be followed by one underscore. -/
def dropAnnouncement (base : Base) (cs : List Char) : List Char :=
  match base, cs with
  | .hexadecimal, '0' :: x :: r =>
    if x = 'x' || x = 'X' then
      match r with
      | '_' :: r => r
      | r => r
    else cs
  | _, _ => cs

/-- Do underscores stand only between digits: none last, no two in a row? -/
def separated : List Char → Bool
  | [] => true
  | ['_'] => false
  | '_' :: '_' :: _ => false
  | _ :: r => separated r

/-- The value of a body, most significant digit first; underscores count for nothing. -/
def bodyValue (base : Base) (body : List Char) : Nat :=
  (body.filterMap (digit? base)).foldl (fun v d => v * base.radix + d) 0

/-- The integer that an unsigned numeral denotes, which is to fill the text up to blanks.
    A misplaced underscore is noticed first, then a decimal numeral that is too long, then
    an empty body or a text that goes on. -/
def readUnsigned (base : Base) (text : String) (cs : List Char) : Except Failure Nat :=
  let body := cs.takeWhile (isBody base)
  let rest := cs.dropWhile (isBody base)
  let digits := (body.filterMap (digit? base)).length
  -- The order of the three tests decides which failure a text with several faults has.
  if body.head? = some '_' || !separated body then .error (.malformed base text)
  else if base = .decimal && maxDecimalDigits < digits then .error (.tooManyDigits digits)
  else if body.isEmpty || !rest.all Text.isAsciiSpace then .error (.malformed base text)
  else .ok (bodyValue base body)

/-- The integer that a text denotes in a base. -/
def read (base : Base) (text : String) : Except Failure Int :=
  let (negative, unsigned) :=
    splitSign ((asciiForm text.toList).dropWhile Text.isAsciiSpace)
  match readUnsigned base text (dropAnnouncement base unsigned) with
  | .error e => .error e
  | .ok n => .ok (if negative then -(n : Int) else n)

end WordExpr.Numeral
