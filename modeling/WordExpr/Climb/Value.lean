/-
  WordExpr.Climb.Value

  The value of plain arithmetic by precedence climbing: comparisons bind loosest, then
  sums, then products, and every level associates to the left. Each operator is applied as
  soon as its right operand is known, so a division by zero is reported before anything
  that is wrong further right.

  Brackets may nest as deep as a text has them. The limit of the interpreter's stack, on which
  the recursion runs, is left out: it depends on the caller and on the configuration, and on
  nothing in the text. The limit on the digits of a decimal numeral is kept
  (`Numeral.maxDecimalDigits`).
-/
import WordExpr.Climb.Lexeme
import WordExpr.Numeral

namespace WordExpr.Climb

/-- Binding strength: the larger it is, the tighter the operator binds. Plain arithmetic
    has no logical operators. -/
def strength? : BinOp → Option Nat
  | .eq | .ne => some 1
  | .add | .sub => some 2
  | .mul | .div | .mod => some 3
  | .and | .or => none

/-- Why a text has no value as plain arithmetic. -/
inductive Failure where
  | scan (e : ScanError)
  | unexpectedEnd
  | missingParenthesis
  | unexpectedToken (text : String)
  | trailing (texts : List String)
  | numeral (e : Numeral.Failure)
  /-- There are no words of a negative number of bits. -/
  | negativeWidth
  | operator (e : BinOp.Failure)
  deriving DecidableEq, Repr

/-- The wording of a negative number of bits. -/
def negativeWidthMessage : String := "negative shift count"

/-- The wording of a failure. -/
def Failure.message : Failure → String
  | scan e => e.message
  | unexpectedEnd => "Unexpected end of expression"
  | missingParenthesis => "Missing closing parenthesis"
  | unexpectedToken text => "Unexpected token: '" ++ text ++ "'"
  | trailing texts => "Trailing tokens in expression: " ++ " ".intercalate texts
  | numeral e => e.message
  | negativeWidth => negativeWidthMessage
  | operator e => e.message

/-- The integer that a numeral denotes. -/
def readNumeral (text : String) : Except Numeral.Failure Int :=
  match text.toList with
  | '0' :: 'x' :: _ => Numeral.read .hexadecimal text
  | cs => Numeral.read .decimal (String.ofList (Text.dropEndWhile (· = 'u') cs))

/-- The value of a numeral: its last `bits` binary digits, for any number of bits. -/
def numeralValue (bits : Int) (text : String) : Except Failure Nat :=
  match readNumeral text with
  | .error e => .error (.numeral e)
  | .ok n => if bits < 0 then .error .negativeWidth else .ok (n % (1 <<< bits.toNat : Nat)).toNat

/-- A value read from a list of lexemes, and the lexemes behind it: fewer than `bound`. -/
structure Reading (bound : Nat) where
  value : Nat
  rest : List Lexeme
  fits : rest.length < bound

/-- A reading below a bound, as one below a larger bound. -/
def Reading.widen {m n : Nat} (r : Reading m) (h : m ≤ n) : Reading n :=
  ⟨r.value, r.rest, Nat.lt_of_lt_of_le r.fits h⟩

mutual

/-- The value of the numeral or bracket at the start. -/
def atom (bits : Int) (ls : List Lexeme) : Except Failure (Reading ls.length) :=
  match ls with
  | [] => .error .unexpectedEnd
  | .lparen :: rest =>
    match binary bits 0 rest with
    | .error e => .error e
    | .ok ⟨value, .rparen :: after, h⟩ =>
      .ok ⟨value, after, by simp only [List.length_cons] at *; omega⟩
    | .ok _ => .error .missingParenthesis
  | .numeral text :: rest =>
    match numeralValue bits text with
    | .error e => .error e
    | .ok value => .ok ⟨value, rest, by simp⟩
  | other :: _ => .error (.unexpectedToken other.text)
termination_by (ls.length, 0)

/-- The value of the longest expression at the start whose operators outside brackets have
    at least this strength. -/
def binary (bits : Int) (least : Nat) (ls : List Lexeme) :
    Except Failure (Reading ls.length) :=
  match atom bits ls with
  | .error e => .error e
  | .ok ⟨value, rest, h⟩ =>
    match chain bits least value rest with
    | .error e => .error e
    | .ok r => .ok (r.widen h)
termination_by (ls.length, 1)

/-- The value of a left operand and the operators of at least this strength that follow. -/
def chain (bits : Int) (least left : Nat) (ls : List Lexeme) :
    Except Failure (Reading (ls.length + 1)) :=
  match ls with
  | .op o :: rest =>
    match strength? o with
    | none => .ok ⟨left, .op o :: rest, by simp⟩
    | some strength =>
      if strength < least then .ok ⟨left, .op o :: rest, by simp⟩
      else match binary bits (strength + 1) rest with
        | .error e => .error e
        | .ok ⟨right, after, h⟩ =>
          -- The operator is applied before anything further right is read.
          match o.apply bits left right with
          | .error e => .error (.operator e)
          | .ok value =>
            match chain bits least value after with
            | .error e => .error e
            | .ok r => .ok (r.widen (by simp only [List.length_cons]; omega))
  | ls => .ok ⟨left, ls, by simp⟩
termination_by (ls.length, 2)

end

/-- The value of a list of lexemes, all of which have to be used. -/
def valueOf (bits : Int) (ls : List Lexeme) : Except Failure Nat :=
  match binary bits 0 ls with
  | .error e => .error e
  | .ok ⟨value, [], _⟩ => .ok value
  | .ok ⟨_, rest, _⟩ => .error (.trailing (rest.map Lexeme.text))

/-- The value of a text as plain arithmetic on words of `bits` bits. Any number of bits
    will do for a numeral alone; an operator needs a supported width. -/
def evaluate (bits : Int) (text : String) : Except Failure Nat :=
  match scan text with
  | .error e => .error (.scan e)
  | .ok ls => valueOf bits ls.toList

end WordExpr.Climb
