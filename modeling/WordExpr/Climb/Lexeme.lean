/-
  WordExpr.Climb.Lexeme

  The lexemes of plain arithmetic: numerals, the arithmetic and comparison operators, and
  brackets. White space and decimal digits of every script count; a numeral has no length
  limit, and there are no registers and no logical operators.

  A text is scanned as a whole before anything is computed.
-/
import WordExpr.Operator
import WordExpr.Lexer.Rule
import WordExpr.Text.Blank
import WordExpr.Text.Digit

namespace WordExpr.Climb

/-- A lexeme of plain arithmetic. -/
inductive Lexeme where
  | numeral (text : String)
  | op (op : BinOp)
  | lparen
  | rparen
  deriving DecidableEq, Repr

/-- The text of a lexeme. -/
def Lexeme.text : Lexeme → String
  | numeral text => text
  | op o => o.spelling
  | lparen => "("
  | rparen => ")"

/-- A character at which no lexeme starts, and the text that was scanned. -/
structure ScanError where
  found : Char
  text : String
  deriving DecidableEq, Repr

/-- The wording of a scanning error. -/
def ScanError.message (e : ScanError) : String :=
  "Unexpected character '" ++ e.found.toString ++ "' in expression '" ++ e.text ++ "'"

/-- Is this a hexadecimal digit? -/
def isHexDigit (c : Char) : Bool := Lexer.CharClass.contains ⟨Lexer.hexDigits⟩ c

/-- The decimal numeral at the start of a text, with its suffix. -/
def decimal? (cs : List Char) : Option Lexeme :=
  let digits := cs.takeWhile Text.isDecimal
  if digits.isEmpty then none
  else match cs.drop digits.length with
    | 'u' :: _ => some (.numeral (String.ofList (digits ++ ['u'])))
    | _ => some (.numeral (String.ofList digits))

/-- The lexeme at the start of a text. -/
def lexeme? (cs : List Char) : Option Lexeme :=
  match cs with
  | '0' :: 'x' :: r =>
    let digits := r.takeWhile isHexDigit
    if digits.isEmpty then decimal? cs
    else some (.numeral (String.ofList ('0' :: 'x' :: digits)))
  | '=' :: '=' :: _ => some (.op .eq)
  | '!' :: '=' :: _ => some (.op .ne)
  | '-' :: _ => some (.op .sub)
  | '+' :: _ => some (.op .add)
  | '*' :: _ => some (.op .mul)
  | '/' :: _ => some (.op .div)
  | '%' :: _ => some (.op .mod)
  | '(' :: _ => some .lparen
  | ')' :: _ => some .rparen
  | _ => decimal? cs

/-- The lexemes of the rest of a text, behind those found so far. Where none starts, the
    character named is the first one not scanned, a blank if blanks come first. -/
def scanFrom (text : String) (cs : List Char) (found : Array Lexeme) :
    Except ScanError (Array Lexeme) :=
  match cs with
  | [] => .ok found
  | c :: more =>
    let start := (c :: more).dropWhile Text.isBlank
    match lexeme? start with
    | none => .error ⟨c, text⟩
    | some lexeme =>
      if _h : lexeme.text.length = 0 then .error ⟨c, text⟩
      else scanFrom text (start.drop lexeme.text.length) (found.push lexeme)
termination_by cs.length
decreasing_by
  have := (List.dropWhile_sublist (l := c :: more) Text.isBlank).length_le
  simp only [List.length_drop, List.length_cons] at *
  omega

/-- The lexemes of a text, trailing blanks apart. -/
def scan (text : String) : Except ScanError (Array Lexeme) :=
  let cs := Text.stripEnd text.toList
  scanFrom (String.ofList cs) cs #[]

end WordExpr.Climb
