/-
  WordExpr.Token

  The tokens of expressions: operands, which keep the text that they were read from, and
  operators and brackets, whose text is their spelling.
-/
import WordExpr.Operator
import WordExpr.Text.Quoted

namespace WordExpr

/-- What a token is. -/
inductive TokenKind where
  | dec
  | hex
  | reg
  | op (op : BinOp)
  | lparen
  | rparen
  deriving DecidableEq, Repr

namespace TokenKind

/-- All kinds, operands first. -/
def all : List TokenKind :=
  [dec, hex, reg] ++ BinOp.all.map op ++ [lparen, rparen]

/-- The name of a kind. -/
def name : TokenKind → String
  | dec => "DEC"
  | hex => "HEX"
  | reg => "REG"
  | op .add => "ADD"
  | op .sub => "SUB"
  | op .mul => "MUL"
  | op .div => "DIV"
  | op .mod => "MOD"
  | op .eq => "EQ"
  | op .ne => "NEQ"
  | op .and => "AND"
  | op .or => "OR"
  | lparen => "LPAREN"
  | rparen => "RPAREN"

/-- The kind of a name. -/
def ofName? (s : String) : Option TokenKind :=
  all.find? fun k => k.name == s

/-- The text of a token of this kind that has no other text. -/
def spelling : TokenKind → String
  | dec => "dec"
  | hex => "hex"
  | reg => "reg"
  | op o => o.spelling
  | lparen => "("
  | rparen => ")"

/-- Literals and registers are operands. -/
def isOperand : TokenKind → Bool
  | dec | hex | reg => true
  | _ => false

/-- All but operands and brackets are operators. -/
def isOperator : TokenKind → Bool
  | op _ => true
  | _ => false

@[simp] theorem ofName?_name (k : TokenKind) : ofName? k.name = some k := by
  cases k with
  | op o => cases o <;> decide
  | _ => decide

end TokenKind

/-- A lexical unit. -/
structure Token where
  kind : TokenKind
  text : String
  deriving DecidableEq, Repr

namespace Token

/-- The token of a kind whose text is the kind's spelling. -/
def spelled (kind : TokenKind) : Token := ⟨kind, kind.spelling⟩

/-- A token as traces show it. -/
def describe (t : Token) : String :=
  "Token(" ++ t.kind.name ++ ", " ++ Text.quoted t.text ++ ")"

/-- The texts of tokens, one after the other. -/
def compact (ts : List Token) : String :=
  String.join (ts.map Token.text)

/-- The texts of the tokens from index `lo` up to, but not including, index `hi`. Indices
    past the end are cut off. -/
def compactRange (ts : Array Token) (lo hi : Nat) : String :=
  compact (ts.extract lo hi).toList

/-- What a token answers to being changed. -/
def immutableMessage : String := "Token is immutable"

end Token

end WordExpr
