/-
  WordExpr.Eval.Error

  Why an expression has no value. `ExprError` holds what a user can do wrong in an
  expression; `EvalError` adds what a caller can do wrong around it: a word width that is
  not supported, and token lists or ranges that no text has.
-/
import WordExpr.Range
import WordExpr.Literal
import WordExpr.Lexer.Error

namespace WordExpr

/-- Why an expression has no value. -/
inductive ExprError where
  /-- The text is not split into tokens. -/
  | lex (e : LexError)
  /-- There are no tokens at all. -/
  | emptyExpression
  /-- An operator or a pair of brackets encloses nothing; the index is where the operand
      would start. -/
  | emptyOperand (start : Nat)
  /-- An operand is a single operator or bracket. -/
  | notANumber (token : Token) (index : Nat)
  /-- A range of several tokens has no operator to split it on. -/
  | noMainOperator (range : String)
  /-- A register has no value. -/
  | unknownRegister (name : String)
  /-- A division or remainder by zero. -/
  | zeroDivisor (z : ZeroDivisor)
  /-- Brackets and right operands are nested deeper than allowed. -/
  | nestingTooDeep (limit : Int)
  deriving DecidableEq, Repr

/-- The wording of an error. -/
def ExprError.message : ExprError → String
  | lex e => e.message
  | emptyExpression => "empty expression"
  | emptyOperand start => "empty operand at token " ++ toString start
  | notANumber token index =>
    "'" ++ token.text ++ "' at token " ++ toString index ++ " is not a number"
  | noMainOperator range => "no main operator in '" ++ range ++ "'"
  | unknownRegister name => "unknown register '$" ++ name ++ "'"
  | zeroDivisor z => z.message
  | nestingTooDeep limit => "expression nested deeper than " ++ toString limit ++ " levels"

/-- Why an evaluation stops without a value. -/
inductive EvalError where
  | expr (e : ExprError)
  | literal (e : Numeral.Failure)
  | width (e : WidthError)
  | unknownOperator (spelling : String)
  | missingToken (m : MissingToken)
  deriving DecidableEq, Repr

namespace EvalError

/-- The wording of an error. -/
def message : EvalError → String
  | expr e => e.message
  | literal e => e.message
  | width e => e.message
  | unknownOperator s => (BinOp.Failure.unknownOperator s).message
  | missingToken m => m.message

/-- A literal's failure as an error of the evaluation. -/
def ofLiteral : Literal.Failure → EvalError
  | .numeral e => literal e
  | .width e => width e

/-- An operator's failure as an error of the evaluation. -/
def ofOperator : BinOp.Failure → EvalError
  | .unknownOperator s => unknownOperator s
  | .width e => width e
  | .zeroDivisor z => expr (.zeroDivisor z)

end EvalError

end WordExpr
