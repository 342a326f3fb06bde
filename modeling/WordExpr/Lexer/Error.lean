/-
  WordExpr.Lexer.Error

  Why a text is not split into tokens.
-/

namespace WordExpr

/-- Why a text is not split into tokens. -/
inductive LexError where
  /-- No rule matches at this position of the text. -/
  | noMatch (text : String) (position : Nat)
  /-- An operand is longer than operands may be. -/
  | lexemeTooLong (lexeme : String) (limit : Nat)
  /-- There are more tokens than asked for. -/
  | tooManyTokens (limit : Int)
  deriving DecidableEq, Repr

/-- How much of an overlong operand a message shows. -/
def LexError.shownLexeme : Nat := 16

/-- The wording of an error. A position is shown by a caret under the text. -/
def LexError.message : LexError → String
  | noMatch text position =>
    "no match at position " ++ toString position ++ "\n" ++ text ++ "\n"
      ++ String.ofList (List.replicate position ' ') ++ "^"
  | lexemeTooLong lexeme limit =>
    "lexeme too long (" ++ toString lexeme.length ++ " > " ++ toString limit ++ "): '"
      ++ String.ofList (lexeme.toList.take shownLexeme) ++ "...'"
  | tooManyTokens limit => "expression exceeds " ++ toString limit ++ " tokens"

end WordExpr
