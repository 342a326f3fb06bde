/-
  WordExpr.Lexer.Lexing

  Splitting a text into tokens. At each position a match is chosen and logged, and the
  text goes on behind it. Operands may have `maxLexeme` characters; the number of tokens
  is limited too, and of two limits broken at once the length of the operand is reported.

  The way to choose a match is a parameter, so that the first-match lexer that the program
  uses can be compared with a longest-match one.
-/
import WordExpr.Lexer.Rule
import WordExpr.Lexer.Error

namespace WordExpr.Lexer

/-- Most characters of an operand. -/
def maxLexeme : Nat := 31

/-- Most tokens of an expression where no other limit is given. -/
def defaultMaxTokens : Int := 4096

/-- A match at a position of a text, as it is logged. -/
structure Match where
  index : Nat
  rule : Rule
  position : Nat
  lexeme : String
  deriving DecidableEq, Repr

/-- The log line of a match. -/
def Match.describe (m : Match) : String :=
  "match rule[" ++ toString m.index ++ "] = " ++ Text.quoted m.rule.pattern.source
    ++ " at position " ++ toString m.position ++ " with len " ++ toString m.lexeme.length
    ++ ": " ++ m.lexeme

/-- The outcome of lexing: the matches met on the way, and tokens or an error. -/
structure Lexing where
  log : Array Match
  result : Except LexError (Array Token)
  deriving Repr

/-- The token of a matched lexeme: operands keep it, all else has its spelling. -/
def tokenOf (kind : TokenKind) (lexeme : String) : Token :=
  if kind.isOperand then ⟨kind, lexeme⟩ else .spelled kind

/-- The tokens with one more, unless a limit is broken. -/
def accept (maxTokens : Int) (tokens : Array Token) (kind : TokenKind) (lexeme : String) :
    Except LexError (Array Token) :=
  if kind.isOperand && maxLexeme < lexeme.length then .error (.lexemeTooLong lexeme maxLexeme)
  else if maxTokens ≤ (tokens.size : Int) then .error (.tooManyTokens maxTokens)
  else .ok (tokens.push (tokenOf kind lexeme))

/-- Lexes the rest `cs` of a text, which starts at a position of it, behind the tokens and
    matches met so far. -/
def lexFrom (choose : List Char → Option Hit) (maxTokens : Int) (text : String)
    (position : Nat) (cs : List Char) (tokens : Array Token) (log : Array Match) : Lexing :=
  match cs with
  | [] => ⟨log, .ok tokens⟩
  | c :: more =>
    match choose (c :: more) with
    | none => ⟨log, .error (.noMatch text position)⟩
    | some hit =>
      if _h : hit.length = 0 then ⟨log, .error (.noMatch text position)⟩
      else
        let lexeme := String.ofList ((c :: more).take hit.length)
        let rest := (c :: more).drop hit.length
        let log := log.push ⟨hit.index, hit.rule, position, lexeme⟩
        -- The match is logged before any limit is looked at.
        match hit.rule.kind with
        | none => lexFrom choose maxTokens text (position + hit.length) rest tokens log
        | some kind =>
          match accept maxTokens tokens kind lexeme with
          | .error e => ⟨log, .error e⟩
          | .ok tokens => lexFrom choose maxTokens text (position + hit.length) rest tokens log
termination_by cs.length
decreasing_by
  all_goals
    simp only [List.length_drop, List.length_cons]
    omega

/-- Lexes a text, choosing matches in the given way. -/
def lexWith (choose : List Char → Option Hit) (maxTokens : Int) (text : String) : Lexing :=
  lexFrom choose maxTokens text 0 text.toList #[] #[]

/-- Lexes a text by the rules of expressions, the first match winning. -/
def lex (text : String) (maxTokens : Int) : Lexing :=
  lexWith (firstHit? rules) maxTokens text

/-- The tokens of a text. -/
def tokenize (text : String) (maxTokens : Int) : Except LexError (Array Token) :=
  (lex text maxTokens).result

end WordExpr.Lexer
