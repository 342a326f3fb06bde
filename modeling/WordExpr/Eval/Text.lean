/-
  WordExpr.Eval.Text

  Evaluating texts. `evaluate` keeps everything that happened on the way; `Verdict` is the
  form in which an expression error is a value, and the log lists what happened line by
  line.
-/
import WordExpr.Eval.Evaluator
import WordExpr.Lexer.Lexing

namespace WordExpr

/-- The part of the program that a log line comes from. -/
inductive Channel where
  | lexer
  | evaluator
  deriving DecidableEq, Repr

/-- The name of a channel in the log. -/
def Channel.name : Channel → String
  | lexer => "exprmon.lexer"
  | evaluator => "exprmon.evaluator"

/-- A line of the log. -/
structure LogLine where
  channel : Channel
  message : String
  deriving DecidableEq, Repr

/-- The evaluation of a text: how it was lexed, the session that the evaluation left, and
    the value or the reason why there is none. -/
structure Evaluation (σ : Type) where
  lexing : Lexer.Lexing
  session : Session σ
  result : Except EvalError Nat

/-- An evaluation seen from outside: an expression error is no exception but a failure,
    and the value is 0 then. -/
structure Verdict where
  value : Nat
  ok : Bool
  failure : Option ExprError
  deriving DecidableEq, Repr

namespace Setting

variable {σ : Type}

/-- Evaluates a text that may have `maxTokens` tokens, in a state of the resolver. -/
def evaluate (s : Setting σ) (text : String) (maxTokens : Int) (state : σ) : Evaluation σ :=
  let lexing := Lexer.lex text maxTokens
  match lexing.result with
  | .error e => ⟨lexing, .start state, .error (.expr (.lex e))⟩
  | .ok ts =>
    match s.evalTokens ts (.start state) with
    | .ok value session => ⟨lexing, session, .ok value⟩
    | .error e session => ⟨lexing, session, .error e⟩

/-- The value of a text under a resolver without state. -/
def valueOf (s : Setting Unit) (text : String) (maxTokens : Int) : Except EvalError Nat :=
  (s.evaluate text maxTokens ()).result

end Setting

namespace Evaluation

variable {σ : Type}

/-- The verdict on an evaluation. Errors other than expression errors stay errors. -/
def verdict (e : Evaluation σ) : Except EvalError Verdict :=
  match e.result with
  | .ok value => .ok ⟨value, true, none⟩
  | .error (.expr failure) => .ok ⟨0, false, some failure⟩
  | .error other => .error other

/-- The tokens that were evaluated, if the text was split into tokens. -/
def tokens (e : Evaluation σ) : Array Token :=
  match e.lexing.result with
  | .ok ts => ts
  | .error _ => #[]

/-- The log of an evaluation: the matches of the lexer, then the values found. -/
def log (e : Evaluation σ) : List LogLine :=
  (e.lexing.log.toList.map fun m => ⟨.lexer, m.describe⟩)
    ++ e.session.findings.toList.map fun f => ⟨.evaluator, f.describe e.tokens⟩

/-- The log of an evaluation of `text` on which a verdict was asked: a failure adds a line
    of its own. -/
def verdictLog (e : Evaluation σ) (text : String) : List LogLine :=
  match e.result with
  | .error (.expr failure) =>
    e.log ++ [⟨.evaluator,
      "evaluation of " ++ Text.quoted text ++ " failed: " ++ failure.message⟩]
  | _ => e.log

end Evaluation

end WordExpr
