/-
  WordExpr.Eval.Session

  What an evaluation can ask and leaves behind. Registers are resolved by a function that
  may have a state of its own; a session keeps that state, the names asked for and the
  values found for token ranges, also when the evaluation fails later.
-/
import WordExpr.Eval.Error

namespace WordExpr

/-- Looks a register up by its name, which comes without `$`. -/
abbrev Resolver (σ : Type) : Type := String → σ → Option Int × σ

/-- The resolver that knows what a function knows and has no state. -/
def Resolver.pure (f : String → Option Int) : Resolver Unit := fun name _ => (f name, ())

/-- The value found for the token range `[lo, hi)`. -/
structure Finding where
  lo : Nat
  hi : Nat
  value : Nat
  deriving DecidableEq, Repr

/-- A finding as traces show it. -/
def Finding.describe (ts : Array Token) (f : Finding) : String :=
  Token.compactRange ts f.lo f.hi ++ " = " ++ toString f.value

/-- What is known in the course of an evaluation: the resolver's state, the names asked
    for and the values found, both in order. -/
structure Session (σ : Type) where
  state : σ
  asked : Array String
  findings : Array Finding
  deriving Repr

/-- The session before anything is asked. -/
def Session.start {σ : Type} (state : σ) : Session σ := ⟨state, #[], #[]⟩

/-- Evaluations in a session; a failing one keeps the session reached. -/
abbrev EvalM (σ : Type) : Type → Type := EStateM EvalError (Session σ)

namespace EvalM

variable {σ α : Type}

/-- Fails with an expression error. -/
def fail (e : ExprError) : EvalM σ α := throw (.expr e)

/-- The result of a computation outside sessions. -/
def lift {ε : Type} (f : ε → EvalError) : Except ε α → EvalM σ α
  | .ok a => pure a
  | .error e => throw (f e)

/-- Notes a value found. -/
def note (f : Finding) : EvalM σ Unit :=
  modify fun s => { s with findings := s.findings.push f }

/-- Asks the resolver for a register. Without a resolver every register is unknown and
    nothing is asked. -/
def ask (resolver : Option (Resolver σ)) (name : String) : EvalM σ (Option Int) :=
  match resolver with
  | none => pure none
  | some resolve =>
    modifyGet fun s =>
      let (value, state) := resolve name s.state
      (value, { s with state := state, asked := s.asked.push name })

end EvalM

end WordExpr
