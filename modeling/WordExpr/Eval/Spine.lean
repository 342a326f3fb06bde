/-
  WordExpr.Eval.Spine

  The left spine of a token range: the range is split on its main operator, then what is
  left of that operator is split again, until an operand or a pair of brackets is left.
  `1-2*3-4` has the head `1` and the links `- 2*3` and `- 4`.
-/
import WordExpr.Eval.Error

namespace WordExpr

/-- What a spine starts with. -/
inductive SpineHead where
  /-- A single token. -/
  | operand (t : Token)
  /-- A pair of brackets around a range. -/
  | bracketed
  deriving DecidableEq, Repr

/-- An operator of a spine: where it stands, and where its right operand ends. -/
structure SpineLink where
  op : Nat
  stop : Nat
  deriving DecidableEq, Repr

/-- A left spine: its head, where the head ends, and the links in the order in which they
    are applied. -/
structure Spine where
  head : SpineHead
  stop : Nat
  links : List SpineLink
  deriving DecidableEq, Repr

namespace Spine

/-- The spine of `[lo, hi)` with further links behind it. -/
def walk (ts : Array Token) (lo hi : Nat) (links : List SpineLink) : Except EvalError Spine :=
  if hi ≤ lo then .error (.expr (if ts.isEmpty then .emptyExpression else .emptyOperand lo))
  else if hi = lo + 1 then
    match ts[lo]? with
    | none => .error (.missingToken ⟨lo⟩)
    | some t => .ok ⟨.operand t, hi, links⟩
  else
    match Range.isBracketed ts lo hi with
    | .error m => .error (.missingToken m)
    | .ok true => .ok ⟨.bracketed, hi, links⟩
    | .ok false =>
      match _h : Range.mainOperator? ts lo hi with
      | .error m => .error (.missingToken m)
      | .ok none => .error (.expr (.noMainOperator (Token.compactRange ts lo hi)))
      | .ok (some op) => walk ts lo op (⟨op, hi⟩ :: links)
termination_by hi
decreasing_by exact (Range.mainOperator?_bounds _h).2

/-- The left spine of the range `[lo, hi)`. -/
def ofRange (ts : Array Token) (lo hi : Nat) : Except EvalError Spine := walk ts lo hi []

end Spine

end WordExpr
