/-
  WordExpr.Eval.Recursive

  The value of a token range by plain recursion, as the rules of the language put it: a
  single token is an operand, a pair of brackets has the value of what it encloses, and
  anything else is split on its main operator, whose left operand is evaluated before the
  right one. The walk along the left spine does the same without nesting to the left.

  Nesting is counted in two ways: `evalPlain` counts the levels that are left, on which it
  recurs; `evalByRules` counts the depth reached and compares it with the limit.
-/
import WordExpr.Eval.Evaluator

namespace WordExpr.Setting

variable {σ : Type}

/-- The value of the range `[lo, hi)` with so many levels of nesting left, by recursion on
    both operands. Left operands use up no level. -/
def evalPlain (s : Setting σ) (ts : Array Token) (levels lo hi : Nat) : EvalM σ Nat :=
  match levels with
  | 0 => .fail (.nestingTooDeep s.maxDepth)
  | levels + 1 =>
    if hi ≤ lo then .fail (if ts.isEmpty then .emptyExpression else .emptyOperand lo)
    else if hi = lo + 1 then do
      let t ← .lift .missingToken (Range.tokenAt ts lo)
      let value ← s.operand t lo
      .note ⟨lo, hi, value⟩
      pure value
    else
      match Range.isBracketed ts lo hi with
      | .error m => throw (.missingToken m)
      | .ok true => do
        let value ← evalPlain s ts levels (lo + 1) (hi - 1)
        .note ⟨lo, hi, value⟩
        pure value
      | .ok false =>
        match _h : Range.mainOperator? ts lo hi with
        | .error m => throw (.missingToken m)
        | .ok none => .fail (.noMainOperator (Token.compactRange ts lo hi))
        | .ok (some op) => do
          let left ← evalPlain s ts (levels + 1) lo op
          let right ← evalPlain s ts levels (op + 1) hi
          let value ← s.applyAt ts op left right
          .note ⟨lo, hi, value⟩
          pure value
termination_by (levels, hi)
decreasing_by
  · simp_wf; omega
  · have := (Range.mainOperator?_bounds _h).2
    simp_wf; omega
  · simp_wf; omega

/-- The value of the range `[lo, hi)` at a depth of nesting, by recursion on both operands.
    The depth is compared with the limit before anything else is looked at; what is in
    brackets and right operands are one deeper. -/
def evalByRules (s : Setting σ) (ts : Array Token) (lo hi : Nat) (depth : Int) : EvalM σ Nat :=
  if s.maxDepth < depth then .fail (.nestingTooDeep s.maxDepth)
  else if hi ≤ lo then .fail (if ts.isEmpty then .emptyExpression else .emptyOperand lo)
  else if hi = lo + 1 then do
    let t ← .lift .missingToken (Range.tokenAt ts lo)
    let value ← s.operand t lo
    .note ⟨lo, hi, value⟩
    pure value
  else
    match Range.isBracketed ts lo hi with
    | .error m => throw (.missingToken m)
    | .ok true => do
      let value ← evalByRules s ts (lo + 1) (hi - 1) (depth + 1)
      .note ⟨lo, hi, value⟩
      pure value
    | .ok false =>
      match _h : Range.mainOperator? ts lo hi with
      | .error m => throw (.missingToken m)
      | .ok none => .fail (.noMainOperator (Token.compactRange ts lo hi))
      | .ok (some op) => do
        let left ← evalByRules s ts lo op depth
        let right ← evalByRules s ts (op + 1) hi (depth + 1)
        let value ← s.applyAt ts op left right
        .note ⟨lo, hi, value⟩
        pure value
termination_by (s.levels depth, hi)
decreasing_by
  · simp only [levels]
    omega
  · have := (Range.mainOperator?_bounds _h).2
    omega
  · simp only [levels]
    omega

end WordExpr.Setting
