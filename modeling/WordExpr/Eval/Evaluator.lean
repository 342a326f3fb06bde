/-
  WordExpr.Eval.Evaluator

  The value of a token range. The left spine is walked without recursion, so only brackets
  and right operands nest; both operands of every operator are evaluated before it is
  applied, from left to right.

  How deep they may nest is part of the setting (`Setting.maxDepth`), and that is the only limit
  of depth. The limit of the interpreter's stack, which may be reached before a generous
  `maxDepth`, is left out: it depends on the caller and on the configuration, and on nothing in
  the tokens. The limit on the digits of a decimal numeral is kept (`Numeral.maxDecimalDigits`).
-/
import WordExpr.Eval.Session
import WordExpr.Eval.Spine

namespace WordExpr

/-- What an evaluation is given besides the expression: the word width, the deepest
    nesting allowed, and the register resolver, if there is one. -/
structure Setting (σ : Type) where
  bits : Int
  maxDepth : Int
  resolver : Option (Resolver σ)

/-- Deepest nesting allowed where no other limit is given. -/
def defaultMaxDepth : Int := 512

namespace Setting

variable {σ : Type}

/-- How many levels of nesting are left at a depth; none when the depth is too deep. -/
def levels (s : Setting σ) (depth : Int) : Nat := (s.maxDepth + 1 - depth).toNat

/-- The value of a single token at an index. -/
def operand (s : Setting σ) (t : Token) (index : Nat) : EvalM σ Nat :=
  match t.kind with
  | .dec | .hex => .lift .ofLiteral (Literal.value t.text s.bits)
  | .reg => do
    let name := String.ofList (t.text.toList.drop 1)
    match ← EvalM.ask s.resolver name with
    | none => .fail (.unknownRegister name)
    | some value => .lift .width (Word.reduce s.bits value)
  | _ => .fail (.notANumber t index)

/-- The operator at an index, applied to two values. -/
def applyAt (s : Setting σ) (ts : Array Token) (index lhs rhs : Nat) : EvalM σ Nat := do
  let t ← .lift .missingToken (Range.tokenAt ts index)
  .lift .ofOperator (BinOp.applySpelled t.text s.bits lhs rhs)

/-- The value of the range `[lo, hi)` with so many levels of nesting left. -/
def evalLevels (s : Setting σ) (ts : Array Token) : (levels lo hi : Nat) → EvalM σ Nat
  | 0, _, _ => .fail (.nestingTooDeep s.maxDepth)
  | levels + 1, lo, hi => do
    let spine ← .lift id (Spine.ofRange ts lo hi)
    -- The head comes first; only brackets use up a level here.
    let value ← match spine.head with
      | .operand t => s.operand t lo
      | .bracketed => evalLevels s ts levels (lo + 1) (spine.stop - 1)
    .note ⟨lo, spine.stop, value⟩
    -- Then the links, each with a right operand one level deeper.
    spine.links.foldlM
      (fun value link => do
        let rhs ← evalLevels s ts levels (link.op + 1) link.stop
        let value ← s.applyAt ts link.op value rhs
        .note ⟨lo, link.stop, value⟩
        pure value)
      value

/-- The value of the range `[lo, hi)` at a depth of nesting. -/
def evalRange (s : Setting σ) (ts : Array Token) (lo hi : Nat) (depth : Int) : EvalM σ Nat :=
  s.evalLevels ts (s.levels depth) lo hi

/-- The value of a whole token list. -/
def evalTokens (s : Setting σ) (ts : Array Token) : EvalM σ Nat :=
  s.evalRange ts 0 ts.size 0

end Setting

end WordExpr
