/-
  WordExpr.Generator

  Random test cases. An expression is drafted piece by piece: a literal, a pair of
  brackets around an expression, or two expressions joined by an operator, each kind
  chosen at random. Once the draft is longer than a tenth of the buffer only literals are
  added, though the choice is still made. The expected value is the one of plain
  arithmetic, and expressions that divide by zero are thrown away.

  A draft may go on for ever, so the depth of its recursion is limited; the limit is part
  of the generator, and every expression that can be finished is finished for some limit.
-/
import WordExpr.CaseLine
import WordExpr.Climb.Value
import WordExpr.Random.Source

namespace WordExpr

/-- What expressions are generated: the size of the buffer, the pool of operators, in
    which a repeated one is chosen more often, the word width, and the depth of recursion
    at which a draft is given up. -/
structure Generator where
  maxLen : Int
  ops : List BinOp
  bits : Int
  levels : Nat
  deriving DecidableEq, Repr

namespace Generator

/-- Size of the buffer where no other is given. -/
def defaultMaxLen : Int := 4096

/-- Most expressions drafted for one case. -/
def maxAttempts : Nat := 1000

/-- Depth at which a draft is given up where no other is given. -/
def defaultLevels : Nat := 4096

/-- The operators chosen from where no pool is given: division half as often as the rest. -/
def defaultOps : List BinOp := [.add, .sub, .mul, .add, .sub, .mul, .div]

/-- Operators that plain arithmetic does not have. -/
structure UnsupportedOperators where
  spellings : List String
  deriving DecidableEq, Repr

/-- The wording of unsupported operators. -/
def UnsupportedOperators.message (e : UnsupportedOperators) : String :=
  "Unsupported generator operator(s): " ++ Text.quotedList e.spellings

/-- The operator of plain arithmetic that is written so. -/
def arithmeticOp? (spelling : String) : Option BinOp :=
  (BinOp.ofSpelling? spelling).filter fun op => (Climb.strength? op).isSome

/-- The pool of the operators that are written so, or those that are none. -/
def poolOf (spellings : List String) : Except UnsupportedOperators (List BinOp) :=
  match spellings.filter fun s => (arithmeticOp? s).isNone with
  | [] => .ok (spellings.filterMap arithmeticOp?)
  | bad => .error ⟨bad⟩

/-- Why no expression or case is generated. -/
inductive Failure where
  | choice (e : ChoiceError)
  /-- There are no literals of a negative number of bits. -/
  | negativeWidth
  /-- The expression has no value for a reason other than a division by zero. -/
  | value (e : Climb.Failure)
  /-- Every expression drafted divided by zero. -/
  | exhausted
  /-- A draft was given up because it did not end. -/
  | unfinished
  deriving DecidableEq, Repr

/-- The wording of a failure. -/
def Failure.message : Failure → String
  | choice e => e.message
  | negativeWidth => Climb.negativeWidthMessage
  | value e => e.message
  | exhausted => "No valid expression after " ++ toString maxAttempts ++ " attempts"
  | unfinished => "expression does not end"

/-- A text under construction, with its length. -/
structure Draft where
  text : String
  length : Nat
  length_eq : length = text.length

/-- The draft of nothing. -/
def Draft.empty : Draft := ⟨"", 0, rfl⟩

/-- The draft with a piece behind it. -/
def Draft.add (d : Draft) (piece : String) : Draft :=
  ⟨d.text ++ piece, d.length + piece.length, by simp [d.length_eq]⟩

/-- Generation with a source whose states are in `σ`; a failure keeps the state reached. -/
abbrev GenM (σ : Type) : Type → Type := EStateM Failure σ

variable {σ : Type}

/-- A choice among `n` values. -/
def choose (source : Source σ) (n : Nat) : GenM σ Nat :=
  match source.check n with
  | .error e => throw (.choice e)
  | .ok () => modifyGet (source.draw n)

/-- Length of a draft beyond which only literals are added. -/
def threshold (g : Generator) : Int := g.maxLen.fdiv 10

/-- The draft with a random literal behind it. -/
def literal (g : Generator) (source : Source σ) (d : Draft) : GenM σ Draft :=
  if g.bits < 0 then throw .negativeWidth
  else do
    let value ← choose source (1 <<< g.bits.toNat)
    pure (d.add (toString value ++ "u"))

/-- The draft with a random operator of the pool behind it. -/
def operator (g : Generator) (source : Source σ) (d : Draft) : GenM σ Draft := do
  let index ← choose source g.ops.length
  let spelling := (g.ops[index]?.map BinOp.spelling).getD ""
  pure (d.add (" " ++ spelling ++ " "))

/-- The draft with a random expression behind it. -/
def extend (g : Generator) (source : Source σ) : (levels : Nat) → Draft → GenM σ Draft
  | 0, _ => throw .unfinished
  | levels + 1, d => do
    -- The kind is chosen even when the threshold decides it.
    let kind ← choose source 4
    if g.threshold < (d.length : Int) ∨ kind = 0 then
      g.literal source d
    else if kind = 1 then do
      let d ← extend g source levels (d.add " ( ")
      pure (d.add " ) ")
    else do
      let d ← extend g source levels d
      let d ← g.operator source d
      extend g source levels d

/-- A random expression, which may divide by zero. -/
def expression (g : Generator) (source : Source σ) : GenM σ String :=
  Draft.text <$> g.extend source g.levels .empty

/-- The case of the first of so many random expressions that does not divide by zero. -/
def caseWithin (g : Generator) (source : Source σ) : (attempts : Nat) → GenM σ Case
  | 0 => throw .exhausted
  | attempts + 1 => do
    let text ← g.expression source
    match Climb.evaluate g.bits text with
    | .ok value => pure ⟨value, text⟩
    | .error (.operator (.zeroDivisor _)) => caseWithin g source attempts
    | .error e => throw (.value e)

/-- A random case. -/
def generate (g : Generator) (source : Source σ) : GenM σ Case :=
  g.caseWithin source maxAttempts

/-- Several random cases: those generated before the first failure, the failure, if there
    is one, and the state reached. -/
def cases (g : Generator) (source : Source σ) : (count : Nat) → σ → List Case × Option Failure × σ
  | 0, s => ([], none, s)
  | count + 1, s =>
    match g.generate source s with
    | .error e s => ([], some e, s)
    | .ok c s =>
      let (cs, e, s) := cases g source count s
      (c :: cs, e, s)

end Generator

end WordExpr
