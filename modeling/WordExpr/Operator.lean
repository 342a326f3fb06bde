/-
  WordExpr.Operator

  The nine binary operators: how each is written, how loosely it binds and what it
  computes on words. Both operands are always there before an operator is applied, so
  `&&` and `||` combine two values and short-circuit nothing.
-/
import WordExpr.Word

namespace WordExpr

/-- A binary operator. -/
inductive BinOp where
  | add
  | sub
  | mul
  | div
  | mod
  | eq
  | ne
  | and
  | or
  deriving DecidableEq, Repr

/-- Division or remainder by zero, the two ways in which an operator can fail. -/
inductive ZeroDivisor where
  | quotient
  | remainder
  deriving DecidableEq, Repr

/-- The wording of a failed operator. -/
def ZeroDivisor.message : ZeroDivisor → String
  | quotient => "division by zero"
  | remainder => "remainder by zero"

namespace BinOp

/-- All operators, in the order in which they are listed to users. -/
def all : List BinOp := [add, sub, mul, div, mod, eq, ne, and, or]

/-- How an operator is written. -/
def spelling : BinOp → String
  | add => "+"
  | sub => "-"
  | mul => "*"
  | div => "/"
  | mod => "%"
  | eq => "=="
  | ne => "!="
  | and => "&&"
  | or => "||"

/-- The operator that is written so. -/
def ofSpelling? (s : String) : Option BinOp :=
  all.find? fun op => op.spelling == s

@[simp] theorem ofSpelling?_spelling (op : BinOp) : ofSpelling? op.spelling = some op := by
  cases op <;> decide

/-- Binding class: the smaller it is, the tighter the operator binds. The two logical
    operators share one class. -/
def looseness : BinOp → Nat
  | mul | div | mod => 1
  | add | sub => 2
  | eq | ne => 3
  | and | or => 4

/-- A truth value as a word. -/
def truth (w : Width) (b : Bool) : w.Word := if b then 1#w.size else 0#w.size

/-- The value of an operator on two words. -/
def compute (w : Width) (a b : w.Word) : BinOp → Except ZeroDivisor w.Word
  | add => .ok (a + b)
  | sub => .ok (a - b)
  | mul => .ok (a * b)
  | div => if b = 0 then .error .quotient else .ok (a / b)
  | mod => if b = 0 then .error .remainder else .ok (a % b)
  | eq => .ok (truth w (a = b))
  | ne => .ok (truth w (a ≠ b))
  | and => .ok (truth w (a ≠ 0 ∧ b ≠ 0))
  | or => .ok (truth w (a ≠ 0 ∨ b ≠ 0))

/-- Why an operator that is given by its spelling yields no value. -/
inductive Failure where
  | unknownOperator (spelling : String)
  | width (e : WidthError)
  | zeroDivisor (z : ZeroDivisor)
  deriving DecidableEq, Repr

/-- The wording of an operator's failure. -/
def Failure.message : Failure → String
  | unknownOperator s => "unknown operator '" ++ s ++ "'"
  | width e => e.message
  | zeroDivisor z => z.message

/-- An operator applied to two integers, which are reduced to words first. -/
def apply (op : BinOp) (bits lhs rhs : Int) : Except Failure Nat :=
  match Word.width bits with
  | .error e => .error (.width e)
  | .ok w =>
    match op.compute w (w.wrap lhs) (w.wrap rhs) with
    | .error z => .error (.zeroDivisor z)
    | .ok v => .ok v.toNat

/-- An operator given by its spelling, applied to two integers. A spelling of no
    operator is refused before the width is looked at. -/
def applySpelled (spelling : String) (bits lhs rhs : Int) : Except Failure Nat :=
  match ofSpelling? spelling with
  | none => .error (.unknownOperator spelling)
  | some op => op.apply bits lhs rhs

@[simp] theorem applySpelled_spelling (op : BinOp) (bits lhs rhs : Int) :
    applySpelled op.spelling bits lhs rhs = op.apply bits lhs rhs := by
  simp [applySpelled]

end BinOp

end WordExpr
