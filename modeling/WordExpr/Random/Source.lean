/-
  WordExpr.Random.Source

  Sources of random choices. A source has a state of its own and answers how one of `n`
  values is chosen; asking for one of no values, or of more values than the source tells
  apart, is an error that leaves the state alone.
-/

namespace WordExpr

/-- A source of random choices with states in `σ`. -/
structure Source (σ : Type) where
  /-- Most values among which the source chooses, if there is a limit. -/
  most : Option Nat
  /-- A number below `n`, for positive `n`. -/
  draw : (n : Nat) → σ → Nat × σ

/-- Why nothing is chosen. -/
inductive ChoiceError where
  | noValues
  | tooManyValues
  deriving DecidableEq, Repr

/-- The wording of an impossible choice. -/
def ChoiceError.message : ChoiceError → String
  | noValues => "high <= 0"
  | tooManyValues => "high is out of bounds for uint64"

namespace Source

variable {σ : Type}

/-- Can the source choose one of `n` values? -/
def check (source : Source σ) (n : Nat) : Except ChoiceError Unit :=
  if n = 0 then .error .noValues
  else match source.most with
    | none => .ok ()
    | some most => if most < n then .error .tooManyValues else .ok ()

/-- The source that answers from a sequence of integers, the k-th choice from its k-th
    element, reduced modulo the number of values. The state counts the choices made. -/
def ofSequence (s : Nat → Int) : Source Nat where
  most := none
  draw n k := ((s k % (n : Int)).toNat, k + 1)

/-- The source that repeats a list of integers. -/
def cyclic (draws : Array Int) : Source Nat :=
  ofSequence fun k => draws.getD (k % draws.size) 0

theorem ofSequence_draw_lt {s : Nat → Int} {n k : Nat} (h : 0 < n) :
    ((ofSequence s).draw n k).1 < n := by
  have h₁ : 0 ≤ s k % (n : Int) := Int.emod_nonneg _ (by omega)
  have h₂ : s k % (n : Int) < n := Int.emod_lt_of_pos _ (by omega)
  simp only [ofSequence]
  omega

end Source

end WordExpr
