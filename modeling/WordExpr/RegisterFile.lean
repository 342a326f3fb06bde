/-
  WordExpr.RegisterFile

  The register file of the simulated machine: general registers under given names, then
  `pc`. A register may have further names: the i-th given one is also `x` followed by i,
  and one whose name starts with `$` is known without it. A register's own name always
  wins over such an alias, and a later alias over an earlier one. The register `$0` is
  wired to zero.
-/
import WordExpr.Word

namespace WordExpr

/-- A register file: its cells in architectural order, where a name that was given twice
    has two cells, and the aliases, latest first. -/
structure RegisterFile where
  bits : Int
  cells : List (String × Nat)
  aliases : List (String × String)
  deriving DecidableEq, Repr

namespace RegisterFile

/-- The register that is not among the given ones. -/
def programCounter : String := "pc"

/-- The register that always reads zero. -/
def hardwired : String := "$0"

/-- The names of the RISC-V calling convention. -/
def riscv : List String := [
  "$0", "ra", "sp", "gp", "tp", "t0", "t1", "t2",
  "s0", "s1", "a0", "a1", "a2", "a3", "a4", "a5",
  "a6", "a7", "s2", "s3", "s4", "s5", "s6", "s7",
  "s8", "s9", "s10", "s11", "t3", "t4", "t5", "t6"]

/-- Why a register is not set. -/
inductive Failure where
  | unknown (name : String)
  | width (e : WidthError)
  deriving DecidableEq, Repr

/-- The wording of a failure; for a register that does not exist it is the bare name. -/
def Failure.message : Failure → String
  | unknown name => name
  | width e => e.message

/-- The alias of a register's place in the list. -/
def numbered (i : Nat) : String := "x" ++ toString i

/-- The name without `$`, if it starts with one. -/
def unsigiled? (name : String) : Option String :=
  match name.toList with
  | '$' :: r => some (String.ofList r)
  | _ => none

/-- The aliases of the i-th given register, latest first. -/
def aliasesOf (name : String) (i : Nat) : List (String × String) :=
  (unsigiled? name).toList.map (·, name) ++ [(numbered i, name)]

/-- The register file of the given names with every register zero. -/
def create (names : List String) (bits : Int) : RegisterFile where
  bits := bits
  cells := (names ++ [programCounter]).map (·, 0)
  aliases := (names.zipIdx.reverse.map fun (name, i) => aliasesOf name i).flatten

/-- The names of all registers in architectural order. -/
def names (r : RegisterFile) : List String := r.cells.map Prod.fst

/-- The register that a name denotes. -/
def denotes? (r : RegisterFile) (name : String) : Option String :=
  if r.names.contains name then some name else r.aliases.lookup name

/-- Does the name denote a register? -/
def contains (r : RegisterFile) (name : String) : Bool := (r.denotes? name).isSome

/-- The value of the register that a name denotes. -/
def get? (r : RegisterFile) (name : String) : Option Nat :=
  (r.denotes? name).bind fun register => r.cells.lookup register

/-- The value of the register that a name denotes, or the failure to find one. -/
def get (r : RegisterFile) (name : String) : Except Failure Nat :=
  match r.get? name with
  | some value => .ok value
  | none => .error (.unknown name)

/-- The register file with a word in every cell of a register. -/
def store (r : RegisterFile) (register : String) (value : Nat) : RegisterFile :=
  { r with cells := r.cells.map fun (n, v) => (n, if n = register then value else v) }

/-- The register file after an integer was stored under a name. The integer is reduced to
    a word, unless the register is the hardwired one, which takes no value at all. -/
def set (r : RegisterFile) (name : String) (value : Int) : Except Failure RegisterFile :=
  match r.denotes? name with
  | none => .error (.unknown name)
  | some register =>
    if register = hardwired then .ok r
    else match Word.reduce r.bits value with
      | .error e => .error (.width e)
      | .ok word => .ok (r.store register word)

/-- The value under a name, and whether the name denotes a register at all; the value is 0 if
    it denotes none. -/
def resolve (r : RegisterFile) (name : String) : Nat × Bool :=
  match r.get? name with
  | some value => (value, true)
  | none => (0, false)

/-- What an expression reads under a name. -/
def read (r : RegisterFile) (name : String) : Option Int := (r.get? name).map Int.ofNat

/-- Registers and their values in architectural order. -/
def dump (r : RegisterFile) : List (String × Nat) := r.cells

/-- The register file after integers were stored under names in order. At a name of no
    register it stops with the file reached so far. -/
def setAll (r : RegisterFile) : List (String × Int) → RegisterFile × Option Failure
  | [] => (r, none)
  | (name, value) :: rest =>
    match r.set name value with
    | .error e => (r, some e)
    | .ok r => r.setAll rest

end RegisterFile

end WordExpr
