/-
  WordExpr.Word

  Machine words. A word has one of two widths; every literal, register value and
  result is a residue modulo `2 ^ width`, and arithmetic wraps around.

  A width arrives from outside as a plain integer, so reducing a value can fail:
  `Word.reduce` refuses every width but 32 and 64. Behind that check a word of width
  `w` is a bit vector of `w.size` bits.
-/

namespace WordExpr

/-- The supported word widths. -/
inductive Width where
  | w32
  | w64
  deriving DecidableEq, Repr

namespace Width

/-- Number of bits of a word. -/
def size : Width → Nat
  | w32 => 32
  | w64 => 64

/-- All widths, narrowest first. -/
def all : List Width := [w32, w64]

/-- The width of `bits` bits, if there is one. -/
def ofBits? (bits : Int) : Option Width :=
  all.find? fun w => (w.size : Int) = bits

@[simp] theorem ofBits?_size (w : Width) : ofBits? w.size = some w := by
  cases w <;> rfl

/-- The words of width `w`. -/
abbrev Word (w : Width) : Type := BitVec w.size

/-- Reduction of an integer modulo `2 ^ w.size`. -/
def wrap (w : Width) (value : Int) : w.Word := BitVec.ofInt w.size value

/-- The largest word. -/
def mask (w : Width) : Nat := (1 <<< w.size) - 1

end Width

/-- A word width that is not supported. -/
structure WidthError where
  bits : Int
  deriving DecidableEq, Repr

/-- The wording of a refused width, with the widths that would do. -/
def WidthError.message (e : WidthError) : String :=
  s!"unsupported word size: {e.bits} bits (expected one of "
    ++ toString (Width.all.map Width.size) ++ ")"

namespace Word

/-- Width used where none is asked for. -/
def defaultBits : Int := 32

/-- The width of `bits` bits, or the reason why there is none. -/
def width (bits : Int) : Except WidthError Width :=
  match Width.ofBits? bits with
  | some w => .ok w
  | none => .error ⟨bits⟩

/-- The largest word of `bits` bits. -/
def mask (bits : Int) : Except WidthError Nat :=
  Width.mask <$> width bits

/-- The word of `bits` bits that a value stands for, as a number below `2 ^ bits`. -/
def reduce (bits value : Int) : Except WidthError Nat :=
  (fun w => (w.wrap value).toNat) <$> width bits

@[simp] theorem width_size (w : Width) : width w.size = .ok w := by
  simp [width]

@[simp] theorem reduce_size (w : Width) (value : Int) :
    reduce w.size value = .ok (w.wrap value).toNat := by
  rw [reduce, width_size]
  rfl

end Word

end WordExpr
