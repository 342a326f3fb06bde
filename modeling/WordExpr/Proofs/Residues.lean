/-
  WordExpr.Proofs.Residues

  Operators as integer arithmetic. An integer is taken for its residue modulo `2 ^ w.size`, and
  words compute with residues: sums, differences and products are those of the integers
  themselves, however large or negative these are, and quotients and remainders are those of the
  residues. What an operator finds therefore depends on residues only (`BinOp.apply_congr`), and
  a divisor is zero exactly if the integer is a multiple of `2 ^ w.size`.
-/
import WordExpr.Operator
import WordExpr.Proofs.Words

namespace WordExpr

/-! ## Residues -/

namespace Width

variable {w : Width} {a b : Int}

/-- The residue of an integer modulo `2 ^ w.size`, which is the word that it stands for. -/
def residue (w : Width) (a : Int) : Nat := (a % 2 ^ w.size).toNat

theorem natCast_residue (w : Width) (a : Int) : (w.residue a : Int) = a % 2 ^ w.size :=
  Int.toNat_of_nonneg (Int.emod_nonneg _ (by cases w <;> decide))

theorem toNat_wrap_eq_residue (w : Width) (a : Int) : (w.wrap a).toNat = w.residue a :=
  toNat_wrap_of_emod (w.natCast_residue a)

theorem residue_lt (w : Width) (a : Int) : w.residue a < 2 ^ w.size := by
  rw [← toNat_wrap_eq_residue]
  exact w.toNat_wrap_lt a

theorem residue_of_lt {n : Nat} (h : n < 2 ^ w.size) : w.residue n = n := by
  rw [← toNat_wrap_eq_residue]
  exact w.toNat_wrap_natCast h

/-- Integers stand for the same word if they have the same residue. -/
theorem wrap_eq_iff : w.wrap a = w.wrap b ↔ w.residue a = w.residue b := by
  rw [BitVec.toNat_eq, toNat_wrap_eq_residue, toNat_wrap_eq_residue]

theorem wrap_eq_zero_iff : w.wrap a = 0 ↔ w.residue a = 0 := by
  rw [BitVec.toNat_eq, toNat_wrap_eq_residue, BitVec.ofNat_eq_ofNat, BitVec.toNat_ofNat,
    Nat.zero_mod]

theorem residue_eq_zero_iff : w.residue a = 0 ↔ (2 : Int) ^ w.size ∣ a := by
  have hcast := w.natCast_residue a
  rw [Int.dvd_iff_emod_eq_zero]
  omega

theorem wrap_sub (w : Width) (a b : Int) : w.wrap (a - b) = w.wrap a - w.wrap b := by
  rw [wrap, Int.sub_eq_add_neg, BitVec.ofInt_add, BitVec.ofInt_neg, ← BitVec.sub_eq_add_neg]
  rfl

end Width

/-! ## Operators on integers -/

namespace BinOp

variable {w : Width} {op : BinOp} {a b c d : Int}

theorem apply_of_compute {v : w.Word} (h : op.compute w (w.wrap a) (w.wrap b) = .ok v) :
    op.apply w.size a b = .ok v.toNat := by
  rw [apply, Word.width_size]
  simp only [h]

theorem apply_of_compute_error {z : ZeroDivisor}
    (h : op.compute w (w.wrap a) (w.wrap b) = .error z) :
    op.apply w.size a b = .error (.zeroDivisor z) := by
  rw [apply, Word.width_size]
  simp only [h]

/-- An operator whose word is that of an integer has the integer's residue for its value. -/
theorem apply_of_wrap (h : op.compute w (w.wrap a) (w.wrap b) = .ok (w.wrap c)) :
    op.apply w.size a b = .ok (w.residue c) := by
  rw [apply_of_compute h, Width.toNat_wrap_eq_residue]

theorem apply_lt {v : Nat} (h : op.apply w.size a b = .ok v) : v < 2 ^ w.size := by
  cases hop : op.compute w (w.wrap a) (w.wrap b) with
  | error z =>
    rw [apply_of_compute_error hop] at h
    cases h
  | ok x =>
    rw [apply_of_compute hop] at h
    cases h
    exact x.isLt

/-- Only the residues of the operands count. -/
theorem apply_congr (hleft : w.residue c = w.residue a) (hright : w.residue d = w.residue b) :
    op.apply w.size c d = op.apply w.size a b := by
  rw [apply, apply, Word.width_size]
  simp only [Width.wrap_eq_iff.mpr hleft, Width.wrap_eq_iff.mpr hright]

theorem apply_add (w : Width) (a b : Int) : add.apply w.size a b = .ok (w.residue (a + b)) :=
  apply_of_wrap (congrArg Except.ok (BitVec.ofInt_add a b).symm)

theorem apply_sub (w : Width) (a b : Int) : sub.apply w.size a b = .ok (w.residue (a - b)) :=
  apply_of_wrap (congrArg Except.ok (w.wrap_sub a b).symm)

theorem apply_mul (w : Width) (a b : Int) : mul.apply w.size a b = .ok (w.residue (a * b)) :=
  apply_of_wrap (congrArg Except.ok (BitVec.ofInt_mul a b).symm)

/-! ### Division -/

theorem apply_div (w : Width) (a b : Int) :
    div.apply w.size a b
      = if w.residue b = 0 then .error (.zeroDivisor .quotient)
        else .ok (w.residue a / w.residue b) := by
  by_cases hzero : w.residue b = 0
  · rw [if_pos hzero]
    exact apply_of_compute_error (if_pos (Width.wrap_eq_zero_iff.mpr hzero))
  · have hword : div.compute w (w.wrap a) (w.wrap b) = .ok (w.wrap a / w.wrap b) :=
      if_neg (mt Width.wrap_eq_zero_iff.mp hzero)
    rw [if_neg hzero, apply_of_compute hword, BitVec.toNat_udiv, Width.toNat_wrap_eq_residue,
      Width.toNat_wrap_eq_residue]

theorem apply_mod (w : Width) (a b : Int) :
    mod.apply w.size a b
      = if w.residue b = 0 then .error (.zeroDivisor .remainder)
        else .ok (w.residue a % w.residue b) := by
  by_cases hzero : w.residue b = 0
  · rw [if_pos hzero]
    exact apply_of_compute_error (if_pos (Width.wrap_eq_zero_iff.mpr hzero))
  · have hword : mod.compute w (w.wrap a) (w.wrap b) = .ok (w.wrap a % w.wrap b) :=
      if_neg (mt Width.wrap_eq_zero_iff.mp hzero)
    rw [if_neg hzero, apply_of_compute hword, BitVec.toNat_umod, Width.toNat_wrap_eq_residue,
      Width.toNat_wrap_eq_residue]

theorem apply_div_eq_error_iff :
    div.apply w.size a b = .error (.zeroDivisor .quotient) ↔ (2 : Int) ^ w.size ∣ b := by
  rw [apply_div, ← Width.residue_eq_zero_iff]
  simp

theorem apply_mod_eq_error_iff :
    mod.apply w.size a b = .error (.zeroDivisor .remainder) ↔ (2 : Int) ^ w.size ∣ b := by
  rw [apply_mod, ← Width.residue_eq_zero_iff]
  simp

/-- Quotient and remainder of residues go back to the residue that was divided, and neither
    the product nor the sum wraps around on the way. -/
theorem recombine (w : Width) (a b : Int) :
    mul.apply w.size (w.residue a / w.residue b : Nat) b
        = .ok (w.residue a / w.residue b * w.residue b)
      ∧ add.apply w.size (w.residue a / w.residue b * w.residue b : Nat)
          (w.residue a % w.residue b : Nat) = .ok (w.residue a) := by
  have hle : w.residue a / w.residue b * w.residue b ≤ w.residue a := Nat.div_mul_le_self _ _
  have hlt := w.residue_lt a
  have hsum : w.residue a / w.residue b * w.residue b + w.residue a % w.residue b = w.residue a :=
    Nat.div_add_mod' _ _
  constructor
  · have hright : w.residue b = w.residue (w.residue b : Int) :=
      (Width.residue_of_lt (w.residue_lt b)).symm
    rw [apply_congr rfl hright, apply_mul, ← Int.natCast_mul, Width.residue_of_lt (by omega)]
  · rw [apply_add, ← Int.natCast_add, hsum, Width.residue_of_lt hlt]

/-! ### Truth values -/

theorem toNat_truth (w : Width) (p : Prop) [Decidable p] :
    (truth w (decide p)).toNat = if p then 1 else 0 := by
  by_cases h : p <;> cases w <;> simp [truth, h, Width.size]

theorem apply_eq (w : Width) (a b : Int) :
    eq.apply w.size a b = .ok (if w.residue a = w.residue b then 1 else 0) := by
  rw [apply_of_compute rfl, toNat_truth]
  simp only [Width.wrap_eq_iff]

theorem apply_ne (w : Width) (a b : Int) :
    ne.apply w.size a b = .ok (if w.residue a ≠ w.residue b then 1 else 0) := by
  rw [apply_of_compute rfl, toNat_truth]
  simp only [ne_eq, Width.wrap_eq_iff]

theorem apply_and (w : Width) (a b : Int) :
    and.apply w.size a b = .ok (if w.residue a ≠ 0 ∧ w.residue b ≠ 0 then 1 else 0) := by
  rw [apply_of_compute rfl, toNat_truth]
  simp only [ne_eq, Width.wrap_eq_zero_iff]

theorem apply_or (w : Width) (a b : Int) :
    or.apply w.size a b = .ok (if w.residue a ≠ 0 ∨ w.residue b ≠ 0 then 1 else 0) := by
  rw [apply_of_compute rfl, toNat_truth]
  simp only [ne_eq, Width.wrap_eq_zero_iff]

/-! ## All operators -/

/-- Operators compute exact integer arithmetic, on integers of any sign and size. Sums,
    differences and products have the residue of the integers' own. Quotient and remainder fail
    exactly for the multiples of `2 ^ w.size`, and otherwise they divide the residues, and
    multiplying and adding recombines them. Comparisons and logical operators compare residues,
    among themselves and with zero. Every value is a word, and none depends on more than
    residues. -/
theorem operators_are_exact (w : Width) (a b : Int) :
    applySpelled "+" w.size a b = .ok (w.residue (a + b))
    ∧ applySpelled "-" w.size a b = .ok (w.residue (a - b))
    ∧ applySpelled "*" w.size a b = .ok (w.residue (a * b))
    ∧ (applySpelled "/" w.size a b = .error (.zeroDivisor .quotient) ↔ (2 : Int) ^ w.size ∣ b)
    ∧ (applySpelled "%" w.size a b = .error (.zeroDivisor .remainder) ↔ (2 : Int) ^ w.size ∣ b)
    ∧ (¬ (2 : Int) ^ w.size ∣ b → ∃ q r p : Nat,
        applySpelled "/" w.size a b = .ok q ∧ applySpelled "%" w.size a b = .ok r
        ∧ w.residue a = q * w.residue b + r ∧ r < w.residue b
        ∧ applySpelled "*" w.size q b = .ok p ∧ applySpelled "+" w.size p r = .ok (w.residue a))
    ∧ applySpelled "==" w.size a b = .ok (if w.residue a = w.residue b then 1 else 0)
    ∧ applySpelled "!=" w.size a b = .ok (if w.residue a ≠ w.residue b then 1 else 0)
    ∧ applySpelled "&&" w.size a b
        = .ok (if w.residue a ≠ 0 ∧ w.residue b ≠ 0 then 1 else 0)
    ∧ applySpelled "||" w.size a b
        = .ok (if w.residue a ≠ 0 ∨ w.residue b ≠ 0 then 1 else 0)
    ∧ (∀ op v, applySpelled op w.size a b = .ok v → v < 2 ^ w.size)
    ∧ ∀ op c d, w.residue c = w.residue a → w.residue d = w.residue b →
        applySpelled op w.size c d = applySpelled op w.size a b := by
  have hspelled (op : BinOp) (a b : Int) :
      applySpelled op.spelling w.size a b = op.apply w.size a b :=
    applySpelled_spelling op w.size a b
  refine ⟨(hspelled add a b).trans (apply_add w a b), (hspelled sub a b).trans (apply_sub w a b),
    (hspelled mul a b).trans (apply_mul w a b), ?_, ?_, fun hdivisor => ?_,
    (hspelled eq a b).trans (apply_eq w a b), (hspelled ne a b).trans (apply_ne w a b),
    (hspelled and a b).trans (apply_and w a b), (hspelled or a b).trans (apply_or w a b),
    fun s v h => ?_, fun s c d hleft hright => ?_⟩
  · have hdiv : applySpelled "/" w.size a b = div.apply w.size a b := hspelled div a b
    rw [hdiv]
    exact apply_div_eq_error_iff
  · have hmod : applySpelled "%" w.size a b = mod.apply w.size a b := hspelled mod a b
    rw [hmod]
    exact apply_mod_eq_error_iff
  · have hne : w.residue b ≠ 0 := mt Width.residue_eq_zero_iff.mp hdivisor
    obtain ⟨hmul, hadd⟩ := recombine w a b
    refine ⟨_, _, _, (hspelled div a b).trans ?_, (hspelled mod a b).trans ?_,
      (Nat.div_add_mod' _ _).symm, Nat.mod_lt _ (Nat.pos_of_ne_zero hne),
      (hspelled mul _ b).trans hmul, (hspelled add _ _).trans hadd⟩
    · rw [apply_div, if_neg hne]
    · rw [apply_mod, if_neg hne]
  · rw [applySpelled] at h
    split at h
    · cases h
    · exact apply_lt h
  · rw [applySpelled, applySpelled]
    split
    · rfl
    · exact apply_congr hleft hright

/-- Minus eight is divided by three as the word that it stands for, though the divisor was given
    as a larger number; a multiple of `2 ^ 64` divides nothing. -/
theorem operators_are_exact_of_negative :
    (∃ q r p : Nat, applySpelled "/" Width.w32.size (-8) (2 ^ 40 + 3) = .ok q
      ∧ applySpelled "%" Width.w32.size (-8) (2 ^ 40 + 3) = .ok r
      ∧ 4294967288 = q * 3 + r ∧ r < 3
      ∧ applySpelled "*" Width.w32.size q (2 ^ 40 + 3) = .ok p
      ∧ applySpelled "+" Width.w32.size p r = .ok 4294967288)
    ∧ applySpelled "%" Width.w64.size 5 (-3 * 2 ^ 64) = .error (.zeroDivisor .remainder)
    ∧ applySpelled "-" Width.w64.size (2 ^ 70) 1 = .ok (2 ^ 64 - 1)
    ∧ 2 ^ 64 - 1 < 2 ^ Width.w64.size
    ∧ applySpelled "/" Width.w32.size 4294967288 3
        = applySpelled "/" Width.w32.size (-8) (2 ^ 40 + 3) := by
  have hsub : applySpelled "-" Width.w64.size (2 ^ 70) 1 = .ok (2 ^ 64 - 1) :=
    (operators_are_exact .w64 (2 ^ 70) 1).2.1
  refine ⟨?_, ?_, hsub, ?_, ?_⟩
  · obtain ⟨-, -, -, -, -, hdivides, -⟩ := operators_are_exact .w32 (-8) (2 ^ 40 + 3)
    exact hdivides (by decide)
  · obtain ⟨-, -, -, -, hzero, -⟩ := operators_are_exact .w64 5 (-3 * 2 ^ 64)
    exact hzero.mpr (by decide)
  · obtain ⟨-, -, -, -, -, -, -, -, -, -, hword, -⟩ := operators_are_exact .w64 (2 ^ 70) 1
    exact hword _ _ hsub
  · obtain ⟨-, -, -, -, -, -, -, -, -, -, -, hcongr⟩ := operators_are_exact .w32 (-8) (2 ^ 40 + 3)
    exact hcongr _ _ _ (by decide) (by decide)

end BinOp

end WordExpr
