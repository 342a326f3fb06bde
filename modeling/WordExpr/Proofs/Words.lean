/-
  WordExpr.Proofs.Words

  Words as numbers: a word of `w.size` bits is a number below `2 ^ w.size`, and an integer is
  wrapped by taking its remainder.
-/
import Mathlib.Algebra.Order.Ring.Int
import WordExpr.Word

namespace WordExpr.Width

theorem natCast_shiftLeft (n : Nat) : ((1 <<< n : Nat) : Int) = 2 ^ n := by
  rw [Nat.one_shiftLeft, Nat.cast_pow, Nat.cast_ofNat]

theorem size_le (w : Width) : w.size ≤ 64 := by
  cases w <;> decide

theorem two_pow_size_le (w : Width) : 2 ^ w.size ≤ 2 ^ 64 :=
  Nat.pow_le_pow_right (by decide) w.size_le

theorem toNat_wrap (w : Width) (value : Int) :
    ((w.wrap value).toNat : Int) = value % 2 ^ w.size := by
  cases w <;> simp only [wrap, size, BitVec.toNat_ofInt] <;> omega

/-- The word of an integer is its remainder. -/
theorem toNat_wrap_of_emod {w : Width} {n : Nat} {value : Int}
    (h : (n : Int) = value % 2 ^ w.size) : (w.wrap value).toNat = n := by
  rw [← w.toNat_wrap] at h
  exact (Int.ofNat.inj h).symm

theorem toNat_wrap_lt (w : Width) (value : Int) : (w.wrap value).toNat < 2 ^ w.size :=
  (w.wrap value).isLt

/-- A number that is a word already stays what it is. -/
theorem toNat_wrap_natCast (w : Width) {v : Nat} (h : v < 2 ^ w.size) :
    (w.wrap (v : Int)).toNat = v := by
  refine toNat_wrap_of_emod (Int.emod_eq_of_lt (Int.natCast_nonneg v) ?_).symm
  exact_mod_cast h

end WordExpr.Width
