import Mathlib.Data.Rat.Floor
import StackMachine.Proofs.FloorDivision

/-!
# How exact the rounded division is

The rounded quotient and the remainder against the floor of the exact quotient.  A remainder lies
between zero and the divisor, so it is always a word.  A quotient is no larger than its dividend,
so it is a word but for one pair: the least word divided by minus one.  There the quotient is one
beyond the largest word and comes out as the least.
-/

namespace StackMachine.Word

/-- The integer is the value of a word. -/
def InRange (n : Int) : Prop := -2 ^ 63 ≤ n ∧ n < 2 ^ 63

/-- The only division whose quotient is not a word. -/
def Overflows (x y : Word) : Prop := x = Int64.minValue ∧ y = -1

instance (x y : Word) : Decidable (Overflows x y) := inferInstanceAs (Decidable (_ ∧ _))

/-- The floor of the exact quotient. -/
def exactQuotient (x y : Word) : Int := ⌊(x.toInt / y.toInt : ℚ)⌋

/-- What two words have to be in order to be the rounded quotient and the remainder. -/
structure Rounds (x y q r : Word) : Prop where
  remainder : r.toInt = x.toInt - y.toInt * exactQuotient x y
  sign : r = 0 ∨ r.toInt.sign = y.toInt.sign
  small : |r.toInt| < |y.toInt|
  reduced : q = Int64.ofInt (exactQuotient x y)
  quotient : ¬Overflows x y → q.toInt = exactQuotient x y
  overflow : Overflows x y → exactQuotient x y = 2 ^ 63 ∧ q = Int64.minValue
  recombined : x = q * y + r
  recombinedExactly : ¬Overflows x y → x.toInt = q.toInt * y.toInt + r.toInt

/-! ## Floor division of integers -/

theorem fdiv_eq_floor (a b : Int) : a.fdiv b = ⌊(a / b : ℚ)⌋ := by
  obtain ⟨n, rfl | rfl⟩ := b.eq_nat_or_neg
  · rw [Int.fdiv_eq_ediv_of_nonneg a (Int.natCast_nonneg n), Int.cast_natCast,
      Rat.floor_intCast_div_natCast]
  · -- Changing both signs leaves the quotient as it is and makes the divisor a natural number.
    have hquotient : (a / (-n : Int) : ℚ) = (-a : Int) / n := by
      rw [Int.cast_neg, Int.cast_neg, Int.cast_natCast, div_neg, neg_div]
    rw [hquotient, Rat.floor_intCast_div_natCast, ← Int.neg_fdiv_neg, neg_neg,
      Int.fdiv_eq_ediv_of_nonneg (-a) (Int.natCast_nonneg n)]

theorem abs_fdiv_le_abs (a b : Int) : |a.fdiv b| ≤ |a| := by
  rcases le_total 0 b with hb | hb
  · rw [Int.fdiv_eq_ediv_of_nonneg a hb]
    exact Int.abs_ediv_le_abs a b
  · rw [← Int.neg_fdiv_neg, Int.fdiv_eq_ediv_of_nonneg (-a) (neg_nonneg.2 hb), ← abs_neg a]
    exact Int.abs_ediv_le_abs (-a) (-b)

theorem fmod_of_neg (a : Int) {b : Int} (hb : b < 0) : b < a.fmod b ∧ a.fmod b ≤ 0 := by
  have hnonneg := Int.fmod_nonneg_of_pos (-a) (neg_pos.2 hb)
  have hlt := Int.fmod_lt_of_pos (-a) (neg_pos.2 hb)
  rw [Int.neg_fmod_neg] at hnonneg hlt
  omega

/-- A floor remainder is zero or has the sign of the divisor, and is smaller than the divisor. -/
theorem fmod_between (a : Int) {b : Int} (hb : b ≠ 0) :
    (a.fmod b = 0 ∨ (a.fmod b).sign = b.sign) ∧ |a.fmod b| < |b| := by
  rcases lt_or_gt_of_ne hb with hneg | hpos
  · obtain ⟨hlow, hhigh⟩ := fmod_of_neg a hneg
    refine ⟨?_, by rw [abs_of_nonpos hhigh, abs_of_neg hneg]; omega⟩
    rcases hhigh.eq_or_lt with hzero | hlt
    · exact .inl hzero
    · exact .inr (by rw [Int.sign_eq_neg_one_of_neg hlt, Int.sign_eq_neg_one_of_neg hneg])
  · have hlow := Int.fmod_nonneg_of_pos a hpos
    have hhigh := Int.fmod_lt_of_pos a hpos
    refine ⟨?_, by rwa [abs_of_nonneg hlow, abs_of_pos hpos]⟩
    rcases hlow.eq_or_lt with hzero | hlt
    · exact .inl hzero.symm
    · exact .inr (by rw [Int.sign_eq_one_of_pos hlt, Int.sign_eq_one_of_pos hpos])

/-! ## Quotients and remainders of words -/

variable {x y : Word}

theorem inRange_toInt (x : Word) : InRange x.toInt := ⟨x.le_toInt, x.toInt_lt⟩

theorem toInt_ofInt_of_inRange {n : Int} (h : InRange n) : (Int64.ofInt n).toInt = n :=
  Int64.toInt_ofInt_of_le h.1 h.2

theorem toInt_ne_zero (hy : y ≠ 0) : y.toInt ≠ 0 := fun h => hy (toInt_eq_zero.1 h)

theorem fmod_inRange (x : Word) (hy : y ≠ 0) : InRange (x.toInt.fmod y.toInt) := by
  have hsmall := (fmod_between x.toInt (toInt_ne_zero hy)).2
  have hbound : |y.toInt| ≤ 2 ^ 63 := abs_le.2 ⟨y.le_toInt, y.toInt_lt.le⟩
  have habs := abs_lt.1 (hsmall.trans_le hbound)
  exact ⟨habs.1.le, habs.2⟩

theorem overflows_of_fdiv_eq (hy : y ≠ 0) (hq : x.toInt.fdiv y.toInt = 2 ^ 63) :
    Overflows x y := by
  have hsum := Int.mul_fdiv_add_fmod x.toInt y.toInt
  have hx := inRange_toInt x
  have hy' := inRange_toInt y
  rw [hq] at hsum
  unfold InRange at hx hy'
  rcases lt_or_gt_of_ne (toInt_ne_zero hy) with hneg | hpos
  · -- The remainder is between the divisor and zero, so no other divisor leaves a word.
    obtain ⟨hlow, hhigh⟩ := fmod_of_neg x.toInt hneg
    have hdivisor : y.toInt = -1 := by omega
    have hdividend : x.toInt = -2 ^ 63 := by omega
    exact ⟨Int64.toInt_inj.1 hdividend, Int64.toInt_inj.1 hdivisor⟩
  · have hlow := Int.fmod_nonneg_of_pos x.toInt hpos
    omega

theorem fdiv_inRange (hy : y ≠ 0) (h : ¬Overflows x y) : InRange (x.toInt.fdiv y.toInt) := by
  have habs : |x.toInt| ≤ 2 ^ 63 := abs_le.2 ⟨x.le_toInt, x.toInt_lt.le⟩
  obtain ⟨hlow, hhigh⟩ := abs_le.1 ((abs_fdiv_le_abs x.toInt y.toInt).trans habs)
  exact ⟨hlow, lt_of_le_of_ne hhigh fun hq => h (overflows_of_fdiv_eq hy hq)⟩

theorem toInt_floorMod (hy : y ≠ 0) : (floorMod x y).toInt = x.toInt.fmod y.toInt := by
  rw [floorMod_eq_ofInt_fmod hy]
  exact toInt_ofInt_of_inRange (fmod_inRange x hy)

theorem toInt_floorDiv (hy : y ≠ 0) (h : ¬Overflows x y) :
    (floorDiv x y).toInt = x.toInt.fdiv y.toInt := by
  rw [floorDiv_eq_ofInt_fdiv hy]
  exact toInt_ofInt_of_inRange (fdiv_inRange hy h)

theorem eq_floorDiv_mul_add_floorMod (hy : y ≠ 0) : x = floorDiv x y * y + floorMod x y := by
  have hsum : x.toInt.fdiv y.toInt * y.toInt + x.toInt.fmod y.toInt = x.toInt := by
    rw [mul_comm]
    exact Int.mul_fdiv_add_fmod x.toInt y.toInt
  have hword := congrArg Int64.ofInt hsum
  rw [Int64.ofInt_add, Int64.ofInt_mul, Int64.ofInt_toInt, Int64.ofInt_toInt] at hword
  rw [floorDiv_eq_ofInt_fdiv hy, floorMod_eq_ofInt_fmod hy]
  exact hword.symm

theorem rounds_floorDiv_floorMod (hy : y ≠ 0) : Rounds x y (floorDiv x y) (floorMod x y) := by
  have hquotient : exactQuotient x y = x.toInt.fdiv y.toInt := (fdiv_eq_floor _ _).symm
  have hsum := Int.mul_fdiv_add_fmod x.toInt y.toInt
  have hbetween := fmod_between x.toInt (toInt_ne_zero hy)
  have hmod := toInt_floorMod (x := x) hy
  exact {
    remainder := by rw [hmod, hquotient, Int.fmod_def]
    sign := by rw [← toInt_eq_zero, hmod]; exact hbetween.1
    small := by rw [hmod]; exact hbetween.2
    reduced := by rw [hquotient, floorDiv_eq_ofInt_fdiv hy]
    quotient := fun h => by rw [hquotient, toInt_floorDiv hy h]
    overflow := by
      rintro ⟨rfl, rfl⟩
      exact ⟨by rw [hquotient]; decide, by decide⟩
    recombined := eq_floorDiv_mul_add_floorMod hy
    recombinedExactly := fun h => by rw [toInt_floorDiv hy h, hmod, mul_comm, hsum] }

end StackMachine.Word

namespace StackMachine

/-- For every divisor but zero the rounded quotient and the remainder are those of floor division,
and no correction on the way to them leaves the words.  Only the least word divided by minus one
has a quotient that must be reduced. -/
theorem floor_division_exact (x y : Word) (hy : y ≠ 0) :
    Word.divide x y = .ok (Word.floorDiv x y) ∧ Word.modulo x y = .ok (Word.floorMod x y) ∧
    Word.Rounds x y (Word.floorDiv x y) (Word.floorMod x y) ∧
    (x % y ≠ 0 → decide (x < 0) ≠ decide (y < 0) → Word.InRange ((x / y).toInt - 1)) ∧
    (x % y ≠ 0 → decide (x % y < 0) ≠ decide (y < 0) →
      Word.InRange ((x % y).toInt + y.toInt)) := by
  refine ⟨if_neg hy, if_neg hy, Word.rounds_floorDiv_floorMod hy, ?_, ?_⟩
  · intro hinexact _
    have hlow := Word.minValue_lt_div hinexact
    have hhigh := (x / y).toInt_lt
    rw [Int64.toInt_minValue] at hlow
    exact ⟨by omega, by omega⟩
  · intro _ hsigns
    obtain ⟨hlow, hhigh⟩ := Word.add_in_range hsigns
    rw [Int64.toInt_minValue] at hlow
    rw [Int64.toInt_maxValue] at hhigh
    exact ⟨hlow, by omega⟩

/-- The least word divided by minus one, which overflows, and by three, which is corrected. -/
theorem least_word_divided :
    let x : Word := Int64.minValue
    (-1 : Word) ≠ 0 ∧ Word.exactQuotient x (-1) = 2 ^ 63 ∧ Word.floorDiv x (-1) = x ∧
      (3 : Word) ≠ 0 ∧ Word.InRange ((x / 3).toInt - 1) ∧
      (Word.floorDiv x 3).toInt = Word.exactQuotient x 3 := by
  intro x
  have hone : (-1 : Word) ≠ 0 := by decide
  have hthree : (3 : Word) ≠ 0 := by decide
  obtain ⟨-, -, hoverflows, -⟩ := floor_division_exact x (-1) hone
  obtain ⟨-, -, hrounds, hcorrected, -⟩ := floor_division_exact x 3 hthree
  obtain ⟨hbeyond, hleast⟩ := hoverflows.overflow ⟨rfl, rfl⟩
  exact ⟨hone, hbeyond, hleast, hthree, hcorrected (by decide) (by decide),
    hrounds.quotient (by decide)⟩

end StackMachine
