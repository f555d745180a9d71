import StackMachine.Word

/-!
# Floor division on words

The rounded quotient and its remainder are computed from the truncating operations of the machine.
Here they are compared with the floor division of the integers: the remainder is always exact, and
the quotient is exact up to reduction to a word.
-/

namespace StackMachine.Word

theorem ofInt_tdiv_toInt (x y : Word) : Int64.ofInt (x.toInt.tdiv y.toInt) = x / y := by
  rw [Int64.ofInt_eq_iff_bmod_eq_toInt, Int64.toInt_div]

theorem ofInt_tmod_toInt (x y : Word) : Int64.ofInt (x.toInt.tmod y.toInt) = x % y := by
  rw [← Int64.toInt_mod, Int64.ofInt_toInt]

theorem toInt_eq_zero {x : Word} : x.toInt = 0 ↔ x = 0 := by
  rw [← Int64.toInt_zero, Int64.toInt_inj]

theorem mod_eq_zero_iff_dvd (x y : Word) : x % y = 0 ↔ y.toInt ∣ x.toInt := by
  rw [← toInt_eq_zero, Int64.toInt_mod, Int.dvd_iff_tmod_eq_zero]

theorem neg_iff_toInt_neg (x : Word) : x < 0 ↔ x.toInt < 0 := by
  rw [Int64.lt_iff_toInt_lt, Int64.toInt_zero]

theorem floorDiv_eq_ofInt_fdiv {x y : Word} (hy : y ≠ 0) :
    floorDiv x y = Int64.ofInt (x.toInt.fdiv y.toInt) := by
  have hy' : y.toInt ≠ 0 := fun h => hy (toInt_eq_zero.1 h)
  have hround :
      x.toInt.fdiv y.toInt =
        if ¬y.toInt ∣ x.toInt ∧ decide (x.toInt < 0) ≠ decide (y.toInt < 0) then
          x.toInt.tdiv y.toInt - 1
        else x.toInt.tdiv y.toInt := by
    rw [Int.fdiv_eq_tdiv]
    grind
  rw [hround]
  unfold floorDiv
  simp only [ne_eq, mod_eq_zero_iff_dvd, neg_iff_toInt_neg]
  split
  · rw [Int64.ofInt_sub, ofInt_tdiv_toInt]
    rfl
  · rw [ofInt_tdiv_toInt]

theorem tmod_neg_iff {a b : Int} (h : ¬b ∣ a) : a.tmod b < 0 ↔ a < 0 := by
  have hne : a.tmod b ≠ 0 := fun h0 => h (Int.dvd_of_tmod_eq_zero h0)
  constructor
  · intro hneg
    apply Int.not_le.1
    intro ha
    have hpos := Int.tmod_nonneg b ha
    omega
  · intro ha
    have hpos := Int.tmod_nonneg b (Int.neg_nonneg_of_nonpos (Int.le_of_lt ha))
    rw [Int.neg_tmod] at hpos
    omega

theorem floorMod_eq_ofInt_fmod {x y : Word} (hy : y ≠ 0) :
    floorMod x y = Int64.ofInt (x.toInt.fmod y.toInt) := by
  have hy' : y.toInt ≠ 0 := fun h => hy (toInt_eq_zero.1 h)
  have hround :
      x.toInt.fmod y.toInt =
        if ¬y.toInt ∣ x.toInt ∧ decide (x.toInt.tmod y.toInt < 0) ≠ decide (y.toInt < 0) then
          x.toInt.tmod y.toInt + y.toInt
        else x.toInt.tmod y.toInt := by
    rw [Int.fmod_eq_tmod]
    by_cases hdvd : y.toInt ∣ x.toInt
    · simp [hdvd]
    · simp only [tmod_neg_iff hdvd]
      grind
  rw [hround]
  unfold floorMod
  simp only [ne_eq, mod_eq_zero_iff_dvd, neg_iff_toInt_neg, Int64.toInt_mod]
  split
  · rw [Int64.ofInt_add, ofInt_tmod_toInt, Int64.ofInt_toInt]
  · rw [ofInt_tmod_toInt]

/-- A quotient that is not exact is far from the least word, since its divisor is neither one nor
minus one: it can be corrected by one without wrapping. -/
theorem minValue_lt_div {x y : Word} (h : x % y ≠ 0) :
    Int64.minValue.toInt < (x / y).toInt := by
  have hdvd : ¬y.toInt ∣ x.toInt := mt (mod_eq_zero_iff_dvd x y).2 h
  have hone : y.toInt.natAbs ≠ 1 := fun hy => hdvd (Int.natAbs_dvd.1 (by simp [hy]))
  have hhalf : (x.toInt.tdiv y.toInt).natAbs ≤ x.toInt.natAbs / 2 := by
    rw [Int.natAbs_tdiv]
    change x.toInt.natAbs / y.toInt.natAbs ≤ _
    rcases Nat.eq_zero_or_pos y.toInt.natAbs with hy | hy
    · simp [hy]
    · exact Nat.div_le_div_left (by omega) (by omega)
  have hlow := x.le_toInt
  have hhigh := x.toInt_lt
  rw [Int64.toInt_div, Int.bmod_eq_of_le (by omega) (by omega)]
  rw [Int64.toInt_minValue]
  omega

/-- Words of different signs have a sum that is a word. -/
theorem add_in_range {x y : Word} (hsigns : decide (x < 0) ≠ decide (y < 0)) :
    Int64.minValue.toInt ≤ x.toInt + y.toInt ∧ x.toInt + y.toInt ≤ Int64.maxValue.toInt := by
  have hx := x.minValue_le_toInt
  have hx' := x.toInt_le
  have hy := y.minValue_le_toInt
  have hy' := y.toInt_le
  simp only [neg_iff_toInt_neg, ne_eq, decide_eq_decide] at hsigns
  omega

end StackMachine.Word
