import ChoiceGraph.Number.Floored
import Mathlib.Algebra.Order.Field.Basic
import Mathlib.Data.Rat.Floor
import Mathlib.Tactic.Linarith

/-! # Floored division is exact

A truncated division is corrected where it was rounded the wrong way: the quotient is lowered by one and
the divisor is added to the remainder. The result is the quotient rounded down, and nothing on the way
leaves the range of 64 bits. -/
namespace ChoiceGraph.Floored

/-! ## Rounding down, in integers -/

section Integers

/-- What is left over has the sign of the divisor and is smaller. -/
structure LeavesOver (a b q r : Int) : Prop where
  split : a = b * q + r
  above : 0 < b → 0 ≤ r ∧ r < b
  below : b < 0 → b < r ∧ r ≤ 0

variable {a b q r : Int}

theorem LeavesOver.floor (h : LeavesOver a b q r) (nonzero : b ≠ 0) : ⌊(a / b : ℚ)⌋ = q := by
  have split : (a : ℚ) = b * q + r := by exact_mod_cast h.split
  rw [Int.floor_eq_iff]
  rcases lt_or_gt_of_ne nonzero with negative | positive
  · obtain ⟨low, high⟩ := h.below negative
    have negative : (b : ℚ) < 0 := by exact_mod_cast negative
    have low : (b : ℚ) < r := by exact_mod_cast low
    have high : (r : ℚ) ≤ 0 := by exact_mod_cast high
    constructor
    · rw [le_div_iff_of_neg negative]
      linarith
    · rw [div_lt_iff_of_neg negative]
      linarith
  · obtain ⟨low, high⟩ := h.above positive
    have positive : (0 : ℚ) < b := by exact_mod_cast positive
    have low : (0 : ℚ) ≤ r := by exact_mod_cast low
    have high : (r : ℚ) < b := by exact_mod_cast high
    constructor
    · rw [le_div_iff₀ positive]
      linarith
    · rw [div_lt_iff₀ positive]
      linarith

theorem LeavesOver.sign (h : LeavesOver a b q r) (nonzero : b ≠ 0) : r = 0 ∨ r.sign = b.sign := by
  rcases lt_or_gt_of_ne nonzero with negative | positive
  · rcases (h.below negative).2.lt_or_eq with lt | same
    · exact .inr (by rw [Int.sign_eq_neg_one_of_neg lt, Int.sign_eq_neg_one_of_neg negative])
    · exact .inl same
  · rcases (h.above positive).1.lt_or_eq with lt | same
    · exact .inr (by rw [Int.sign_eq_one_of_pos lt, Int.sign_eq_one_of_pos positive])
    · exact .inl same.symm

theorem LeavesOver.smaller (h : LeavesOver a b q r) (nonzero : b ≠ 0) : |r| < |b| := by
  rcases lt_or_gt_of_ne nonzero with negative | positive
  · obtain ⟨low, high⟩ := h.below negative
    rw [abs_of_nonpos high, abs_of_neg negative]
    omega
  · obtain ⟨low, high⟩ := h.above positive
    rwa [abs_of_nonneg low, abs_of_pos positive]

/-- A truncated remainder is smaller than the divisor. -/
theorem tmod_smaller (a : Int) (nonzero : b ≠ 0) : (a.tmod b).natAbs < b.natAbs := by
  rw [Int.natAbs_tmod]
  exact Nat.mod_lt _ (Int.natAbs_pos.mpr nonzero)

/-- Something is left over, and it has not the sign of the divisor. -/
def Apart (r b : Int) : Prop := r ≠ 0 ∧ (r < 0 ↔ ¬ b < 0)

/-- A truncated division that was rounded up, corrected. -/
theorem leavesOver_corrected (nonzero : b ≠ 0) (apart : Apart (a.tmod b) b) :
    LeavesOver a b (a.tdiv b - 1) (a.tmod b + b) := by
  have whole := Int.mul_tdiv_add_tmod a b
  have smaller := tmod_smaller a nonzero
  obtain ⟨some_, signs⟩ := apart
  refine ⟨?_, fun positive => ?_, fun negative => ?_⟩
  · rw [Int.mul_sub, Int.mul_one]
    omega
  · omega
  · omega

theorem leavesOver_truncated (nonzero : b ≠ 0) (together : ¬ Apart (a.tmod b) b) :
    LeavesOver a b (a.tdiv b) (a.tmod b) := by
  have smaller := tmod_smaller a nonzero
  unfold Apart at together
  exact ⟨(Int.mul_tdiv_add_tmod a b).symm, fun _ => by omega, fun _ => by omega⟩

/-- Where something is left over, the divisor is no unit, and the quotient stays away from the limits. -/
theorem tdiv_small (nonzero : b ≠ 0) (rest : a.tmod b ≠ 0) : 2 * (a.tdiv b).natAbs ≤ a.natAbs := by
  have smaller := tmod_smaller a nonzero
  have two : 2 ≤ b.natAbs := by omega
  rw [Int.natAbs_tdiv]
  calc 2 * (a.natAbs / b.natAbs) ≤ b.natAbs * (a.natAbs / b.natAbs) := Nat.mul_le_mul_right _ two
    _ ≤ a.natAbs := Nat.mul_div_le _ _

end Integers

/-! ## The same in 64 bits -/

/-- Nothing on the way to the quotient and the remainder leaves the range. The correction is made where
the truncated division was rounded up. -/
structure InRange (a b : Int64) : Prop where
  quotient : (a / b).toInt = a.toInt.tdiv b.toInt
  remainder : (a % b).toInt = a.toInt.tmod b.toInt
  lowered : roundedUp (a % b) b = true → (a / b - 1).toInt = (a / b).toInt - 1
  raised : roundedUp (a % b) b = true → (a % b + b).toInt = (a % b).toInt + b.toInt

variable {a b : Int64}

theorem roundedUp_iff (r b : Int64) : roundedUp r b = true ↔ Apart r.toInt b.toInt := by
  have zero : r = 0 ↔ r.toInt = 0 := Int64.toInt_inj.symm
  have negative : ∀ x : Int64, x < 0 ↔ x.toInt < 0 := fun x => Int64.lt_iff_toInt_lt
  simp only [roundedUp, Apart, Bool.and_eq_true, bne_iff_ne, ne_eq, zero, negative]
  by_cases hr : r.toInt < 0 <;> by_cases hb : b.toInt < 0 <;> simp [hr, hb]

theorem Defined.nonzero (h : Defined a b) : b.toInt ≠ 0 := fun zero =>
  h.1 (Int64.toInt_inj.mp zero)

theorem Defined.inRange (h : Defined a b) : InRange a b := by
  have low := a.le_toInt
  have high := a.toInt_lt
  have low' := b.le_toInt
  have high' := b.toInt_lt
  have quotient : (a / b).toInt = a.toInt.tdiv b.toInt := by
    by_cases least : a = Int64.minValue
    · exact Int64.toInt_div_of_ne_right a b fun unit => h.2 ⟨least, unit⟩
    · exact Int64.toInt_div_of_ne_left a b least
  have remainder := Int64.toInt_mod a b
  refine ⟨quotient, remainder, fun up => ?_, fun up => ?_⟩
  · obtain ⟨rest, -⟩ := (roundedUp_iff _ _).mp up
    have small := tdiv_small h.nonzero (remainder ▸ rest)
    rw [Int64.toInt_sub, quotient]
    exact Int.bmod_eq_of_le (by simp; omega) (by simp; omega)
  · obtain ⟨rest, signs⟩ := (roundedUp_iff _ _).mp up
    rw [remainder] at rest signs
    have smaller := tmod_smaller a.toInt h.nonzero
    rw [Int64.toInt_add, remainder]
    exact Int.bmod_eq_of_le (by omega) (by omega)

/-- What the division returns where it is defined. -/
theorem Defined.leavesOver (h : Defined a b) : ∃ q r, quotient? a b = some q ∧ remainder? a b = some r ∧
    LeavesOver a.toInt b.toInt q.toInt r.toInt := by
  have range := h.inRange
  have apart := roundedUp_iff (a % b) b
  rw [range.remainder] at apart
  refine ⟨_, _, if_pos h, if_pos h, ?_⟩
  split_ifs with up
  · rw [range.lowered up, range.raised up, range.quotient, range.remainder]
    exact leavesOver_corrected h.nonzero (apart.mp up)
  · rw [range.quotient, range.remainder]
    exact leavesOver_truncated h.nonzero fun differ => up (apart.mpr differ)

/-- Division by zero and the one quotient out of range have no result. Every other division has the
quotient rounded down, the remainder that belongs to it, and no step that leaves the range. -/
theorem division_exact (a b : Int64) :
    if b = 0 ∨ (a = Int64.minValue ∧ b = -1) then quotient? a b = none ∧ remainder? a b = none
    else InRange a b ∧ ∃ q r, quotient? a b = some q ∧ remainder? a b = some r ∧
      q.toInt = ⌊(a.toInt / b.toInt : ℚ)⌋ ∧ r.toInt = a.toInt - b.toInt * ⌊(a.toInt / b.toInt : ℚ)⌋ ∧
      (r.toInt = 0 ∨ r.toInt.sign = b.toInt.sign) ∧ |r.toInt| < |b.toInt| := by
  split_ifs with undefined
  · have none : ¬ Defined a b := fun h => undefined.elim h.1 h.2
    exact ⟨if_neg none, if_neg none⟩
  · have h : Defined a b := ⟨fun zero => undefined (.inl zero), fun limit => undefined (.inr limit)⟩
    obtain ⟨q, r, quotient, remainder, surplus⟩ := h.leavesOver
    have floor := surplus.floor h.nonzero
    refine ⟨h.inRange, q, r, quotient, remainder, floor.symm, ?_, surplus.sign h.nonzero,
      surplus.smaller h.nonzero⟩
    rw [floor, surplus.split]
    omega

example : quotient? (-7) 2 = some (-4) ∧ remainder? (-7) 2 = some 1 := by decide

end ChoiceGraph.Floored
