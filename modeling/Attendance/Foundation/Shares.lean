import Mathlib.Algebra.BigOperators.Group.List.Basic
import Mathlib.Algebra.Ring.Nat

/-!
# Proportional shares

An amount is split among weights, and each share is rounded down. The shares add up to at
most the amount, and what is lost in rounding is less than one for each weight.
-/
namespace Shares

/-- The part of `amount` that `weight` has in `total`. -/
def share (amount total weight : Nat) : Nat := weight * amount / total

theorem share_mono {amount total weight weight' : Nat} (heavier : weight ≤ weight') :
    share amount total weight ≤ share amount total weight' :=
  Nat.div_le_div_right (Nat.mul_le_mul_right amount heavier)

theorem share_le (amount : Nat) {total weight : Nat} (part : weight ≤ total) :
    share amount total weight ≤ amount :=
  Nat.div_le_of_le_mul (Nat.mul_le_mul_right amount part)

/-- The shares times the total and the remainders of the divisions make up the products. -/
private theorem mul_sum_share (amount total : Nat) (weights : List Nat) :
    total * (weights.map (share amount total)).sum +
      (weights.map (fun weight => weight * amount % total)).sum = weights.sum * amount := by
  induction weights with
  | nil => simp
  | cons weight weights ih =>
    have division := Nat.div_add_mod (weight * amount) total
    simp only [List.map_cons, List.sum_cons, Nat.mul_add, Nat.add_mul, share] at ih ⊢
    omega

private theorem sum_mod_le {total : Nat} (positive : 0 < total) (amount : Nat)
    (weights : List Nat) :
    (weights.map (fun weight => weight * amount % total)).sum + weights.length ≤
      total * weights.length := by
  induction weights with
  | nil => simp
  | cons weight weights ih =>
    have remainder := Nat.mod_lt (weight * amount) positive
    simp only [List.map_cons, List.sum_cons, List.length_cons, Nat.mul_succ]
    omega

variable {weights : List Nat}

theorem sum_share_le (amount : Nat) (positive : 0 < weights.sum) :
    (weights.map (share amount weights.sum)).sum ≤ amount := by
  have made := mul_sum_share amount weights.sum weights
  apply Nat.le_of_mul_le_mul_left (c := weights.sum) _ positive
  omega

/-- Less than one is lost for each weight. -/
theorem lt_sum_share_add_length (amount : Nat) (positive : 0 < weights.sum) :
    amount < (weights.map (share amount weights.sum)).sum + weights.length := by
  have made := mul_sum_share amount weights.sum weights
  have remainders := sum_mod_le positive amount weights
  have nonempty : weights.length ≠ 0 := by
    intro empty
    rw [List.length_eq_zero_iff.mp empty] at positive
    exact absurd positive (by simp)
  apply Nat.lt_of_mul_lt_mul_left (a := weights.sum)
  rw [Nat.mul_add]
  omega

end Shares
