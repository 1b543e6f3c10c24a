import Mathlib.Algebra.BigOperators.Group.List.Basic
import Mathlib.Algebra.Order.BigOperators.Group.List
import Mathlib.Tactic.Abel

/-!
# Signed 32-bit arithmetic

`Int32` wraps around. An operation of a C program is defined only where the exact
result fits, so each operation comes with a test for leaving the range, and the
wrapped result is the exact one whenever the test is negative.
-/
namespace MachineInt

/-- The integers a 32-bit `int` can hold. -/
def InInt (z : Int) : Prop := -2147483648 ≤ z ∧ z ≤ 2147483647

instance (z : Int) : Decidable (InInt z) := inferInstanceAs (Decidable (_ ∧ _))

def addOverflows (a b : Int32) : Bool := !decide (InInt (a.toInt + b.toInt))

def subOverflows (a b : Int32) : Bool := !decide (InInt (a.toInt - b.toInt))

def mulOverflows (a b : Int32) : Bool := !decide (InInt (a.toInt * b.toInt))

theorem addOverflows_eq_false_iff {a b : Int32} :
    addOverflows a b = false ↔ InInt (a.toInt + b.toInt) := by
  simp [addOverflows]

theorem subOverflows_eq_false_iff {a b : Int32} :
    subOverflows a b = false ↔ InInt (a.toInt - b.toInt) := by
  simp [subOverflows]

theorem mulOverflows_eq_false_iff {a b : Int32} :
    mulOverflows a b = false ↔ InInt (a.toInt * b.toInt) := by
  simp [mulOverflows]

theorem inInt_toInt (a : Int32) : InInt a.toInt := by
  have low := a.le_toInt
  have high := a.toInt_lt
  constructor <;> omega

/-- Fewer copies of an addend stay in range when more do. -/
theorem inInt_mul_of_le {m n : Nat} {z : Int} (fits : InInt (n * z)) (fewer : m ≤ n) :
    InInt (m * z) := by
  obtain ⟨low, high⟩ := fits
  have order : (m : Int) ≤ n := Int.ofNat_le.mpr fewer
  have count : (0 : Int) ≤ m := Int.natCast_nonneg m
  rcases Int.le_total 0 z with nonneg | nonpos
  · have below := Int.mul_le_mul_of_nonneg_right order nonneg
    have above := Int.mul_nonneg count nonneg
    constructor <;> omega
  · have above := Int.mul_le_mul_of_nonpos_right order nonpos
    have below := Int.mul_nonpos_of_nonneg_of_nonpos count nonpos
    constructor <;> omega

theorem bmod_of_inInt {z : Int} (fits : InInt z) : z.bmod (2 ^ 32) = z := by
  obtain ⟨low, high⟩ := fits
  apply Int.bmod_eq_of_le <;> omega

theorem toInt_ofInt_of_inInt {z : Int} (fits : InInt z) : (Int32.ofInt z).toInt = z := by
  rw [Int32.toInt_ofInt]
  exact bmod_of_inInt fits

theorem toInt_add_of_fits {a b : Int32} (fits : addOverflows a b = false) :
    (a + b).toInt = a.toInt + b.toInt := by
  rw [Int32.toInt_add]
  exact bmod_of_inInt (addOverflows_eq_false_iff.mp fits)

theorem toInt_sub_of_fits {a b : Int32} (fits : subOverflows a b = false) :
    (a - b).toInt = a.toInt - b.toInt := by
  rw [Int32.toInt_sub]
  exact bmod_of_inInt (subOverflows_eq_false_iff.mp fits)

theorem toInt_mul_of_fits {a b : Int32} (fits : mulOverflows a b = false) :
    (a * b).toInt = a.toInt * b.toInt := by
  rw [Int32.toInt_mul]
  exact bmod_of_inInt (mulOverflows_eq_false_iff.mp fits)

/-- A quotient by a positive number is exact. -/
theorem toInt_div_of_pos (a : Int32) {b : Int32} (positive : 0 < b.toInt) :
    (a / b).toInt = a.toInt.tdiv b.toInt := by
  apply Int32.toInt_div_of_ne_right
  rintro rfl
  exact absurd positive (by decide)

/-- Wrapped addition is a commutative group, whatever overflows. -/
instance addCommGroupInt32 : AddCommGroup Int32 where
  add_assoc := Int32.add_assoc
  zero_add := Int32.zero_add
  add_zero := Int32.add_zero
  add_comm := Int32.add_comm
  neg_add_cancel := Int32.add_left_neg
  sub_eq_add_neg := Int32.sub_eq_add_neg
  nsmul := nsmulRec
  zsmul := zsmulRec

/-- The exact sum of a list of machine integers. -/
def exactSum (xs : List Int32) : Int := (xs.map Int32.toInt).sum

@[simp] theorem exactSum_nil : exactSum [] = 0 := rfl

@[simp] theorem exactSum_cons (x : Int32) (xs : List Int32) :
    exactSum (x :: xs) = x.toInt + exactSum xs := rfl

@[simp] theorem exactSum_append (xs ys : List Int32) :
    exactSum (xs ++ ys) = exactSum xs + exactSum ys := by
  simp [exactSum]

theorem exactSum_nonneg {xs : List Int32} (nonneg : ∀ x ∈ xs, 0 ≤ x.toInt) : 0 ≤ exactSum xs := by
  induction xs with
  | nil => exact Int.le_refl 0
  | cons x xs ih =>
    rw [List.forall_mem_cons] at nonneg
    exact Int.add_nonneg nonneg.1 (ih nonneg.2)

theorem exactSum_bounds {low high : Int} {xs : List Int32}
    (each : ∀ x ∈ xs, low ≤ x.toInt ∧ x.toInt ≤ high) :
    low * xs.length ≤ exactSum xs ∧ exactSum xs ≤ high * xs.length := by
  induction xs with
  | nil => simp
  | cons x xs ih =>
    rw [List.forall_mem_cons] at each
    obtain ⟨above, below⟩ := ih each.2
    simp only [exactSum_cons, List.length_cons, Int.natCast_add, Int.natCast_one, Int.mul_add,
      Int.mul_one]
    omega

/-- Leaving out addends that are not negative does not raise a sum. -/
theorem exactSum_le_of_sublist {xs ys : List Int32} (fewer : xs.Sublist ys)
    (nonneg : ∀ y ∈ ys, 0 ≤ y.toInt) : exactSum xs ≤ exactSum ys := by
  apply (fewer.map Int32.toInt).sum_le_sum
  intro value member
  obtain ⟨y, inside, rfl⟩ := List.mem_map.mp member
  exact nonneg y inside

/-- Two different addends together are at most the sum. -/
theorem add_le_exactSum {xs : List Int32} (nonneg : ∀ x ∈ xs, 0 ≤ x.toInt) {i j : Nat}
    {x y : Int32} (here : xs[i]? = some x) (there : xs[j]? = some y) (different : i ≠ j) :
    x.toInt + y.toInt ≤ exactSum xs := by
  induction xs generalizing i j with
  | nil => simp at here
  | cons first xs ih =>
    rw [List.forall_mem_cons] at nonneg
    rw [exactSum_cons]
    have single {z : Int32} (member : z ∈ xs) : z.toInt ≤ exactSum xs := by
      simpa using exactSum_le_of_sublist (List.singleton_sublist.mpr member) nonneg.2
    cases i with
    | zero =>
      cases j with
      | zero => exact absurd rfl different
      | succ j =>
        obtain rfl : first = x := by simpa using here
        exact Int.add_le_add_left (single (List.mem_of_getElem? (by simpa using there))) _
    | succ i =>
      cases j with
      | zero =>
        obtain rfl : first = y := by simpa using there
        rw [Int.add_comm]
        exact Int.add_le_add_left (single (List.mem_of_getElem? (by simpa using here))) _
      | succ j =>
        have rest := ih nonneg.2 (i := i) (j := j) (by simpa using here) (by simpa using there)
          (fun same => different (congrArg (· + 1) same))
        have start := nonneg.1
        omega

/-- The wrapped sum is the exact sum, wrapped once. -/
theorem ofInt_exactSum (xs : List Int32) : Int32.ofInt (exactSum xs) = xs.sum := by
  induction xs with
  | nil => rfl
  | cons x xs ih => rw [exactSum_cons, Int32.ofInt_add, ih, Int32.ofInt_toInt, List.sum_cons]

theorem toInt_sum {xs : List Int32} (fits : InInt (exactSum xs)) : xs.sum.toInt = exactSum xs := by
  rw [← ofInt_exactSum, toInt_ofInt_of_inInt fits]

end MachineInt
