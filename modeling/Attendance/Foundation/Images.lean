import Mathlib.Algebra.Ring.Nat
import Mathlib.Data.List.Basic

/-!
# Memory images

A number in memory is its bytes, the lowest first. An array is the images of its
elements, one after the other; where all of them have one size, the array can be taken
apart again, whatever follows it.
-/
namespace Images

/-- The lowest `width` bytes of a number, the lowest first. -/
def littleEndian (width n : Nat) : List UInt8 :=
  (List.range width).map fun i => UInt8.ofNat (n / 256 ^ i)

def ofLittleEndian (bytes : List UInt8) : Nat :=
  bytes.foldr (fun byte rest => byte.toNat + 256 * rest) 0

theorem littleEndian_succ (width n : Nat) :
    littleEndian (width + 1) n = UInt8.ofNat n :: littleEndian width (n / 256) := by
  simp [littleEndian, List.range_succ_eq_map, Nat.pow_succ, Nat.div_div_eq_div_mul,
    Nat.mul_comm]

@[simp] theorem length_littleEndian (width n : Nat) : (littleEndian width n).length = width := by
  simp [littleEndian]

theorem ofLittleEndian_littleEndian {width n : Nat} (small : n < 256 ^ width) :
    ofLittleEndian (littleEndian width n) = n := by
  induction width generalizing n with
  | zero =>
    obtain rfl : n = 0 := by simpa using small
    rfl
  | succ width ih =>
    have rest : n / 256 < 256 ^ width := by
      rw [Nat.pow_succ] at small
      exact Nat.div_lt_of_lt_mul (by omega)
    have low : (UInt8.ofNat n).toNat = n % 256 := UInt8.toNat_ofNat
    have high := ih rest
    rw [ofLittleEndian] at high
    rw [littleEndian_succ, ofLittleEndian, List.foldr_cons, high, low]
    omega

section Arrays

variable {α : Type*} (size : Nat) (read : List UInt8 → α)

/-- `count` elements from the front of the bytes. -/
def readMany : Nat → List UInt8 → List α
  | 0, _ => []
  | count + 1, bytes => read (bytes.take size) :: readMany count (bytes.drop size)

@[simp] theorem length_readMany (count : Nat) (bytes : List UInt8) :
    (readMany size read count bytes).length = count := by
  induction count generalizing bytes with
  | zero => rfl
  | succ count ih => rw [readMany, List.length_cons, ih]

variable {size read} {image : α → List UInt8} {xs : List α}

theorem length_flatMap_image (sized : ∀ x ∈ xs, (image x).length = size) :
    (xs.flatMap image).length = xs.length * size := by
  induction xs with
  | nil => simp
  | cons x xs ih =>
    rw [List.forall_mem_cons] at sized
    rw [List.flatMap_cons, List.length_append, sized.1, ih sized.2, List.length_cons,
      Nat.succ_mul, Nat.add_comm]

/-- An array is read back from the front of whatever contains it. -/
theorem readMany_flatMap (sized : ∀ x ∈ xs, (image x).length = size)
    (inverse : ∀ x ∈ xs, read (image x) = x) (rest : List UInt8) :
    readMany size read xs.length (xs.flatMap image ++ rest) = xs := by
  induction xs with
  | nil => rfl
  | cons x xs ih =>
    rw [List.forall_mem_cons] at sized inverse
    rw [List.flatMap_cons, List.append_assoc, List.length_cons, readMany, ← sized.1,
      List.take_left, List.drop_left, inverse.1, sized.1, ih sized.2 inverse.2]

/-- What follows the elements is not looked at. -/
theorem readMany_append {count : Nat} {bytes : List UInt8} (whole : bytes.length = count * size)
    (rest : List UInt8) :
    readMany size read count (bytes ++ rest) = readMany size read count bytes := by
  induction count generalizing bytes with
  | zero => rfl
  | succ count ih =>
    have enough : size ≤ bytes.length := by
      rw [whole, Nat.succ_mul]
      exact Nat.le_add_left size _
    have others : (bytes.drop size).length = count * size := by
      rw [List.length_drop, whole, Nat.succ_mul, Nat.add_sub_cancel]
    rw [readMany, readMany, List.take_append_of_le_length enough,
      List.drop_append_of_le_length enough, ih others]

end Arrays

/-! ### Reading into an array -/

/-- What `fread` returns: of `count` elements the number that the file holds whole. `size` is
the size of a type, which is never zero. -/
def elementsRead (size count : Nat) (file : List UInt8) : Nat :=
  if count * size ≤ file.length then count else file.length / size

theorem elementsRead_eq_iff {size count : Nat} {file : List UInt8} :
    elementsRead size count file = count ↔ count * size ≤ file.length := by
  unfold elementsRead
  split
  next enough => simp [enough]
  next short =>
    rw [iff_false_right short]
    intro same
    have part := Nat.div_mul_le_self file.length size
    rw [same] at part
    exact short part

/-- An array whose front has been overwritten. -/
def overwrite (array bytes : List UInt8) : List UInt8 := bytes ++ array.drop bytes.length

theorem length_overwrite {array bytes : List UInt8} (fits : bytes.length ≤ array.length) :
    (overwrite array bytes).length = array.length := by
  rw [overwrite, List.length_append, List.length_drop]
  omega

end Images
