import Mathlib.Data.List.Basic

/-!
# Cells in use

An array and a counter. The cells below the counter are in use, in order, and the others
hold whatever was left there. Taking the first element moves all others down by one.
-/
namespace Cells

variable {α : Type*} {capacity : Nat}

/-- The elements below the counter. -/
def used (cells : Vector α capacity) (count : Nat) : List α := cells.toList.take count

variable (cells : Vector α capacity) {count : Nat}

theorem length_used (fits : count ≤ capacity) : (used cells count).length = count := by
  rw [used, List.length_take, Vector.length_toList, Nat.min_eq_left fits]

theorem getElem?_used {index : Nat} (inside : index < count) (fits : count ≤ capacity) :
    (used cells count)[index]? = some cells[index] := by
  have bound : index < cells.toList.length := by
    rw [Vector.length_toList]
    exact Nat.lt_of_lt_of_le inside fits
  rw [used, List.getElem?_take_of_lt inside, List.getElem?_eq_getElem bound, Vector.getElem_toList]

/-- Cells with the same elements in use are equal below the counter, and only there. -/
theorem used_eq_iff {other : Vector α capacity} (fits : count ≤ capacity) :
    used cells count = used other count ↔
      ∀ index, (inside : index < count) → cells[index] = other[index] := by
  constructor
  · intro same index inside
    have here := getElem?_used cells inside fits
    rw [same, getElem?_used other inside fits] at here
    exact (Option.some_inj.mp here).symm
  · intro same
    apply List.ext_getElem
    · rw [length_used _ fits, length_used _ fits]
    · intro index inside _
      rw [length_used _ fits] at inside
      simpa [used] using same index inside

/-- The first free cell is filled. -/
theorem used_set (room : count < capacity) (x : α) :
    used (cells.set count x) (count + 1) = used cells count ++ [x] := by
  have bound : count < cells.toList.length := by simpa using room
  rw [used, used, Vector.toList_set, List.take_add_one, List.take_set_of_le (Nat.le_refl count),
    List.getElem?_set_self bound, Option.toList_some]

/-- The loop `for (i = 1; i <= last; i++) cells[i - 1] = cells[i]`. -/
def shiftDown (cells : Vector α capacity) : (last : Nat) → last < capacity → Vector α capacity
  | 0, _ => cells
  | last + 1, bound =>
    let before := shiftDown cells last (Nat.lt_of_succ_lt bound)
    before.set last before[last + 1]

theorem getElem_shiftDown {last : Nat} (bound : last < capacity) {index : Nat}
    (inside : index < capacity) :
    (shiftDown cells last bound)[index] =
      if below : index < last then cells[index + 1] else cells[index] := by
  induction last generalizing index with
  | zero => rfl
  | succ last ih =>
    have earlier : last < capacity := Nat.lt_of_succ_lt bound
    rw [shiftDown, Vector.getElem_set, ih earlier bound, ih earlier inside]
    -- the iteration writes the cell `last`, from one that is still untouched
    by_cases here : last = index
    · subst here
      rw [if_pos rfl, dif_neg (by omega), dif_pos (Nat.lt_succ_self _)]
    · rw [if_neg here]
      by_cases below : index < last
      · rw [dif_pos below, dif_pos (Nat.lt_succ_of_lt below)]
      · rw [dif_neg below, dif_neg (by omega)]

/-- The loop takes the first element out of the used ones. -/
theorem used_shiftDown {last : Nat} (bound : last < capacity) :
    used (shiftDown cells last bound) last = (used cells (last + 1)).tail := by
  apply List.ext_getElem?
  intro index
  rw [List.getElem?_tail]
  by_cases below : index < last
  · rw [getElem?_used _ below (Nat.le_of_lt bound), getElem?_used _ (Nat.succ_lt_succ below) bound,
      getElem_shiftDown cells bound, dif_pos below]
  · have short := length_used (shiftDown cells last bound) (Nat.le_of_lt bound)
    have long : (used cells (last + 1)).length = last + 1 := length_used cells bound
    rw [List.getElem?_eq_none (by omega), List.getElem?_eq_none (by omega)]

end Cells
