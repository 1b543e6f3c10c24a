import Mathlib.Algebra.Ring.Nat
import Mathlib.Data.List.Basic
import Mathlib.Data.List.Induction
import Mathlib.Data.List.Infix
import Mathlib.Data.List.TakeWhile
import Mathlib.Data.Nat.Log

/-!
# C text

A `char[n]` array holds a text shorter than `n`. Numbers are printed in decimal,
and records are printed by joining their fields with a separator; a joined record
can be taken apart from the right as long as its last field avoids the separator.
-/
namespace CText

/-- The text in a `char[n]` array: what precedes its terminating NUL. -/
@[ext] structure CStr (n : Nat) where
  text : List Char
  fits : text.length < n
deriving DecidableEq

variable {n : Nat}

/-- `strncpy(dst, src, n - 1)` into an array whose last byte is NUL. -/
def CStr.strncpy [NeZero n] (src : List Char) : CStr n :=
  ⟨src.take (n - 1), by
    have := Nat.pos_of_neZero n
    rw [List.length_take]
    omega⟩

def CStr.empty [NeZero n] : CStr n := ⟨[], Nat.pos_of_neZero n⟩

theorem CStr.text_strncpy [NeZero n] {src : List Char} (short : src.length < n) :
    (CStr.strncpy src : CStr n).text = src := by
  exact List.take_of_length_le (by omega)

@[simp] theorem CStr.strncpy_text [NeZero n] (s : CStr n) : CStr.strncpy s.text = s := by
  ext1
  exact CStr.text_strncpy s.fits

/-- The string that starts here: what precedes the first NUL. -/
def untilNul (text : List Char) : List Char := text.takeWhile (· ≠ '\x00')

theorem prefix_untilNul (text : List Char) : untilNul text <+: text := List.takeWhile_prefix _

theorem untilNul_of_notMem {text : List Char} (none : '\x00' ∉ text) : untilNul text = text := by
  rw [untilNul, List.takeWhile_eq_self_iff]
  intro c member
  exact decide_eq_true fun same => none (same ▸ member)

/-- `%lu` and `%d` of a number that is not negative. -/
def decimal (k : Nat) : List Char := Nat.toDigits 10 k

/-- `%d`. -/
def signedDecimal : Int → List Char
  | .ofNat k => decimal k
  | .negSucc k => '-' :: decimal (k + 1)

theorem decimal_injective : Function.Injective decimal := by
  intro a b same
  have parsed := congrArg (fun digits => Nat.ofDigitChars 10 digits 0) same
  simpa [decimal] using parsed

theorem isDigit_of_mem_decimal {k : Nat} {c : Char} (member : c ∈ decimal k) : c.isDigit :=
  Nat.isDigit_of_mem_toDigits (by omega) (by omega) member

theorem notMem_decimal {c : Char} (other : c.isDigit = false) (k : Nat) : c ∉ decimal k := by
  intro member
  have digit := isDigit_of_mem_decimal member
  rw [other] at digit
  cases digit

theorem signedDecimal_injective : Function.Injective signedDecimal := by
  intro a b same
  -- a minus sign is not a digit, so the signs agree
  have minus (k l : Nat) : decimal k ≠ '-' :: decimal l := by
    intro equal
    exact notMem_decimal (c := '-') rfl k (equal ▸ List.mem_cons_self)
  cases a with
  | ofNat k =>
    cases b with
    | ofNat l => exact congrArg Int.ofNat (decimal_injective same)
    | negSucc l => exact absurd same (minus k (l + 1))
  | negSucc k =>
    cases b with
    | ofNat l => exact absurd same.symm (minus l (k + 1))
    | negSucc l =>
      have digits := decimal_injective (List.cons.inj same).2
      exact congrArg Int.negSucc (Nat.succ.inj digits)

theorem notMem_signedDecimal {c : Char} (other : c.isDigit = false) (sign : c ≠ '-') (z : Int) :
    c ∉ signedDecimal z := by
  cases z with
  | ofNat k => exact notMem_decimal other k
  | negSucc k => simp [signedDecimal, notMem_decimal other, sign]

theorem bar_notMem_signedDecimal (z : Int) : '|' ∉ signedDecimal z :=
  notMem_signedDecimal rfl (by decide) z

theorem colon_notMem_signedDecimal (z : Int) : ':' ∉ signedDecimal z :=
  notMem_signedDecimal rfl (by decide) z

theorem length_decimal_le {k e : Nat} (positive : 0 < e) (small : k < 10 ^ e) :
    (decimal k).length ≤ e :=
  (Nat.length_toDigits_le_iff (by omega) positive).mpr small

/-- The number of decimal digits. -/
def digits (k : Nat) : Nat := Nat.log 10 k + 1

theorem length_decimal (k : Nat) : (decimal k).length = digits k := by
  apply Nat.le_antisymm
  · exact length_decimal_le (Nat.succ_pos _) (Nat.lt_pow_succ_log_self (by decide) k)
  · by_contra shorter
    have positive : 0 < Nat.log 10 k := Nat.lt_of_lt_of_le Nat.length_toDigits_pos
      (Nat.lt_succ_iff.mp (Nat.not_le.mp shorter))
    have small : k < 10 ^ Nat.log 10 k := (Nat.length_toDigits_le_iff (by decide) positive).mp
      (Nat.lt_succ_iff.mp (Nat.not_le.mp shorter))
    have nonzero : k ≠ 0 := by
      rintro rfl
      simp at positive
    exact absurd (Nat.pow_log_le_self 10 nonzero) (Nat.not_le.mpr small)

theorem length_signedDecimal_le {z : Int} {e : Nat} (positive : 0 < e)
    (small : z.natAbs < 10 ^ e) : (signedDecimal z).length ≤ e + 1 := by
  cases z with
  | ofNat k => exact Nat.le_succ_of_le (length_decimal_le positive small)
  | negSucc k => simpa [signedDecimal] using length_decimal_le positive small

theorem length_signedDecimal_pos (z : Int) : 0 < (signedDecimal z).length := by
  cases z with
  | ofNat k => exact Nat.length_toDigits_pos
  | negSucc k => simp [signedDecimal]

/-- Fields joined by a separator, as a `printf` format such as `%s|%s|%s` does. -/
def joinWith (separator : Char) : List (List Char) → List Char
  | [] => []
  | [field] => field
  | field :: next :: rest => field ++ separator :: joinWith separator (next :: rest)

theorem joinWith_append_singleton (separator : Char) (fields : List (List Char))
    (nonempty : fields ≠ []) (last : List Char) :
    joinWith separator (fields ++ [last]) = joinWith separator fields ++ separator :: last := by
  induction fields with
  | nil => exact absurd rfl nonempty
  | cons field rest ih =>
    cases rest with
    | nil => rfl
    | cons next rest =>
      simp only [List.cons_append, joinWith, List.append_assoc] at ih ⊢
      rw [ih (by simp)]

/-- The first field of a joined record is determined when it avoids the separator. -/
theorem split_first {separator : Char} {first first' rest rest' : List Char}
    (avoids : separator ∉ first) (avoids' : separator ∉ first')
    (same : first ++ separator :: rest = first' ++ separator :: rest') :
    first = first' ∧ rest = rest' := by
  -- otherwise the separator would stand inside the longer of the two
  rcases List.append_eq_append_iff.mp same with ⟨extra, longer, back⟩ | ⟨extra, longer, back⟩
  · cases extra with
    | nil => exact ⟨by simp [longer], (List.cons.inj back).2⟩
    | cons c extra =>
      obtain rfl : separator = c := (List.cons.inj back).1
      exact absurd (by simp [longer]) avoids'
  · cases extra with
    | nil => exact ⟨by simp [longer], (List.cons.inj back).2.symm⟩
    | cons c extra =>
      obtain rfl : separator = c := (List.cons.inj back).1
      exact absurd (by simp [longer]) avoids

private theorem split_last_word_le {mark : Char} {word front front' last last' extra : List Char}
    (once : mark ∉ word) (avoids : ¬mark :: word <:+: last) (longer : front' = front ++ extra)
    (rest : mark :: word ++ last = extra ++ (mark :: word ++ last')) :
    front = front' ∧ last = last' := by
  cases extra with
  | nil => exact ⟨by simp [longer], List.append_cancel_left rest⟩
  | cons c extra =>
    -- otherwise the word would stand inside itself or inside the last field
    have inside : word ++ last = extra ++ mark :: (word ++ last') := (List.cons.inj rest).2
    rcases List.append_eq_append_iff.mp inside with ⟨more, _, back⟩ | ⟨more, back, other⟩
    · exact absurd ⟨more, last', by simp [back]⟩ avoids
    · cases more with
      | nil => exact absurd ⟨[], last', by simpa using other⟩ avoids
      | cons d more =>
        obtain rfl : mark = d := (List.cons.inj other).1
        exact absurd (by simp [back]) once

/-- A field is determined when it follows a word that it does not contain, if the word has its
first letter only once. -/
theorem split_last_word {mark : Char} {word front front' last last' : List Char}
    (once : mark ∉ word) (avoids : ¬mark :: word <:+: last) (avoids' : ¬mark :: word <:+: last')
    (same : front ++ (mark :: word ++ last) = front' ++ (mark :: word ++ last')) :
    front = front' ∧ last = last' := by
  -- one of the two fronts extends the other
  rcases List.append_eq_append_iff.mp same with ⟨extra, longer, rest⟩ | ⟨extra, longer, rest⟩
  · exact split_last_word_le once avoids longer rest
  · obtain ⟨equal, equal'⟩ := split_last_word_le once avoids' longer rest
    exact ⟨equal.symm, equal'.symm⟩

/-- The last field of a joined record is determined when it avoids the separator. -/
theorem split_last {separator : Char} {front front' last last' : List Char}
    (avoids : separator ∉ last) (avoids' : separator ∉ last')
    (same : front ++ separator :: last = front' ++ separator :: last') :
    front = front' ∧ last = last' := by
  apply @split_last_word separator [] _ _ _ _ List.not_mem_nil _ _ same
  · exact fun within => avoids ((List.singleton_infix_iff _ _).mp within)
  · exact fun within => avoids' ((List.singleton_infix_iff _ _).mp within)

/-- Fields that are each followed by a mark are determined when they avoid it. -/
theorem flatMap_concat_injective {mark : Char} {fields fields' : List (List Char)}
    (avoid : ∀ field ∈ fields, mark ∉ field) (avoid' : ∀ field ∈ fields', mark ∉ field)
    (same : fields.flatMap (· ++ [mark]) = fields'.flatMap (· ++ [mark])) : fields = fields' := by
  induction fields generalizing fields' with
  | nil =>
    cases fields' with
    | nil => rfl
    | cons field fields' => simp at same
  | cons field fields ih =>
    cases fields' with
    | nil => simp at same
    | cons field' fields' =>
      rw [List.forall_mem_cons] at avoid avoid'
      simp only [List.flatMap_cons, List.append_assoc, List.singleton_append] at same
      obtain ⟨rfl, rest⟩ := split_first avoid.1 avoid'.1 same
      rw [ih avoid.2 avoid'.2 rest]

/-- Records that are numbered are determined if each is determined by its text and its number. -/
theorem mapIdx_determined {α β : Type*} {text : Nat → α → β} {good : α → Prop}
    (determined : ∀ i a b, good a → good b → text i a = text i b → a = b) {xs ys : List α}
    (all : ∀ x ∈ xs, good x) (all' : ∀ y ∈ ys, good y)
    (same : xs.mapIdx text = ys.mapIdx text) : xs = ys := by
  induction xs generalizing text ys with
  | nil =>
    cases ys with
    | nil => rfl
    | cons y ys => simp at same
  | cons x xs ih =>
    cases ys with
    | nil => simp at same
    | cons y ys =>
      rw [List.forall_mem_cons] at all all'
      rw [List.mapIdx_cons, List.mapIdx_cons, List.cons.injEq] at same
      obtain rfl := determined 0 x y all.1 all'.1 same.1
      rw [ih (fun i => determined (i + 1)) all.2 all'.2 same.2]

/-- A list of records of known length is determined, with the text before it, if each record
is determined by the text it ends. -/
theorem flatMap_determined {α : Type*} {text : α → List Char} {good : α → Prop}
    (ends : ∀ {a b front front'}, good a → good b → front ++ text a = front' ++ text b →
      front = front' ∧ a = b) {xs ys : List α} (all : ∀ x ∈ xs, good x) (all' : ∀ y ∈ ys, good y)
    (count : xs.length = ys.length) {front front' : List Char}
    (same : front ++ xs.flatMap text = front' ++ ys.flatMap text) : front = front' ∧ xs = ys := by
  induction xs using List.reverseRecOn generalizing ys with
  | nil =>
    obtain rfl : ys = [] := List.eq_nil_of_length_eq_zero count.symm
    exact ⟨by simpa using same, rfl⟩
  | append_singleton xs x ih =>
    rcases List.eq_nil_or_concat ys with rfl | ⟨ys, y, rfl⟩
    · simp at count
    · simp only [List.concat_eq_append, List.flatMap_append, List.flatMap_singleton,
        ← List.append_assoc, List.length_append, List.length_singleton, Nat.add_right_cancel_iff,
        List.forall_mem_append, List.forall_mem_singleton] at same count all all' ⊢
      obtain ⟨before, rfl⟩ := ends all.2 all'.2 same
      obtain ⟨here, rfl⟩ := ih all.1 all'.1 count before
      exact ⟨here, rfl⟩

end CText
