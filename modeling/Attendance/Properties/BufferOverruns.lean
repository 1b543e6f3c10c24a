import Attendance.Buffers

/-!
# What the command loop stores past its buffers

Most formats scan no more characters into an array than it has room for. Those of `model`,
`difficulty` and `mine` scan 31 characters into `arg1` and `arg2`, which have room for 19.
-/
namespace Attendance

open CText Scan

/-- The text and its terminator fit the array. -/
def FitsBuffer (stored : Buffer × List Char) : Prop := stored.2.length + 1 ≤ stored.1.size

instance : DecidablePred FitsBuffer := fun _ => inferInstanceAs (Decidable (_ ≤ _))

/-- The words of a line in which `arg1` or `arg2` is given too much: the second word after
three of the commands, and the third after `mine pool` and `mine cloud`. -/
def LongArgument : List (List Char) → Prop
  | command :: argument :: others =>
    (command ∈ [Keyword.model.name, Keyword.difficulty.name, Keyword.mine.name] ∧
      studentIdLen ≤ argument.length) ∨
    (command = Keyword.mine.name ∧ (argument = "pool".toList ∨ argument = "cloud".toList) ∧
      ∃ third ∈ others.head?, studentIdLen ≤ third.length)
  | _ => False

/-! ### One scan -/

/-- Nothing the scan stores is too long for its array. -/
def ScanFits (format : List Conversion) (input : List Char) : Prop :=
  ∀ stored ∈ stores format input, FitsBuffer stored

/-- A format whose widths leave room for the terminators cannot go wrong. -/
theorem scanFits_of_narrow {format : List Conversion}
    (narrow : ∀ conversion ∈ format, conversion.width < conversion.buffer.size)
    (input : List Char) : ScanFits format input := by
  induction format generalizing input with
  | nil => simp [ScanFits, stores]
  | cons conversion format ih =>
    rw [List.forall_mem_cons] at narrow
    rw [ScanFits, stores]
    cases scanned : field conversion.width input with
    | none => simp
    | some result =>
      rw [List.forall_mem_cons]
      have short := length_of_field scanned
      exact ⟨Nat.lt_of_le_of_lt short narrow.1, ih narrow.2 result.2⟩

/-- A first word that fits its array is no concern. -/
theorem scanFits_cons (conversion : Conversion) {input word : List Char}
    {others : List (List Char)} (split : words input = word :: others)
    (short : word.length ≤ conversion.width) (fits : word.length < conversion.buffer.size) :
    ∃ rest, words rest = others ∧
      ∀ format, ScanFits (conversion :: format) input ↔ ScanFits format rest := by
  obtain ⟨rest, scanned, left⟩ := field_of_short_word split short
  refine ⟨rest, left, ?_⟩
  intro format
  rw [ScanFits, stores, scanned, List.forall_mem_cons]
  exact and_iff_right fits

/-- A conversion that is wider than its array, before others that are not. -/
theorem scanFits_wide {buffer : Buffer} {format : List Conversion}
    (small : buffer.size = studentIdLen)
    (narrow : ∀ conversion ∈ format, conversion.width < conversion.buffer.size)
    (input : List Char) :
    ScanFits (⟨31, buffer⟩ :: format) input ↔
      ¬∃ word ∈ (words input).head?, studentIdLen ≤ word.length := by
  cases split : words input with
  | nil => simp [ScanFits, stores, field_of_words_nil 31 split]
  | cons word others =>
    obtain ⟨rest, scanned, _⟩ := field_of_words_cons (show 0 < 31 by decide) split
    have later : ∀ stored ∈ stores format rest, FitsBuffer stored := scanFits_of_narrow narrow rest
    rw [ScanFits, stores, scanned, List.forall_mem_cons, and_iff_left later, FitsBuffer, small,
      List.length_take]
    simp only [List.head?_cons, Option.mem_some_iff, exists_eq_left']
    have size : studentIdLen = 20 := rfl
    omega

/-! ### The scans of a line -/

theorem length_name_lt (keyword : Keyword) : keyword.name.length < 31 := by
  cases keyword <;> decide

/-- A keyword that `%31s` scans is all of its word. -/
theorem eq_of_take_eq {word : List Char} {width : Nat} {front : List Char}
    (same : word.take width = front) (short : front.length < width) : word = front := by
  have length := congrArg List.length same
  rw [List.length_take] at length
  rw [List.take_of_length_le (by omega)] at same
  exact same

theorem scanFits_wordFormat {line command : List Char} {others : List (List Char)}
    (split : words line = command :: others) (short : command.length < 31) :
    ScanFits wordFormat line ↔ ¬∃ argument ∈ others.head?, studentIdLen ≤ argument.length := by
  obtain ⟨rest, left, fits⟩ := scanFits_cons ⟨31, .command⟩ split
    (Nat.le_of_lt short) (Nat.lt_succ_of_lt short)
  rw [wordFormat, fits, scanFits_wide rfl (by simp), left]

/-- The scans for a pool and a cloud, whose second word is short. -/
theorem scanFits_again {line command argument : List Char} {others : List (List Char)}
    {format : List Conversion} (split : words line = command :: argument :: others)
    (short : command.length < 31) (short' : argument.length < studentIdLen)
    (narrow : ∀ conversion ∈ format, conversion.width < conversion.buffer.size) :
    ScanFits (⟨31, .command⟩ :: ⟨31, .arg1⟩ :: ⟨31, .arg2⟩ :: format) line ↔
      ¬∃ third ∈ others.head?, studentIdLen ≤ third.length := by
  obtain ⟨rest, left, fits⟩ := scanFits_cons ⟨31, .command⟩ split
    (Nat.le_of_lt short) (Nat.lt_succ_of_lt short)
  obtain ⟨rest', left', fits'⟩ := scanFits_cons ⟨31, .arg1⟩ left
    (Nat.le_of_lt (Nat.lt_of_lt_of_le short' (by decide))) short'
  rw [fits, fits', scanFits_wide rfl narrow, left']

/-- What `mine` compares with its modes. -/
theorem fields_of_words {line command argument : List Char} {others : List (List Char)}
    (split : words line = command :: argument :: others) (short : command.length < 31) :
    fields [31, 31] line = [command, argument.take 31] := by
  obtain ⟨rest, scanned, left⟩ := field_of_short_word split (Nat.le_of_lt short)
  obtain ⟨rest', scanned', _⟩ := field_of_words_cons (show 0 < 31 by decide) left
  simp only [fields, scanned, scanned']

theorem fields_of_single_word {line command : List Char} (split : words line = [command])
    (short : command.length < 31) : fields [31, 31] line = [command] := by
  obtain ⟨rest, scanned, left⟩ := field_of_short_word split (Nat.le_of_lt short)
  simp only [fields, scanned, field_of_words_nil 31 left]

theorem not_longArgument_of_unknown {command : List Char}
    (unknown : ∀ keyword : Keyword, command ≠ keyword.name) (others : List (List Char)) :
    ¬LongArgument (command :: others) := by
  cases others with
  | nil => exact id
  | cons argument others =>
    simp only [LongArgument, List.mem_cons, unknown, List.not_mem_nil, or_false, false_and,
      not_false_iff]

theorem exit_ne_name (keyword : Keyword) : "exit".toList ≠ keyword.name := by
  cases keyword <;> decide

theorem not_longArgument {keyword : Keyword}
    (other : keyword ∉ [Keyword.model, .difficulty, .mine]) (others : List (List Char)) :
    ¬LongArgument (keyword.name :: others) := by
  cases others with
  | nil => exact id
  | cons argument others =>
    simp only [LongArgument, List.mem_cons, name_injective.eq_iff, List.not_mem_nil,
      or_false] at other ⊢
    rintro (⟨wide, _⟩ | ⟨wide, _⟩)
    · exact other wide
    · exact other (Or.inr (Or.inr wide))

theorem scanFits_mineScans {line : List Char} {others : List (List Char)}
    (split : words line = Keyword.mine.name :: others) :
    (∀ format ∈ mineScans line, ScanFits format line) ↔
      ¬LongArgument (Keyword.mine.name :: others) := by
  have short := length_name_lt .mine
  have first := scanFits_wordFormat split short
  rw [mineScans, List.forall_mem_cons, first]
  cases others with
  | nil =>
    rw [fields_of_single_word split short]
    simp [LongArgument]
  | cons argument others =>
    have mode (text : List Char) (few : text.length < 31) :
        argument.take 31 = text ↔ argument = text := by
      constructor
      · exact fun same => eq_of_take_eq same few
      · rintro rfl
        exact List.take_of_length_le (Nat.le_of_lt few)
    rw [fields_of_words split short]
    simp only [LongArgument, List.head?_cons, Option.mem_some_iff, exists_eq_left', true_and,
      List.mem_cons, List.not_mem_nil, or_false, or_true, mode "solo".toList (by decide),
      mode "pool".toList (by decide), mode "cloud".toList (by decide)]
    rw [not_or]
    apply and_congr_right
    intro fits
    by_cases again : argument = "pool".toList ∨ argument = "cloud".toList
    · have narrow : ∀ conversion ∈ [(⟨31, .arg3⟩ : Conversion), ⟨31, .arg4⟩],
          conversion.width < conversion.buffer.size := by simp [Buffer.size]
      rw [and_iff_right again]
      rcases again with rfl | rfl
      · exact (List.forall_mem_singleton).trans
          (scanFits_again split short (Nat.not_le.mp fits) (by simp))
      · exact (List.forall_mem_singleton).trans
          (scanFits_again split short (Nat.not_le.mp fits) narrow)
    -- no second scan
    · have single : ∀ line' : List Char, ∀ format ∈ (if argument = "solo".toList then [] else
          if argument = "pool".toList then [poolFormat] else
            if argument = "cloud".toList then [cloudFormat] else []), ScanFits format line' := by
        obtain ⟨pool, cloud⟩ := not_or.mp again
        rw [if_neg pool, if_neg cloud, ite_self]
        simp
      exact iff_of_true (single line) (fun both => again both.1)

/-- The scans of a branch fit exactly if no argument is long. -/
theorem scanFits_branchScans {line : List Char} {keyword : Keyword} {others : List (List Char)}
    (split : words line = keyword.name :: others) :
    (∀ format ∈ branchScans line keyword, ScanFits format line) ↔
      ¬LongArgument (keyword.name :: others) := by
  have fitting (other : keyword ∉ [Keyword.model, .difficulty, .mine])
      (narrow : ∀ format ∈ branchScans line keyword,
        ∀ conversion ∈ format, conversion.width < conversion.buffer.size) :
      (∀ format ∈ branchScans line keyword, ScanFits format line) ↔
        ¬LongArgument (keyword.name :: others) :=
    iff_of_true (fun format member => scanFits_of_narrow (narrow format member) line)
      (not_longArgument other others)
  cases keyword with
  | mine => exact scanFits_mineScans split
  | model | difficulty =>
    rw [branchScans, List.forall_mem_singleton, scanFits_wordFormat split (length_name_lt _)]
    cases others with
    | nil => simp [LongArgument]
    | cons argument others =>
      simp only [LongArgument, List.mem_cons, name_injective.eq_iff, List.head?_cons,
        Option.mem_some_iff, exists_eq_left']
      simp
  | _ =>
    apply fitting
    · simp
    · simp [branchScans, markFormat, studentFormat, transferFormat, transferNonceFormat,
        commandFormat, Buffer.size, studentIdLen]

/-- Everything the command loop stores for a line fits where it is stored, with its terminator,
exactly if the line gives no long second word to `model`, `difficulty` or `mine` and no long
third word to `mine pool` or `mine cloud`. -/
theorem line_stores_fit_iff (input : CStr lineLen) :
    (∀ stored ∈ lineStores input, FitsBuffer stored) ↔
      ¬LongArgument (words (untilNul input.text)) := by
  -- what `trim_input` takes off is white space, and so in no word
  have trimmed : words (trimInput input.text) = words (untilNul input.text) := by
    apply words_rdropWhile
    intro c dropped
    simp only [Bool.or_eq_true, decide_eq_true_eq] at dropped
    rcases dropped with (rfl | rfl) | rfl <;> decide
  rw [← trimmed, lineStores]
  generalize trimInput input.text = line
  rw [List.forall_mem_flatMap]
  change (∀ format ∈ lineScans line, ScanFits format line) ↔ _
  have first : ScanFits commandFormat line := scanFits_of_narrow (by decide) line
  rw [lineScans]
  cases split : words line with
  | nil =>
    rw [field_of_words_nil 31 split]
    refine iff_of_true ?_ id
    split <;> simp [first]
  | cons command others =>
    have nonempty : line ≠ [] := by
      rintro rfl
      simp at split
    obtain ⟨rest, scanned, _⟩ := field_of_words_cons (show 0 < 31 by decide) split
    rw [if_neg nonempty, scanned, List.forall_mem_cons, and_iff_right first]
    simp only
    cases parsed : parseKeyword (command.take 31) with
    | none =>
      have unknown (keyword : Keyword) : command ≠ keyword.name := by
        rintro rfl
        -- a name of a command is shorter than the 31 characters that are read
        rw [List.take_of_length_le (Nat.le_of_lt (length_name_lt keyword)),
          parseKeyword_name] at parsed
        cases parsed
      exact iff_of_true (by simp) (not_longArgument_of_unknown unknown others)
    | some keyword =>
      rcases parseKeyword_some parsed with same | ⟨same, rfl⟩
      · obtain rfl := eq_of_take_eq same (length_name_lt keyword)
        exact scanFits_branchScans split
      · obtain rfl := eq_of_take_eq same (by decide)
        exact iff_of_true (by simp [branchScans]) (not_longArgument_of_unknown exit_ne_name others)

/-- The second word of `model` is scanned into `arg1`, whatever it is. -/
theorem model_argument_overruns_arg1 :
    let input : CStr lineLen := .strncpy "model account_based_bookkeeping\n".toList
    ¬∀ stored ∈ lineStores input, FitsBuffer stored := by
  decide

end Attendance
