import Attendance.Foundation.Text
import Mathlib.Algebra.Order.Ring.Int
import Mathlib.Data.List.Basic
import Mathlib.Data.List.DropRight

/-!
# Scanning

`sscanf` with `%Ns` and `%d` conversions, and `atoi`. A field is scanned to the next
space or to its width, so that what is left of a long word goes to the next field.
-/
namespace Scan

/-- `isspace`. -/
def isSpace (c : Char) : Bool := c = ' ' || ('\t' ≤ c && c ≤ '\r')

/-- `%Ns`: the field, and what is left of the input. -/
def field (width : Nat) (input : List Char) : Option (List Char × List Char) :=
  let rest := input.dropWhile isSpace
  let token := (rest.take width).takeWhile (fun c => !isSpace c)
  if token = [] then none else some (token, rest.drop token.length)

/-- The fields of a format with one `%Ns` for each width, up to the first that fails. -/
def fields : List Nat → List Char → List (List Char)
  | [], _ => []
  | width :: widths, input =>
    match field width input with
    | none => []
    | some (token, rest) => token :: fields widths rest

theorem length_of_field {width : Nat} {input token rest : List Char}
    (scanned : field width input = some (token, rest)) : token.length ≤ width := by
  simp only [field] at scanned
  split at scanned
  · cases scanned
  · cases scanned
    exact Nat.le_trans (List.takeWhile_sublist _).length_le (List.length_take_le _ _)

theorem field_of_fields {width : Nat} {widths : List Nat} {input token : List Char}
    {tokens : List (List Char)} (scanned : fields (width :: widths) input = token :: tokens) :
    ∃ rest, field width input = some (token, rest) ∧ fields widths rest = tokens := by
  rw [fields] at scanned
  split at scanned
  · cases scanned
  next rest found =>
    cases scanned
    exact ⟨rest, found, rfl⟩

/-- All formats that start alike scan the same first field. -/
theorem field_eq_of_fields {width : Nat} {widths : List Nat} {input token word rest : List Char}
    {tokens : List (List Char)} (first : field width input = some (token, rest))
    (scanned : fields (width :: widths) input = word :: tokens) : token = word := by
  obtain ⟨rest', again, _⟩ := field_of_fields scanned
  rw [first] at again
  cases again
  rfl

/-- A shorter format scans the first of the fields. -/
theorem fields_take (count : Nat) (widths : List Nat) (input : List Char) :
    fields (widths.take count) input = (fields widths input).take count := by
  induction widths generalizing count input with
  | nil => simp [fields]
  | cons width widths ih =>
    cases count with
    | zero => simp [fields]
    | succ count =>
      rw [List.take_succ_cons, fields, fields]
      split
      · rfl
      · rw [ih, List.take_succ_cons]

/-- A field is no longer than its width. -/
theorem forall₂_fields {widths : List Nat} {input : List Char} {tokens : List (List Char)}
    (scanned : fields widths input = tokens) (all : tokens.length = widths.length) :
    List.Forall₂ (fun token width => token.length ≤ width) tokens widths := by
  induction widths generalizing input tokens with
  | nil =>
    rw [List.length_nil, List.length_eq_zero_iff] at all
    rw [all]
    exact .nil
  | cons width widths ih =>
    cases tokens with
    | nil => cases all
    | cons token tokens =>
      obtain ⟨rest, found, others⟩ := field_of_fields scanned
      exact .cons (length_of_field found) (ih others (Nat.succ.inj all))

/-- A field is made of one word. -/
theorem solid_of_mem_fields {widths : List Nat} {input token : List Char}
    (member : token ∈ fields widths input) : ∀ c ∈ token, isSpace c = false := by
  induction widths generalizing input with
  | nil => cases member
  | cons width widths ih =>
    rw [fields] at member
    split at member
    · cases member
    next scanned =>
      rcases List.mem_cons.mp member with rfl | later
      · simp only [field] at scanned
        split at scanned
        · cases scanned
        · cases scanned
          intro c inside
          simpa using List.mem_takeWhile_imp inside
      · exact ih later

/-! ### Words -/

/-- What stands between white space, whatever the width of a conversion. -/
def words (input : List Char) : List (List Char) := (input.splitOnP isSpace).filter (· ≠ [])

@[simp] theorem words_nil : words [] = [] := by
  rw [words, List.splitOnP_nil]
  rfl

theorem words_append_space (before after : List Char) {c : Char} (space : isSpace c = true) :
    words (before ++ c :: after) = words before ++ words after := by
  rw [words, List.splitOnP_append_cons _ _ space, List.filter_append]
  rfl

theorem words_of_word {word : List Char} (solid : ∀ c ∈ word, isSpace c = false)
    (nonempty : word ≠ []) : words word = [word] := by
  rw [words, List.splitOnP_eq_singleton solid, List.filter_cons_of_pos (by simpa using nonempty)]
  rfl

theorem words_dropWhile (input : List Char) : words (input.dropWhile isSpace) = words input := by
  induction input with
  | nil => rfl
  | cons c rest ih =>
    cases space : isSpace c with
    | true =>
      have skipped := words_append_space [] rest space
      rw [List.nil_append, words_nil, List.nil_append] at skipped
      rw [List.dropWhile_cons_of_pos space, ih, skipped]
    | false => rw [List.dropWhile_cons_of_neg (by simp [space])]

/-- White space at the end does not count. -/
theorem words_rdropWhile {p : Char → Bool} (spaces : ∀ c, p c = true → isSpace c = true)
    (input : List Char) : words (input.rdropWhile p) = words input := by
  induction input using List.reverseRecOn with
  | nil => rw [List.rdropWhile_nil]
  | append_singleton rest c ih =>
    by_cases dropped : p c = true
    · rw [List.rdropWhile_concat_pos _ _ _ dropped, ih,
        words_append_space rest [] (spaces c dropped), words_nil, List.append_nil]
    · rw [List.rdropWhile_concat_neg _ _ _ dropped]

/-- A word and what follows it. -/
theorem words_split (input : List Char) :
    let rest := input.dropWhile isSpace
    let word := rest.takeWhile (fun c => !isSpace c)
    let after := rest.dropWhile (fun c => !isSpace c)
    words input = if word = [] then [] else word :: words after := by
  intro rest word after
  have whole : rest = word ++ after := List.takeWhile_append_dropWhile.symm
  have solid : ∀ c ∈ word, isSpace c = false := by
    intro c member
    simpa using List.mem_takeWhile_imp member
  have stop := List.head?_dropWhile_not (fun c => !isSpace c) rest
  rw [← words_dropWhile input]
  by_cases empty : word = []
  -- the rest does not start with a space either
  · have start := List.head?_dropWhile_not isSpace input
    rw [if_pos empty]
    cases here : rest with
    | nil => exact (congrArg words here).trans words_nil
    | cons c tail =>
      have dropped : input.dropWhile isSpace = c :: tail := here
      rw [dropped] at start
      have solid' : isSpace c = false := start
      simp [word, here, solid'] at empty
  · rw [if_neg empty]
    change words rest = word :: words after
    rw [whole]
    cases follows : after with
    | nil => rw [List.append_nil, words_of_word solid empty, words_nil]
    | cons c tail =>
      have space : isSpace c = true := by simpa [after, follows] using stop
      have skipped := words_append_space [] tail space
      rw [List.nil_append, words_nil, List.nil_append] at skipped
      rw [words_append_space word tail space, words_of_word solid empty, skipped]
      rfl

theorem field_of_words_nil (width : Nat) {input : List Char} (none : words input = []) :
    field width input = Option.none := by
  have split := words_split input
  simp only at split
  rw [none] at split
  split at split
  next empty =>
    have nothing : ((input.dropWhile isSpace).take width).takeWhile (fun c => !isSpace c) = [] := by
      rw [← List.take_takeWhile, empty, List.take_nil]
    rw [field, if_pos nothing]
  next => cases split

/-- A conversion takes the front of the next word. Where that is all of the word, the words
after it are left. -/
theorem field_of_words_cons {width : Nat} (positive : 0 < width) {input word : List Char}
    {others : List (List Char)} (split : words input = word :: others) :
    ∃ rest, field width input = some (word.take width, rest) ∧
      (word.length ≤ width → words rest = others) := by
  have first := words_split input
  simp only at first
  rw [split] at first
  split at first
  · cases first
  next nonempty =>
    obtain ⟨rfl, rfl⟩ := List.cons.inj first
    have token : ((input.dropWhile isSpace).take width).takeWhile (fun c => !isSpace c) =
        ((input.dropWhile isSpace).takeWhile fun c => !isSpace c).take width :=
      List.take_takeWhile.symm
    have some' : ((input.dropWhile isSpace).takeWhile fun c => !isSpace c).take width ≠ [] := by
      simp [List.take_eq_nil_iff, nonempty, Nat.ne_of_gt positive]
    rw [field, token, if_neg some']
    refine ⟨_, rfl, ?_⟩
    intro fits
    rw [List.take_of_length_le fits]
    have whole := List.takeWhile_append_dropWhile (p := fun c => !isSpace c)
      (l := input.dropWhile isSpace)
    exact congrArg words ((congrArg (List.drop _) whole.symm).trans List.drop_left)

/-- A word that is no longer than the width is scanned whole. -/
theorem field_of_short_word {width : Nat} {input word : List Char} {others : List (List Char)}
    (split : words input = word :: others) (short : word.length ≤ width) :
    ∃ rest, field width input = some (word, rest) ∧ words rest = others := by
  have nonempty : word ≠ [] := by
    have member : word ∈ words input := by simp [split]
    simpa using List.of_mem_filter member
  have positive : 0 < width := Nat.lt_of_lt_of_le (List.length_pos_of_ne_nil nonempty) short
  obtain ⟨rest, scanned, left⟩ := field_of_words_cons positive split
  rw [List.take_of_length_le short] at scanned
  exact ⟨rest, scanned, left short⟩

/-- Words that are no longer than the widths are scanned one by one. -/
theorem fields_of_short_words {widths : List Nat} {tokens : List (List Char)}
    (short : List.Forall₂ (fun token width => token.length ≤ width) tokens widths)
    {input : List Char} (split : words input = tokens) : fields widths input = tokens := by
  induction short generalizing input with
  | nil => rfl
  | cons first _ ih =>
    obtain ⟨rest, scanned, left⟩ := field_of_short_word split first
    rw [fields, scanned]
    exact congrArg (List.cons _) (ih left)

/-- Words that are joined by a space are the words. -/
theorem words_intercalate {c : Char} (space : isSpace c = true) {items : List (List Char)}
    (solid : ∀ item ∈ items, ∀ c ∈ item, isSpace c = false) (nonempty : ∀ item ∈ items, item ≠ []) :
    words ([c].intercalate items) = items := by
  induction items with
  | nil => rfl
  | cons item items ih =>
    rw [List.forall_mem_cons] at solid nonempty
    cases items with
    | nil => simpa using words_of_word solid.1 nonempty.1
    | cons next items =>
      rw [List.intercalate_cons_cons, List.append_assoc, List.singleton_append,
        words_append_space _ _ space, words_of_word solid.1 nonempty.1, ih solid.2 nonempty.2]
      rfl

theorem mem_intercalate {c d : Char} {items : List (List Char)}
    (member : d ∈ [c].intercalate items) : d = c ∨ ∃ item ∈ items, d ∈ item := by
  induction items with
  | nil => cases member
  | cons item items ih =>
    cases items with
    | nil => exact Or.inr ⟨item, List.mem_cons_self, by simpa using member⟩
    | cons next items =>
      rw [List.intercalate_cons_cons, List.append_assoc, List.singleton_append] at member
      rcases List.mem_append.mp member with here | later
      · exact Or.inr ⟨item, List.mem_cons_self, here⟩
      rcases List.mem_cons.mp later with rfl | rest
      · exact Or.inl rfl
      · exact (ih rest).imp_right fun ⟨other, inside, there⟩ =>
          ⟨other, List.mem_cons_of_mem _ inside, there⟩

theorem length_intercalate_le {c : Char} {items : List (List Char)} {width : Nat}
    (short : ∀ item ∈ items, item.length ≤ width) :
    ([c].intercalate items).length ≤ items.length * (width + 1) := by
  induction items with
  | nil => simp
  | cons item items ih =>
    rw [List.forall_mem_cons] at short
    have rest := ih short.2
    cases items with
    | nil =>
      rw [List.intercalate_singleton, List.length_singleton]
      omega
    | cons next items =>
      rw [List.intercalate_cons_cons, List.length_append, List.length_append,
        List.length_singleton, List.length_cons, Nat.succ_mul]
      omega

example : words " mine  solo\t".toList = ["mine".toList, "solo".toList] := by decide

/-! ### Lines and tokens -/

/-- The lines that successive calls of `fgets(line, size, file)` return, where `line` has been
read already. -/
def fgetsLines (size : Nat) (line : List Char) : List Char → List (List Char)
  | [] => if line = [] then [] else [line]
  | c :: rest =>
    -- a line ends after a newline, and where its array is full
    if c = '\n' ∨ line.length + 2 = size then (line ++ [c]) :: fgetsLines size [] rest
    else fgetsLines size (line ++ [c]) rest

/-- The tokens that successive calls of `strtok_r` return for one delimiter. -/
def strtok (delimiter : Char) (input : List Char) : List (List Char) :=
  (input.splitOn delimiter).filter (· ≠ [])

theorem notMem_of_mem_splitOn {delimiter : Char} {input token : List Char}
    (member : token ∈ input.splitOn delimiter) : delimiter ∉ token := by
  induction input generalizing token with
  | nil =>
    rw [List.splitOn_nil, List.mem_singleton] at member
    simp [member]
  | cons c rest ih =>
    rw [List.splitOn_cons_eq_if_modifyHead] at member
    split at member
    · rcases List.mem_cons.mp member with rfl | later
      · exact List.not_mem_nil
      · exact ih later
    next other =>
      -- the letter goes to the first token of the rest
      cases pieces : rest.splitOn delimiter with
      | nil => exact absurd pieces (List.splitOn_ne_nil delimiter rest)
      | cons first later =>
        rw [pieces] at member ih
        rcases List.mem_cons.mp member with rfl | inside
        · have front := ih List.mem_cons_self
          simp only [beq_iff_eq] at other
          simp [front, Ne.symm other]
        · exact ih (List.mem_cons_of_mem _ inside)

theorem mem_of_mem_splitOn {delimiter c : Char} {input token : List Char}
    (member : token ∈ input.splitOn delimiter) (inside : c ∈ token) : c ∈ input := by
  induction input generalizing token with
  | nil =>
    rw [List.splitOn_nil, List.mem_singleton] at member
    simp [member] at inside
  | cons d rest ih =>
    rw [List.splitOn_cons_eq_if_modifyHead] at member
    split at member
    · rcases List.mem_cons.mp member with rfl | later
      · cases inside
      · exact List.mem_cons_of_mem d (ih later inside)
    · cases pieces : rest.splitOn delimiter with
      | nil => exact absurd pieces (List.splitOn_ne_nil delimiter rest)
      | cons first later =>
        rw [pieces] at member ih
        rcases List.mem_cons.mp member with rfl | other
        · rcases List.mem_cons.mp inside with rfl | front
          · exact List.mem_cons_self
          · exact List.mem_cons_of_mem d (ih List.mem_cons_self front)
        · exact List.mem_cons_of_mem d (ih (List.mem_cons_of_mem first other) inside)

theorem notMem_of_mem_strtok {delimiter : Char} {input token : List Char}
    (member : token ∈ strtok delimiter input) : delimiter ∉ token :=
  notMem_of_mem_splitOn (List.mem_of_mem_filter member)

/-- Fields that are joined by the delimiter are the tokens. -/
theorem strtok_intercalate {delimiter : Char} {fields : List (List Char)} (some' : fields ≠ [])
    (avoids : ∀ field ∈ fields, delimiter ∉ field) (nonempty : ∀ field ∈ fields, field ≠ []) :
    strtok delimiter ([delimiter].intercalate fields) = fields := by
  rw [strtok, List.splitOn_intercalate delimiter avoids some', List.filter_eq_self]
  intro field member
  simpa using nonempty field member

theorem prefix_splitOn (delimiter : Char) {text line : List Char} (start : text <+: line) :
    (text.splitOn delimiter).dropLast <+: line.splitOn delimiter := by
  induction text generalizing line with
  | nil => simp
  | cons c text ih =>
    obtain ⟨after, rfl⟩ := start
    have rest := ih (List.prefix_append text after)
    rw [List.cons_append, List.splitOn_cons_eq_if_modifyHead, List.splitOn_cons_eq_if_modifyHead]
    split
    · rw [List.dropLast_cons_of_ne_nil (List.splitOn_ne_nil _ _)]
      exact List.cons_prefix_cons.mpr ⟨rfl, rest⟩
    · -- the letter goes to the first piece, which the rest of the line has as well
      cases pieces : text.splitOn delimiter with
      | nil => exact absurd pieces (List.splitOn_ne_nil delimiter text)
      | cons first others =>
        cases others with
        | nil => exact List.nil_prefix
        | cons second others =>
          rw [pieces] at rest
          cases whole : (text ++ after).splitOn delimiter with
          | nil => exact absurd whole (List.splitOn_ne_nil delimiter _)
          | cons first' others' =>
            rw [whole] at rest
            obtain ⟨same, later⟩ := List.cons_prefix_cons.mp rest
            exact List.cons_prefix_cons.mpr ⟨congrArg (c :: ·) same, later⟩

/-- All tokens of a text but the last are tokens of every line that starts with it. -/
theorem prefix_strtok (delimiter : Char) {text line : List Char}
    (start : text <+: line) : (strtok delimiter text).dropLast <+: strtok delimiter line := by
  have front := (prefix_splitOn delimiter start).filter (· ≠ [])
  have pieces := List.dropLast_append_getLast (List.splitOn_ne_nil delimiter text)
  have tokens : strtok delimiter text = ((text.splitOn delimiter).dropLast.filter (· ≠ [])) ++
      [(text.splitOn delimiter).getLast (List.splitOn_ne_nil _ _)].filter (· ≠ []) := by
    rw [← List.filter_append, pieces, strtok]
  refine List.IsPrefix.trans ?_ front
  rw [tokens]
  by_cases empty : (text.splitOn delimiter).getLast (List.splitOn_ne_nil _ _) = []
  · rw [List.filter_cons_of_neg (by simp [empty]), List.filter_nil, List.append_nil]
    exact List.dropLast_prefix _
  · rw [List.filter_cons_of_pos (by simpa using empty), List.filter_nil]
    exact ⟨[], by rw [List.dropLast_concat, List.append_nil]⟩

/-- What is read of a text is found in it. -/
theorem mem_of_mem_fgetsLines {c : Char} {size : Nat} {line text piece : List Char}
    (member : piece ∈ fgetsLines size line text) (inside : c ∈ piece) : c ∈ line ++ text := by
  induction text generalizing line with
  | nil =>
    rw [fgetsLines] at member
    split at member
    · cases member
    · rw [List.mem_singleton.mp member] at inside
      exact List.mem_append_left _ inside
  | cons d text ih =>
    rw [fgetsLines] at member
    split at member
    · rcases List.mem_cons.mp member with rfl | later
      · exact (List.append_sublist_append_left line).mpr
          (List.singleton_sublist.mpr List.mem_cons_self) |>.subset inside
      · have there := ih later
        simp only [List.nil_append] at there
        exact List.mem_append_right _ (List.mem_cons_of_mem d there)
    · simpa using ih member

/-- The lines of a file are read one after the other, each with its newline. -/
theorem fgetsLines_append_newline (size : Nat) {text : List Char} (single : '\n' ∉ text)
    (line rest : List Char) : fgetsLines size line (text ++ '\n' :: rest) =
      fgetsLines size line (text ++ ['\n']) ++ fgetsLines size [] rest := by
  induction text generalizing line with
  | nil => simp [fgetsLines]
  | cons c text ih =>
    rw [List.mem_cons, not_or] at single
    rw [List.cons_append, List.cons_append, fgetsLines, fgetsLines]
    split
    · rw [ih single.2, List.cons_append]
    · exact ih single.2 _

/-- A line is read up to where its array is full. -/
theorem fgetsLines_eq_take_cons {n : Nat} {text : List Char} (single : '\n' ∉ text)
    {line : List Char} (room : line.length < n) (nonempty : line ++ text ≠ []) :
    fgetsLines (n + 1) line text =
      (line ++ text).take n :: fgetsLines (n + 1) [] ((line ++ text).drop n) := by
  induction text generalizing line with
  | nil =>
    rw [List.append_nil] at nonempty ⊢
    rw [List.take_of_length_le room.le, List.drop_of_length_le room.le, fgetsLines, fgetsLines,
      if_neg nonempty, if_pos rfl]
  | cons c text ih =>
    rw [List.mem_cons, not_or] at single
    have onward : line ++ c :: text = (line ++ [c]) ++ text := by simp
    have longer : (line ++ [c]).length = line.length + 1 := List.length_append
    rw [fgetsLines, onward]
    by_cases full : line.length + 2 = n + 1
    · have whole : (line ++ [c]).length = n := by omega
      rw [if_pos (.inr full), List.take_left' whole, List.drop_left' whole]
    · rw [if_neg (not_or.mpr ⟨Ne.symm single.1, full⟩)]
      exact ih single.2 (by omega) (by simp)

/-- A line that fits its array is read whole. -/
theorem fgetsLines_of_short {n : Nat} {text : List Char} (single : '\n' ∉ text)
    {line : List Char} (short : (line ++ text).length < n) :
    fgetsLines (n + 1) line (text ++ ['\n']) = [line ++ text ++ ['\n']] := by
  induction text generalizing line with
  | nil => simp [fgetsLines]
  | cons c text ih =>
    rw [List.mem_cons, not_or] at single
    have onward : line ++ c :: text = (line ++ [c]) ++ text := by simp
    have later : ¬(c = '\n' ∨ line.length + 2 = n + 1) := by
      rw [List.length_append, List.length_cons] at short
      exact not_or.mpr ⟨Ne.symm single.1, by omega⟩
    rw [onward] at short ⊢
    rw [List.cons_append, fgetsLines, if_neg later]
    exact ih single.2 short

/-- What drops the newline from a line does not depend on whether the line has one. -/
theorem filterMap_fgetsLines_newline {α : Type*} {f : List Char → Option α} (size : Nat)
    (trims : ∀ piece, f (piece ++ ['\n']) = f piece) (empty : f [] = none)
    (line text : List Char) : (fgetsLines size line (text ++ ['\n'])).filterMap f =
      (fgetsLines size line text).filterMap f := by
  induction text generalizing line with
  | nil =>
    have ended : fgetsLines size line ([] ++ ['\n']) = [line ++ ['\n']] := by simp [fgetsLines]
    rw [ended, fgetsLines]
    split
    next blank => rw [List.filterMap_cons_none (by rw [trims, blank, empty])]
    next => rw [List.filterMap_cons, List.filterMap_cons, trims]
  | cons c text ih =>
    rw [List.cons_append, fgetsLines, fgetsLines]
    split
    · rw [List.filterMap_cons, List.filterMap_cons, ih]
    · exact ih _

/-- What is read of a whole file is read of its lines one by one. -/
theorem filterMap_fgetsLines {α : Type*} {f : List Char → Option α} (size : Nat)
    (trims : ∀ piece, f (piece ++ ['\n']) = f piece) (empty : f [] = none) (content : List Char) :
    (fgetsLines size [] content).filterMap f =
      (content.splitOn '\n').flatMap fun line => (fgetsLines size [] line).filterMap f := by
  have joined (lines : List (List Char)) (avoids : ∀ line ∈ lines, '\n' ∉ line)
      (nonempty : lines ≠ []) : (fgetsLines size [] (['\n'].intercalate lines)).filterMap f =
        lines.flatMap fun line => (fgetsLines size [] line).filterMap f := by
    induction lines with
    | nil => exact absurd rfl nonempty
    | cons line lines ih =>
      cases lines with
      | nil => simp
      | cons next lines =>
        have rest := ih (fun line member => avoids line (List.mem_cons_of_mem _ member))
          (List.cons_ne_nil _ _)
        rw [List.flatMap_cons, ← rest, List.intercalate_cons_cons, List.append_assoc,
          List.singleton_append, fgetsLines_append_newline size (avoids line List.mem_cons_self),
          List.filterMap_append, filterMap_fgetsLines_newline size trims empty]
  have lines := joined (content.splitOn '\n') (fun _ member => notMem_of_mem_splitOn member)
    (List.splitOn_ne_nil _ _)
  rwa [List.intercalate_splitOn] at lines

example : fgetsLines 4 [] "abcd\ne".toList = ["abc".toList, "d\n".toList, "e".toList] := by decide
example : strtok ',' ",a,,b c".toList = ["a".toList, "b c".toList] := by decide

/-! ### Numbers -/

def digitsValue (digits : List Char) : Nat :=
  digits.foldl (fun value digit => 10 * value + (digit.toNat - '0'.toNat)) 0

/-- An optional sign and the digits after it. -/
def signedDigits (input : List Char) : Bool × List Char :=
  match input.dropWhile isSpace with
  | '-' :: rest => (true, rest.takeWhile Char.isDigit)
  | '+' :: rest => (false, rest.takeWhile Char.isDigit)
  | rest => (false, rest.takeWhile Char.isDigit)

/-- `strtol` in base 10: a number out of the range of `long` becomes its nearest bound, and
text without digits becomes zero. -/
def strtol (input : List Char) : Int :=
  let (negative, digits) := signedDigits input
  let value : Int := digitsValue digits
  max (-2 ^ 63) (min (2 ^ 63 - 1) (if negative then -value else value))

/-- `atoi`: the low 32 bits of `strtol`. -/
def atoi (input : List Char) : Int32 := Int32.ofInt (strtol input)

/-- `%d`, which fails without digits. -/
def int (input : List Char) : Option Int32 :=
  if (signedDigits input).2 = [] then none else some (atoi input)

theorem not_isDigit_of_isSpace {c : Char} (space : isSpace c = true) :
    c.isDigit = false := by
  rw [Bool.eq_false_iff]
  intro digit
  simp only [isSpace, Bool.or_eq_true, Bool.and_eq_true, decide_eq_true_eq, Char.le_def] at space
  simp only [Char.isDigit, Bool.and_eq_true, decide_eq_true_eq] at digit
  rcases space with rfl | ⟨_, high⟩
  · exact absurd digit.1 (by decide)
  · exact absurd (UInt32.le_trans digit.1 high) (by decide)

/-- The digits end with the word they are in. -/
private theorem takeWhile_isDigit_append (word : List Char) {after : List Char}
    (ends : ∀ c ∈ after.head?, isSpace c = true) :
    (word ++ after).takeWhile Char.isDigit = word.takeWhile Char.isDigit := by
  have none : after.takeWhile Char.isDigit = [] := by
    cases after with
    | nil => rfl
    | cons c after =>
      rw [List.takeWhile_cons_of_neg]
      simp [not_isDigit_of_isSpace (ends c rfl)]
  rw [List.takeWhile_append]
  split
  next whole => rw [none, List.append_nil, (List.takeWhile_prefix _).eq_of_length whole]
  next => rfl

/-- A number is what the first word makes it. -/
theorem signedDigits_of_words {input word : List Char} {others : List (List Char)}
    (split : words input = word :: others) : signedDigits input = signedDigits word := by
  have first := words_split input
  simp only at first
  rw [split] at first
  split at first
  · cases first
  next nonempty =>
    obtain ⟨rfl, _⟩ := List.cons.inj first
    have whole := List.takeWhile_append_dropWhile (p := fun c => !isSpace c)
      (l := input.dropWhile isSpace)
    have stop := List.head?_dropWhile_not (fun c => !isSpace c) (input.dropWhile isSpace)
    have solid : ∀ c ∈ (input.dropWhile isSpace).takeWhile (fun c => !isSpace c),
        isSpace c = false := fun c member => by simpa using List.mem_takeWhile_imp member
    generalize (input.dropWhile isSpace).takeWhile (fun c => !isSpace c) = word at *
    generalize (input.dropWhile isSpace).dropWhile (fun c => !isSpace c) = after at *
    -- the word ends at a space or with the input, and so do its digits
    have ends : ∀ c ∈ after.head?, isSpace c = true := by
      intro c head
      rw [head] at stop
      simpa using stop
    cases word with
    | nil => exact absurd rfl nonempty
    | cons c word =>
      have head : ¬isSpace c = true := by simp [solid c List.mem_cons_self]
      have digits := takeWhile_isDigit_append (c :: word) ends
      unfold signedDigits
      rw [← whole, List.dropWhile_cons_of_neg head, List.cons_append]
      by_cases minus : c = '-'
      · subst minus
        simp only [takeWhile_isDigit_append word ends]
      · by_cases plus : c = '+'
        · subst plus
          simp only [takeWhile_isDigit_append word ends]
        · rw [List.cons_append] at digits
          simp [minus, plus, digits]

theorem digitsValue_decimal (k : Nat) : digitsValue (CText.decimal k) = k :=
  Nat.ofDigitChars_toDigits (by decide) (by decide)

private theorem signedDigits_decimal (k : Nat) :
    signedDigits (CText.decimal k) = (false, CText.decimal k) := by
  have all : (CText.decimal k).takeWhile Char.isDigit = CText.decimal k :=
    List.takeWhile_eq_self_iff.mpr fun _ member => CText.isDigit_of_mem_decimal member
  cases digits : CText.decimal k with
  | nil => rfl
  | cons c rest =>
    have digit : c.isDigit = true := CText.isDigit_of_mem_decimal (digits ▸ List.mem_cons_self)
    have solid : ¬isSpace c = true := fun space => by simp [not_isDigit_of_isSpace space] at digit
    have minus : c ≠ '-' := by
      rintro rfl
      cases digit
    have plus : c ≠ '+' := by
      rintro rfl
      cases digit
    rw [digits] at all
    unfold signedDigits
    rw [List.dropWhile_cons_of_neg solid]
    simp [minus, plus, all]

theorem signedDigits_signedDecimal (z : Int) :
    signedDigits (CText.signedDecimal z) = (decide (z < 0), CText.decimal z.natAbs) := by
  cases z with
  | ofNat k => exact signedDigits_decimal k
  | negSucc k =>
    have all : (CText.decimal (k + 1)).takeWhile Char.isDigit = CText.decimal (k + 1) :=
      List.takeWhile_eq_self_iff.mpr fun _ member => CText.isDigit_of_mem_decimal member
    have minus : ¬isSpace '-' = true := by decide
    simp [signedDigits, CText.signedDecimal, List.dropWhile_cons_of_neg minus, all]

/-- Every `int` that is printed is read back. -/
theorem atoi_signedDecimal (value : Int32) : atoi (CText.signedDecimal value.toInt) = value := by
  have low := value.le_toInt
  have high := value.toInt_lt
  rw [atoi, strtol, signedDigits_signedDecimal]
  simp only [digitsValue_decimal]
  have exact' : (if decide (value.toInt < 0) then -(value.toInt.natAbs : Int)
      else value.toInt.natAbs) = value.toInt := by
    by_cases negative : value.toInt < 0
    · rw [if_pos (decide_eq_true negative)]
      omega
    · rw [if_neg (by simpa using negative)]
      omega
  rw [exact', Int.min_eq_right (by omega), Int.max_eq_right (by omega), Int32.ofInt_toInt]

theorem int_of_words {input : List Char} {value : Int32} {others : List (List Char)}
    (split : words input = CText.signedDecimal value.toInt :: others) : int input = some value := by
  have digits := signedDigits_of_words split
  have some' : CText.decimal value.toInt.natAbs ≠ [] :=
    List.ne_nil_of_length_pos (CText.length_signedDecimal_pos (Int.ofNat value.toInt.natAbs))
  rw [int, digits, signedDigits_signedDecimal, if_neg some', atoi, strtol, digits]
  exact congrArg some (atoi_signedDecimal value)

example : atoi " -12x".toList = -12 := by decide
example : atoi "99999999999999999999".toList = -1 := by decide
example : fields [31, 3, 9] "mark ABCDE PRESENT".toList =
    ["mark".toList, "ABC".toList, "DE".toList] := by decide

end Scan
