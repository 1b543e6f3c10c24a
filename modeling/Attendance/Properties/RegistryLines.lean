import Attendance.Sample
import Mathlib.Data.List.Forall2

/-!
# Lines of a registry file

`fgets` reads a line of the registry in pieces of 255 characters. As long as what follows
the first of them holds no student, the students that are loaded stand on different lines
in their order; a longer comment can hold a student.
-/
namespace Attendance

/-- A line that is neither empty nor a comment. -/
def Counts (line : List Char) : Prop := line ≠ [] ∧ line.head? ≠ some '#'

instance (line : List Char) : Decidable (Counts line) := inferInstanceAs (Decidable (_ ∧ _))

/-- The id of the student stands in the first field of the line. -/
def StandsOn (student : Student) (line : List Char) : Prop :=
  Counts line ∧ ∃ field, (Scan.strtok ',' line).head? = some field ∧
    student.studentId.text <+: field.dropWhile Scan.isSpace

/-- The students stand on different lines, in their order. -/
def StandOnLines (students : List Student) (lines : List (List Char)) : Prop :=
  ∃ chosen, chosen.Sublist lines ∧ List.Forall₂ StandsOn students chosen

/-- No student is read from what follows the first 255 characters of a line. -/
def NoStudentBeyond (line : List Char) : Prop :=
  ∀ piece ∈ Scan.fgetsLines 256 [] (line.drop 255), studentOf piece = none

instance (line : List Char) : Decidable (NoStudentBeyond line) :=
  inferInstanceAs (Decidable (∀ piece ∈ Scan.fgetsLines 256 [] (line.drop 255), _))

/-- The students that are read from a line. -/
def lineStudents (line : List Char) : List Student :=
  (Scan.fgetsLines 256 [] line).filterMap studentOf

theorem students_of_loaded {content : List Char} {registry : StudentRegistry}
    (loaded : loadStudentRegistry (some content) = some registry) :
    registry.students = (content.splitOn '\n').flatMap lineStudents := by
  rw [(loadStudentRegistry_eq_some.mp loaded).2]
  exact Scan.filterMap_fgetsLines 256 studentOf_append_newline studentOf_nil content

theorem noStudentBeyond_iff {line : List Char} :
    NoStudentBeyond line ↔ lineStudents (line.drop 255) = [] :=
  List.filterMap_eq_nil_iff.symm

/-- A line that is read at once ends before. -/
theorem noStudentBeyond_of_short {line : List Char} (short : line.length ≤ 255) :
    NoStudentBeyond line := by
  rw [noStudentBeyond_iff, List.drop_of_length_le short]
  rfl

/-- The first 255 characters of a line, and what follows them. -/
theorem lineStudents_eq {line : List Char} (single : '\n' ∉ line) :
    lineStudents line = (studentOf (line.take 255)).toList ++ lineStudents (line.drop 255) := by
  by_cases empty : line = []
  · rw [empty]
    rfl
  · have cut : Scan.fgetsLines 256 [] line =
        line.take 255 :: Scan.fgetsLines 256 [] (line.drop 255) :=
      Scan.fgetsLines_eq_take_cons single (Nat.succ_pos _) empty
    rw [lineStudents, cut, List.filterMap_cons, lineStudents]
    cases studentOf (line.take 255) <;> rfl

/-- The id of a parsed student is the front of the first of several fields. -/
theorem studentId_of_parsed {line : List Char} {student : Student}
    (parsed : parseStudentLine line = some student) :
    ∃ first second others, Scan.strtok ',' line = first :: second :: others ∧
      student.studentId = .strncpy (first.dropWhile Scan.isSpace) := by
  unfold parseStudentLine at parsed
  split at parsed
  next studentId fullName courseCode others fields =>
    simp only at parsed
    split at parsed
    · cases parsed
    · obtain ⟨first, rest, tokens, rfl, more⟩ := List.map_eq_cons_iff.mp fields
      obtain ⟨second, _, rfl, _, _⟩ := List.map_eq_cons_iff.mp more
      cases parsed
      exact ⟨first, second, _, tokens, rfl⟩
  next => cases parsed

/-- A student that is read from the start of a line stands on it. -/
theorem standsOn_of_studentOf {piece line : List Char} {student : Student}
    (found : studentOf piece = some student) (start : piece <+: line) : StandsOn student line := by
  have text := (prefix_trimNewline piece).trans start
  simp only [studentOf] at found
  split at found
  · cases found
  next counted =>
    obtain ⟨nonempty, noComment⟩ := not_or.mp counted
    obtain ⟨first, second, others, tokens, studentId⟩ := studentId_of_parsed found
    refine ⟨⟨?_, ?_⟩, first, ?_, ?_⟩
    · rintro rfl
      exact nonempty (List.prefix_nil.mp text)
    · obtain ⟨rest, whole⟩ := text
      rwa [← whole, List.head?_append_of_ne_nil _ nonempty]
    · -- the field ends before the line of the student does
      have front := Scan.prefix_strtok ',' text
      rw [tokens, List.dropLast_cons_of_ne_nil (List.cons_ne_nil _ _)] at front
      obtain ⟨rest, whole⟩ := front
      rw [← whole, List.cons_append, List.head?_cons]
    · rw [studentId]
      exact List.take_prefix _ _

/-- Students from the starts of the lines stand on the lines they are from. -/
theorem standOnLines_of_noStudentBeyond {lines : List (List Char)}
    (single : ∀ line ∈ lines, '\n' ∉ line) (beyond : ∀ line ∈ lines, NoStudentBeyond line) :
    StandOnLines (lines.flatMap lineStudents) lines := by
  induction lines with
  | nil => exact ⟨[], .slnil, .nil⟩
  | cons line lines ih =>
    rw [List.forall_mem_cons] at single beyond
    obtain ⟨chosen, among, stand⟩ := ih single.2 beyond.2
    rw [List.flatMap_cons, lineStudents_eq single.1, noStudentBeyond_iff.mp beyond.1,
      List.append_nil]
    cases found : studentOf (line.take 255) with
    | none => exact ⟨chosen, among.cons line, stand⟩
    | some student =>
      have first := standsOn_of_studentOf found (List.take_prefix 255 line)
      exact ⟨line :: chosen, among.cons_cons line, .cons first stand⟩

/-- There are no more students than lines that count. -/
theorem StandOnLines.length_le {students : List Student} {lines : List (List Char)}
    (stand : StandOnLines students lines) : students.length ≤ lines.countP (Counts ·) := by
  obtain ⟨chosen, among, stand⟩ := stand
  have count : chosen.countP (Counts ·) = chosen.length := by
    rw [List.countP_eq_length]
    intro line member
    exact decide_eq_true (((List.forall₂_and_left _ _).mp stand.flip).1 line member)
  rw [stand.length_eq, ← count]
  exact among.countP_le

/-- Where every line that counts has a student, there are no fewer students than such lines. -/
theorem countP_le_length {lines : List (List Char)}
    (each : ∀ line ∈ lines, Counts line → lineStudents line ≠ []) :
    lines.countP (Counts ·) ≤ (lines.flatMap lineStudents).length := by
  induction lines with
  | nil => exact Nat.le_refl 0
  | cons line lines ih =>
    rw [List.forall_mem_cons] at each
    have rest := ih each.2
    rw [List.flatMap_cons, List.length_append, List.countP_cons]
    split
    next counts =>
      have first := List.length_pos_of_ne_nil (each.1 (of_decide_eq_true counts))
      omega
    next => omega

/-- If there are no more of them either, each line has exactly one student if it counts, and
none if it does not. -/
theorem length_lineStudents_eq {lines : List (List Char)}
    (each : ∀ line ∈ lines, Counts line → lineStudents line ≠ [])
    (total : (lines.flatMap lineStudents).length ≤ lines.countP (Counts ·)) :
    ∀ line ∈ lines, (lineStudents line).length = if Counts line then 1 else 0 := by
  induction lines with
  | nil => simp
  | cons line lines ih =>
    rw [List.forall_mem_cons] at each ⊢
    have rest := countP_le_length each.2
    rw [List.flatMap_cons, List.length_append, List.countP_cons] at total
    simp only [decide_eq_true_eq] at total
    split at total
    next counts =>
      have first := List.length_pos_of_ne_nil (each.1 counts)
      exact ⟨by rw [if_pos counts]; omega, ih each.2 (by omega)⟩
    next skipped => exact ⟨by rw [if_neg skipped]; omega, ih each.2 (by omega)⟩

/-- The students of a registry stand on different lines if no line has a student beyond its first
255 characters, and only if, where every line that counts has one in them. -/
theorem registry_lines_iff {content : List Char} {registry : StudentRegistry}
    (loaded : loadStudentRegistry (some content) = some registry) :
    let lines := content.splitOn '\n'
    ((∀ line ∈ lines, NoStudentBeyond line) → StandOnLines registry.students lines) ∧
    ((∀ line ∈ lines, Counts line → studentOf (line.take 255) ≠ none) →
      (StandOnLines registry.students lines ↔ ∀ line ∈ lines, NoStudentBeyond line)) := by
  intro lines
  have single : ∀ line ∈ lines, '\n' ∉ line := fun line => Scan.notMem_of_mem_splitOn
  rw [students_of_loaded loaded]
  have enough := standOnLines_of_noStudentBeyond single
  refine ⟨enough, fun first => ⟨fun stand line member => ?_, enough⟩⟩
  -- the first 255 characters of a line that counts have the only student it may have
  have front : ∀ line ∈ lines, Counts line → (studentOf (line.take 255)).toList.length = 1 := by
    intro line member counts
    obtain ⟨student, found⟩ := Option.ne_none_iff_exists'.mp (first line member counts)
    rw [found, Option.toList_some, List.length_singleton]
  have length (line : List Char) (member : line ∈ lines) := congrArg List.length
    (lineStudents_eq (single line member))
  have each : ∀ line ∈ lines, Counts line → lineStudents line ≠ [] := by
    intro line member counts
    apply List.ne_nil_of_length_pos
    rw [length line member, List.length_append, front line member counts]
    omega
  have total := length_lineStudents_eq each stand.length_le line member
  rw [length line member, List.length_append] at total
  rw [noStudentBeyond_iff, ← List.length_eq_zero_iff]
  split at total
  next counts =>
    rw [front line member counts] at total
    omega
  next => omega

/-- A line whose first 255 characters hold no student. Its student can stand on it all the same,
if the characters after them start like the line. -/
def malformedLine : List Char := List.replicate 255 'A' ++ "A,B,C".toList

theorem standOnLines_malformedLine :
    ∃ registry, loadStudentRegistry (some malformedLine) = some registry ∧
      StandOnLines registry.students (malformedLine.splitOn '\n') ∧
      ¬∀ line ∈ malformedLine.splitOn '\n', NoStudentBeyond line := by
  let student : Student := ⟨.strncpy "A".toList, .strncpy "B".toList, .strncpy "C".toList⟩
  have lines : malformedLine.splitOn '\n' = [malformedLine] :=
    List.splitOn_eq_singleton (by decide +kernel)
  refine ⟨⟨[student], Nat.succ_pos _⟩, ?_, ⟨[malformedLine], ?_, ?_⟩, ?_⟩
  · rw [loadStudentRegistry_eq_some]
    exact ⟨List.cons_ne_nil _ _, by decide +kernel⟩
  · rw [lines]
  · refine .cons ⟨by decide, List.replicate 256 'A', ?_, ?_⟩ .nil
    · decide +kernel
    · decide +kernel
  · rw [lines, List.forall_mem_singleton]
    decide +kernel

/-- A comment that is too long for one piece. -/
def longComment : List Char := List.replicate 255 '#' ++ "X,Y,Z".toList

/-- The end of a long comment is loaded as a student. -/
theorem long_comment_holds_student :
    '\x00' ∉ longComment ++ ['\n'] ∧
    ∃ registry, loadStudentRegistry (some (longComment ++ ['\n'])) = some registry ∧
      ¬StandOnLines registry.students ((longComment ++ ['\n']).splitOn '\n') := by
  let student : Student := ⟨.strncpy "X".toList, .strncpy "Y".toList, .strncpy "Z".toList⟩
  refine ⟨by decide +kernel, ⟨[student], Nat.succ_pos _⟩, ?_, ?_⟩
  · rw [loadStudentRegistry_eq_some]
    exact ⟨List.cons_ne_nil _ _, by decide +kernel⟩
  · intro stand
    have lines : (longComment ++ ['\n']).splitOn '\n' = [longComment, []] := by
      rw [List.splitOn_append_cons_self_of_not_mem (by decide +kernel), List.splitOn_nil]
    have fewer := stand.length_le
    rw [lines] at fewer
    exact absurd fewer (by decide)

def sampleFile : List Char := "ALU001,John Doe,BLK101\nALU002,Jane Smith,BLK101\n".toList

theorem loadStudentRegistry_sampleFile :
    loadStudentRegistry (some sampleFile) = some Sample.registry := by
  rw [loadStudentRegistry_eq_some]
  exact ⟨List.cons_ne_nil _ _, by decide +kernel⟩

theorem registry_lines_iff_sample :
    StandOnLines Sample.registry.students (sampleFile.splitOn '\n') := by
  have short : ∀ line ∈ sampleFile.splitOn '\n', line.length ≤ 255 := by decide +kernel
  apply (registry_lines_iff loadStudentRegistry_sampleFile).1
  exact fun line member => noStudentBeyond_of_short (short line member)

end Attendance
