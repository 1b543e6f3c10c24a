import Attendance.Foundation.Scan
import Attendance.Foundation.Table
import Attendance.Types
import Mathlib.Data.List.DropRight

/-!
# The student registry

`students.c`: loading the registry from its file, and looking students up.
-/
namespace Attendance

open CText

/-- A NUL that was read ends the line. -/
def trimNewline (line : List Char) : List Char :=
  (untilNul line).rdropWhile fun c => c = '\n' || c = '\r'

/-- The first three fields of a line, without the white space in front of them. -/
def parseStudentLine (line : List Char) : Option Student :=
  match (Scan.strtok ',' line).map (List.dropWhile Scan.isSpace) with
  | studentId :: fullName :: courseCode :: _ =>
    let student : Student := ⟨.strncpy studentId, .strncpy fullName, .strncpy courseCode⟩
    -- the other two fields may be empty
    if student.studentId.text = [] then none else some student
  | _ => none

/-- The loop of `load_student_registry`; `none` is a registry that exceeds its capacity. -/
def loadLine (registry : StudentRegistry) (line : List Char) : Option StudentRegistry :=
  let text := trimNewline line
  if text = [] ∨ text.head? = some '#' then some registry
  else
    match parseStudentLine text with
    -- a malformed line is skipped with a warning
    | none => some registry
    | some student =>
      if room : registry.students.length < maxStudents then
        some ⟨registry.students ++ [student], by simpa [Nat.succ_le_iff] using room⟩
      else none

/-- The registry of a file with this content, or of none that can be opened; `none` is the C
function returning false. -/
def loadStudentRegistry (file : Option (List Char)) : Option StudentRegistry := do
  let content ← file
  let registry ← (Scan.fgetsLines 256 [] content).foldlM loadLine ⟨[], Nat.zero_le _⟩
  if registry.students = [] then none else some registry

def findStudent (registry : StudentRegistry) (studentId : List Char) : Option Student :=
  Table.lookup (fun student => student.studentId.text) studentId registry.students

def isValidStatus (status : List Char) : Bool :=
  status = "PRESENT".toList || status = "ABSENT".toList || status = "LATE".toList

/-- A student on a line has an id, and no comma in its fields. -/
theorem parseStudentLine_some {line : List Char} {student : Student}
    (parsed : parseStudentLine line = some student) :
    student.studentId.text ≠ [] ∧ ',' ∉ student.studentId.text ∧ ',' ∉ student.fullName.text ∧
      ',' ∉ student.courseCode.text := by
  unfold parseStudentLine at parsed
  split at parsed
  next studentId fullName courseCode others tokens =>
    have avoids {token : List Char}
        (member : token ∈ (Scan.strtok ',' line).map (List.dropWhile Scan.isSpace)) {n : Nat} :
        ',' ∉ token.take n := by
      obtain ⟨whole, inside, rfl⟩ := List.mem_map.mp member
      intro comma
      exact Scan.notMem_of_mem_strtok inside
        ((List.dropWhile_sublist _).subset (List.mem_of_mem_take comma))
    rw [tokens] at avoids
    simp only at parsed
    split at parsed
    · cases parsed
    next named =>
      cases parsed
      exact ⟨named, avoids (by simp), avoids (by simp), avoids (by simp)⟩
  next => cases parsed

/-- The student of a line that `fgets` has read, if it has one. -/
def studentOf (line : List Char) : Option Student :=
  let text := trimNewline line
  if text = [] ∨ text.head? = some '#' then none else parseStudentLine text

theorem prefix_trimNewline (line : List Char) : trimNewline line <+: line :=
  (List.rdropWhile_prefix _ _).trans (prefix_untilNul line)

theorem trimNewline_append_newline (line : List Char) :
    trimNewline (line ++ ['\n']) = trimNewline line := by
  rw [trimNewline, trimNewline, untilNul, untilNul, List.takeWhile_append]
  split
  next whole =>
    have text := (List.takeWhile_prefix (· ≠ '\x00')).eq_of_length whole
    rw [List.takeWhile_cons_of_pos rfl, List.takeWhile_nil, List.rdropWhile_concat_pos _ _ _ rfl,
      text]
  next => rfl

/-- A text without line ends and NULs is all of its line. -/
theorem trimNewline_eq_self {line : List Char}
    (plain : ∀ c ∈ line, c ≠ '\x00' ∧ c ≠ '\n' ∧ c ≠ '\r') : trimNewline line = line := by
  have text : untilNul line = line :=
    untilNul_of_notMem fun member => (plain '\x00' member).1 rfl
  rw [trimNewline, text, List.rdropWhile_eq_self_iff]
  intro nonempty
  have last := plain _ (List.getLast_mem nonempty)
  simp [last.2.1, last.2.2]

theorem studentOf_nil : studentOf [] = none := rfl

theorem studentOf_append_newline (line : List Char) :
    studentOf (line ++ ['\n']) = studentOf line := by
  rw [studentOf, studentOf, trimNewline_append_newline]

theorem head?_trimNewline {c : Char} (solid : c ≠ '\x00' ∧ c ≠ '\n' ∧ c ≠ '\r')
    (rest : List Char) : (trimNewline (c :: rest)).head? = some c := by
  have text : untilNul (c :: rest) = c :: untilNul rest :=
    List.takeWhile_cons_of_pos (by simpa using solid.1)
  rw [trimNewline, text]
  generalize untilNul rest = word
  have kept : (c :: word).rdropWhile (fun c => c = '\n' || c = '\r') ≠ [] := by
    rw [Ne, List.rdropWhile_eq_nil_iff]
    intro dropped
    simpa [solid.2] using dropped c List.mem_cons_self
  obtain ⟨after, whole⟩ := List.rdropWhile_prefix (fun c => c = '\n' || c = '\r') (c :: word)
  rw [← List.head?_append_of_ne_nil _ kept, whole, List.head?_cons]

theorem studentOf_comment (rest : List Char) : studentOf ('#' :: rest) = none := by
  rw [studentOf, head?_trimNewline (by decide), if_pos (.inr rfl)]

private theorem loadLine_of_none {registry : StudentRegistry} {line : List Char}
    (absent : studentOf line = none) : loadLine registry line = some registry := by
  simp only [studentOf] at absent
  rw [loadLine]
  split at absent
  next skipped => rw [if_pos skipped]
  next counted => rw [if_neg counted, absent]

private theorem loadLine_of_some (registry : StudentRegistry) {line : List Char}
    {student : Student} (found : studentOf line = some student) :
    (∀ fits : (registry.students ++ [student]).length ≤ maxStudents,
      loadLine registry line = some ⟨registry.students ++ [student], fits⟩) ∧
    (¬registry.students.length < maxStudents → loadLine registry line = none) := by
  simp only [studentOf] at found
  rw [loadLine]
  split at found
  · cases found
  next counted =>
    rw [if_neg counted, found]
    refine ⟨fun fits => ?_, fun full => dif_neg full⟩
    have room : registry.students.length < maxStudents := by
      rwa [List.length_append, List.length_singleton] at fits
    exact dif_pos room

/-- The loop adds the students of the lines, in their order. -/
private theorem foldlM_loadLine (lines : List (List Char)) (registry registry' : StudentRegistry) :
    lines.foldlM loadLine registry = some registry' ↔
      registry'.students = registry.students ++ lines.filterMap studentOf := by
  induction lines generalizing registry with
  | nil =>
    rw [List.foldlM_nil, List.filterMap_nil, List.append_nil]
    constructor
    · rintro ⟨⟩
      rfl
    · intro same
      cases registry
      cases registry'
      cases same
      rfl
  | cons line lines ih =>
    rw [List.foldlM_cons]
    cases found : studentOf line with
    | none =>
      rw [loadLine_of_none found, List.filterMap_cons_none found]
      exact ih registry
    | some student =>
      obtain ⟨stored, refused⟩ := loadLine_of_some registry found
      rw [List.filterMap_cons_some found]
      by_cases room : registry.students.length < maxStudents
      · have fits : (registry.students ++ [student]).length ≤ maxStudents := by
          rwa [List.length_append, List.length_singleton]
        have added := ih ⟨registry.students ++ [student], fits⟩
        rw [List.append_assoc] at added
        rw [stored fits]
        exact added
      · -- the registry has no room for what the lines hold
        rw [refused room]
        simp only [Option.bind_eq_bind, Option.bind_none, false_iff, reduceCtorEq]
        intro same
        have fits := registry'.fits
        rw [same, List.length_append, List.length_cons] at fits
        omega

/-- A file is loaded as the students of its lines, of which there has to be one. -/
theorem loadStudentRegistry_eq_some {content : List Char} {registry : StudentRegistry} :
    loadStudentRegistry (some content) = some registry ↔ registry.students ≠ [] ∧
      registry.students = (Scan.fgetsLines 256 [] content).filterMap studentOf := by
  have loop := foldlM_loadLine (Scan.fgetsLines 256 [] content) ⟨[], Nat.zero_le _⟩
  simp only [loadStudentRegistry, Option.bind_eq_bind, Option.bind_some,
    Option.bind_eq_some_iff, loop, List.nil_append]
  constructor
  · rintro ⟨result, students, returned⟩
    split at returned
    · cases returned
    next nonempty =>
      cases returned
      exact ⟨nonempty, students⟩
  · rintro ⟨nonempty, students⟩
    exact ⟨registry, students, if_neg nonempty⟩

/-- Every student that is loaded stands on a line of the file. -/
theorem parsed_of_loaded {file : Option (List Char)} {registry : StudentRegistry}
    (loaded : loadStudentRegistry file = some registry) :
    ∀ student ∈ registry.students, ∃ line, parseStudentLine line = some student := by
  cases file with
  | none => cases loaded
  | some content =>
    intro student listed
    rw [(loadStudentRegistry_eq_some.mp loaded).2] at listed
    obtain ⟨line, _, found⟩ := List.mem_filterMap.mp listed
    simp only [studentOf] at found
    split at found
    · cases found
    · exact ⟨_, found⟩

/-- A student is found again under the id of its own record. -/
theorem findStudent_studentId {registry : StudentRegistry} {studentId : List Char}
    {student : Student} (found : findStudent registry studentId = some student) :
    student.studentId.text = studentId ∧
      findStudent registry student.studentId.text = some student := by
  have same := Table.key_of_lookup (fun student : Student => student.studentId.text) found
  exact ⟨same, by rw [same]; exact found⟩

theorem length_of_isValidStatus {status : List Char} (valid : isValidStatus status = true) :
    status.length < statusLen := by
  simp only [isValidStatus, Bool.or_eq_true, decide_eq_true_eq] at valid
  rcases valid with (rfl | rfl) | rfl <;> decide

end Attendance
