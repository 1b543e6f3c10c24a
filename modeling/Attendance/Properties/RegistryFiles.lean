import Attendance.Sample

/-!
# Registry files

A registry file with one line for each student, and with empty lines and comments between
them, is loaded as these students in their order.
-/
namespace Attendance

open CText

/-- A field that does not end early, and that has no white space in front to skip. -/
structure PlainField (field : List Char) : Prop where
  nonempty : field ≠ []
  plain : ∀ c ∈ field, c ≠ ',' ∧ c ≠ '\x00' ∧ c ≠ '\n' ∧ c ≠ '\r'
  start : ∀ c ∈ field.head?, Scan.isSpace c = false

theorem plainField_iff (field : List Char) : field ≠ [] ∧
    (field.all fun c => c ≠ ',' && c ≠ '\x00' && c ≠ '\n' && c ≠ '\r') = true ∧
    (field.head?.all fun c => !Scan.isSpace c) = true ↔ PlainField field := by
  have plain : (field.all fun c => c ≠ ',' && c ≠ '\x00' && c ≠ '\n' && c ≠ '\r') = true ↔
      ∀ c ∈ field, c ≠ ',' ∧ c ≠ '\x00' ∧ c ≠ '\n' ∧ c ≠ '\r' := by
    simp [and_assoc]
  have start : (field.head?.all fun c => !Scan.isSpace c) = true ↔
      ∀ c ∈ field.head?, Scan.isSpace c = false := by
    cases field <;> simp
  rw [plain, start]
  exact ⟨fun ⟨nonempty, plain, start⟩ => ⟨nonempty, plain, start⟩,
    fun ⟨nonempty, plain, start⟩ => ⟨nonempty, plain, start⟩⟩

instance (field : List Char) : Decidable (PlainField field) :=
  decidable_of_iff _ (plainField_iff field)

def csvFields (student : Student) : List (List Char) :=
  [student.studentId.text, student.fullName.text, student.courseCode.text]

/-- The line of a student, without its newline. -/
def csvLine (student : Student) : List Char := [','].intercalate (csvFields student)

/-- A student who can stand on a line of the file. -/
structure CsvStudent (student : Student) : Prop where
  fields : ∀ field ∈ csvFields student, PlainField field
  noComment : student.studentId.text.head? ≠ some '#'

instance (student : Student) : Decidable (CsvStudent student) :=
  decidable_of_iff ((∀ field ∈ csvFields student, PlainField field) ∧
      student.studentId.text.head? ≠ some '#')
    ⟨fun ⟨fields, noComment⟩ => ⟨fields, noComment⟩, fun csv => ⟨csv.fields, csv.noComment⟩⟩

inductive RegistryLine where
  | entry (student : Student) (csv : CsvStudent student)
  | blank
  | comment (text : List Char) (single : '\n' ∉ text) (short : ('#' :: text).length < 255)

namespace RegistryLine

def text : RegistryLine → List Char
  | entry student _ => csvLine student
  | blank => []
  | comment text _ _ => '#' :: text

def student? : RegistryLine → Option Student
  | entry student _ => some student
  | blank => none
  | comment _ _ _ => none

end RegistryLine

/-- The content of a file with these lines. -/
def fileText (lines : List RegistryLine) : List Char :=
  lines.flatMap fun line => line.text ++ ['\n']

theorem PlainField.dropWhile_isSpace {field : List Char} (plain : PlainField field) :
    field.dropWhile Scan.isSpace = field := by
  cases field with
  | nil => rfl
  | cons c rest => exact List.dropWhile_cons_of_neg (by simp [plain.start c rfl])

theorem csvLine_eq (student : Student) : csvLine student =
    student.studentId.text ++ ',' :: (student.fullName.text ++ ',' :: student.courseCode.text) := by
  simp [csvLine, csvFields, List.intercalate]

theorem length_csvLine (student : Student) : (csvLine student).length < 255 := by
  have studentId : student.studentId.text.length < 20 := student.studentId.fits
  have fullName : student.fullName.text.length < 50 := student.fullName.fits
  have courseCode : student.courseCode.text.length < 10 := student.courseCode.fits
  rw [csvLine_eq, List.length_append, List.length_cons, List.length_append, List.length_cons]
  omega

namespace CsvStudent

variable {student : Student}

theorem plain (csv : CsvStudent student) :
    ∀ c ∈ csvLine student, c ≠ '\x00' ∧ c ≠ '\n' ∧ c ≠ '\r' := by
  have of_field {field : List Char} (member : field ∈ csvFields student) (c : Char)
      (inside : c ∈ field) : c ≠ '\x00' ∧ c ≠ '\n' ∧ c ≠ '\r' :=
    ((csv.fields field member).plain c inside).2
  intro c member
  rw [csvLine_eq, List.mem_append, List.mem_cons, List.mem_append, List.mem_cons] at member
  rcases member with first | comma | second | comma | third
  · exact of_field (by simp [csvFields]) c first
  · simp [comma]
  · exact of_field (by simp [csvFields]) c second
  · simp [comma]
  · exact of_field (by simp [csvFields]) c third

theorem named (csv : CsvStudent student) : student.studentId.text ≠ [] :=
  (csv.fields _ List.mem_cons_self).nonempty

/-- The line of a student is parsed as this student. -/
theorem parseStudentLine_csvLine (csv : CsvStudent student) :
    parseStudentLine (csvLine student) = some student := by
  have tokens : Scan.strtok ',' (csvLine student) = csvFields student := by
    apply Scan.strtok_intercalate (List.cons_ne_nil _ _)
    · intro field member comma
      exact ((csv.fields field member).plain _ comma).1 rfl
    · exact fun field member => (csv.fields field member).nonempty
  have skipped : (csvFields student).map (List.dropWhile Scan.isSpace) = csvFields student :=
    (List.map_congr_left fun field member =>
      (csv.fields field member).dropWhile_isSpace).trans (List.map_id _)
  rw [parseStudentLine, tokens, skipped, csvFields]
  simp only [CStr.strncpy_text, if_neg csv.named]

end CsvStudent

namespace RegistryLine

theorem single (line : RegistryLine) : '\n' ∉ line.text := by
  cases line with
  | entry student csv => exact fun newline => (csv.plain _ newline).2.1 rfl
  | blank => exact List.not_mem_nil
  | comment rest single short => exact List.not_mem_cons_of_ne_of_not_mem (by decide) single

theorem length_text (line : RegistryLine) : line.text.length < 255 := by
  cases line with
  | entry student csv => exact length_csvLine student
  | blank => exact Nat.succ_pos _
  | comment text single short => exact short

/-- Only the lines of students are parsed. -/
theorem studentOf_text (line : RegistryLine) : studentOf line.text = line.student? := by
  cases line with
  | entry student csv =>
    have plain := trimNewline_eq_self csv.plain
    have parsed : ¬(csvLine student = [] ∨ (csvLine student).head? = some '#') := by
      obtain ⟨c, rest, studentId⟩ := List.exists_cons_of_ne_nil csv.named
      have noComment := csv.noComment
      rw [csvLine_eq]
      simpa [studentId] using noComment
    rw [text, studentOf, plain, if_neg parsed, csv.parseStudentLine_csvLine, student?]
  | blank => rfl
  | comment rest single short => exact studentOf_comment rest

end RegistryLine

/-- `fgets` reads the lines of the file. -/
theorem fgetsLines_fileText (lines : List RegistryLine) :
    Scan.fgetsLines 256 [] (fileText lines) = lines.map fun line => line.text ++ ['\n'] := by
  induction lines with
  | nil => rfl
  | cons line lines ih =>
    rw [fileText, List.flatMap_cons, List.append_assoc, List.singleton_append,
      Scan.fgetsLines_append_newline 256 line.single, Scan.fgetsLines_of_short line.single
        line.length_text, List.map_cons, ← ih]
    rfl

/-- The students of a file, in the order of their lines. -/
def studentsOf (lines : List RegistryLine) : List Student := lines.filterMap RegistryLine.student?

theorem filterMap_fileText (lines : List RegistryLine) :
    (Scan.fgetsLines 256 [] (fileText lines)).filterMap studentOf = studentsOf lines := by
  rw [fgetsLines_fileText, List.filterMap_map, studentsOf]
  apply List.filterMap_congr
  intro line _
  exact (studentOf_append_newline line.text).trans line.studentOf_text

/-- A file with lines of students who have different ids is loaded as these students. Each is
found under its id, and no other id is. -/
theorem registry_file_round_trip (lines : List RegistryLine)
    (nonempty : 1 ≤ (studentsOf lines).length)
    (room : (studentsOf lines).length ≤ maxStudents)
    (distinct : ((studentsOf lines).map fun student => student.studentId.text).Nodup) :
    ∃ registry, loadStudentRegistry (some (fileText lines)) = some registry ∧
      registry.students = studentsOf lines ∧
      (∀ student ∈ studentsOf lines,
        findStudent registry student.studentId.text = some student) ∧
      ∀ studentId, studentId ∉ (studentsOf lines).map (fun student => student.studentId.text) →
        findStudent registry studentId = none := by
  refine ⟨⟨studentsOf lines, room⟩, ?_, rfl, ?_, ?_⟩
  · rw [loadStudentRegistry_eq_some, filterMap_fileText]
    exact ⟨List.ne_nil_of_length_pos nonempty, rfl⟩
  · intro student listed
    exact Table.lookup_of_mem _ distinct listed
  · intro studentId absent
    exact Table.lookup_eq_none _ absent

theorem csv_of_mem_sample : ∀ student ∈ Sample.registry.students, CsvStudent student := by decide

/-- A comment, the sample students, and an empty line after each of them. -/
def sampleLines : List RegistryLine :=
  .comment " id,name,course".toList (by decide) (by decide) ::
    Sample.registry.students.attach.flatMap fun student =>
      [.entry student.1 (csv_of_mem_sample student.1 student.2), .blank]

theorem registry_file_round_trip_sample :
    ∃ registry, loadStudentRegistry (some (fileText sampleLines)) = some registry ∧
      registry.students = Sample.registry.students ∧
      findStudent registry "ALU003".toList = none := by
  have students : studentsOf sampleLines = Sample.registry.students := rfl
  obtain ⟨registry, loaded, listed, _, absent⟩ := registry_file_round_trip sampleLines
    (by rw [students]; decide) (by rw [students]; exact Sample.registry.fits)
    (by rw [students]; decide)
  exact ⟨registry, loaded, listed.trans students, absent _ (by rw [students]; decide)⟩

end Attendance
