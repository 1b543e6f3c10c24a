import Attendance.Pending
import Attendance.Sample

/-!
# What the hash payload of a block says

The payload of a block joins ten fields with bars. Those before and after the three fields of
the student contain no bar. The student's fields come from the registry file as they are, and
their text says nothing about which of its bars are separators.
-/
namespace Attendance

open CText

def IsHash (text : List Char) : Prop := text.length = 64 ∧ text.all isHexDigit = true

instance (text : List Char) : Decidable (IsHash text) := inferInstanceAs (Decidable (_ ∧ _))

/-- The text fields of the block are as the program fills them: a student from a registry
file, with no field empty, a valid status, a transaction id or none, and a previous hash. -/
structure FromProgram (block : Block) : Prop where
  student : ∃ file registry, loadStudentRegistry file = some registry ∧
    ∃ student ∈ registry.students, block.studentId = student.studentId ∧
      block.fullName = student.fullName ∧ block.courseCode = student.courseCode
  filled : block.studentId.text ≠ [] ∧ block.fullName.text ≠ [] ∧ block.courseCode.text ≠ []
  status : isValidStatus block.status.text = true
  transactionId : block.transactionId.text = [] ∨ IsHash block.transactionId.text
  previousHash : IsHash block.previousHash.text

/-- The fields outside those of the student. -/
structure AgreesOutside (left right : Block) : Prop where
  index : left.index = right.index
  timestamp : left.timestamp = right.timestamp
  status : left.status = right.status
  tokenReward : left.tokenReward = right.tokenReward
  transactionId : left.transactionId = right.transactionId
  previousHash : left.previousHash = right.previousHash
  nonce : left.nonce = right.nonce

/-- All fields of the payload. -/
structure SamePrinted (left right : Block) : Prop extends AgreesOutside left right where
  studentId : left.studentId = right.studentId
  fullName : left.fullName = right.fullName
  courseCode : left.courseCode = right.courseCode

/-- The fields of the student as the payload has them. -/
def studentText (block : Block) : List Char :=
  joinWith '|' [block.studentId.text, block.fullName.text, block.courseCode.text]

/-- The students of the two blocks make one text, but are cut out of it at different bars. -/
def CutApart (left right : Block) : Prop :=
  studentText left = studentText right ∧
  (left.studentId.text.length ≠ right.studentId.text.length ∨
    left.fullName.text.length ≠ right.fullName.text.length)

/-- Whatever the registry file, its students have no comma in their fields. -/
theorem FromProgram.comma_free {block : Block} (program : FromProgram block) :
    ',' ∉ block.studentId.text ∧ ',' ∉ block.fullName.text ∧ ',' ∉ block.courseCode.text := by
  obtain ⟨file, registry, loaded, student, listed, studentId, fullName, courseCode⟩ :=
    program.student
  obtain ⟨line, parsed⟩ := parsed_of_loaded loaded student listed
  rw [studentId, fullName, courseCode]
  exact (parseStudentLine_some parsed).2

/-! ### Bars -/

theorem bar_notMem_of_isHash {text : List Char} (hash : IsHash text) : '|' ∉ text := by
  intro member
  have hex := List.all_eq_true.mp hash.2 '|' member
  revert hex
  decide

private theorem bar_notMem_status {status : List Char} (valid : isValidStatus status = true) :
    '|' ∉ status := by
  simp only [isValidStatus, Bool.or_eq_true, decide_eq_true_eq] at valid
  rcases valid with (rfl | rfl) | rfl <;> decide

private theorem bar_notMem_transactionId {block : Block} (program : FromProgram block) :
    '|' ∉ block.transactionId.text := by
  rcases program.transactionId with none_made | made
  · simp [none_made]
  · exact bar_notMem_of_isHash made

/-! ### The payload -/

private theorem serializeBlockForSignature_cut (block : Block) :
    serializeBlockForSignature block =
      (((signedDecimal block.index.toInt ++ '|' :: (signedDecimal block.timestamp.toInt ++
        '|' :: studentText block)) ++ '|' :: block.status.text) ++
        '|' :: signedDecimal block.tokenReward.toInt) ++ '|' :: block.transactionId.text ++
        '|' :: block.previousHash.text := by
  simp only [serializeBlockForSignature_eq, studentText, joinWith, List.append_assoc,
    List.cons_append]

/-- The payload determines the fields outside those of the student, and the text of these. -/
private theorem outside_of_payload {left right : Block} (program : FromProgram left)
    (program' : FromProgram right)
    (same : serializeBlockForHash left = serializeBlockForHash right) :
    AgreesOutside left right ∧ studentText left = studentText right := by
  obtain ⟨previousHash, nonce⟩ := tail_of_serializeBlockForHash
    (bar_notMem_of_isHash program.previousHash) (bar_notMem_of_isHash program'.previousHash) same
  rw [serializeBlockForHash_eq, serializeBlockForHash_eq, nonce, List.append_cancel_right_eq,
    serializeBlockForSignature_cut, serializeBlockForSignature_cut, previousHash,
    List.append_cancel_right_eq] at same
  -- the other fields behind the student are read off from the end, those before from the start
  obtain ⟨same, transactionId⟩ := split_last (bar_notMem_transactionId program)
    (bar_notMem_transactionId program') same
  obtain ⟨same, tokenReward⟩ := split_last (bar_notMem_signedDecimal _)
    (bar_notMem_signedDecimal _) same
  obtain ⟨same, status⟩ := split_last (bar_notMem_status program.status)
    (bar_notMem_status program'.status) same
  obtain ⟨index, same⟩ := split_first (bar_notMem_signedDecimal _)
    (bar_notMem_signedDecimal _) same
  obtain ⟨timestamp, students⟩ := split_first (bar_notMem_signedDecimal _)
    (bar_notMem_signedDecimal _) same
  exact ⟨⟨Int32.toInt_inj.mp (signedDecimal_injective index),
    Int64.toInt_inj.mp (signedDecimal_injective timestamp), CStr.ext status,
    Int32.toInt_inj.mp (signedDecimal_injective tokenReward), CStr.ext transactionId,
    previousHash, nonce⟩, students⟩

private theorem payload_of_outside {left right : Block} (agrees : AgreesOutside left right)
    (students : studentText left = studentText right) :
    serializeBlockForHash left = serializeBlockForHash right := by
  rw [serializeBlockForHash_eq, serializeBlockForHash_eq, serializeBlockForSignature_cut,
    serializeBlockForSignature_cut, students, agrees.index, agrees.timestamp, agrees.status,
    agrees.tokenReward, agrees.transactionId, agrees.previousHash, agrees.nonce]

/-- Fields of the same lengths are the same when their texts are. -/
private theorem students_of_lengths {left right : Block}
    (students : studentText left = studentText right)
    (ids : left.studentId.text.length = right.studentId.text.length)
    (names : left.fullName.text.length = right.fullName.text.length) :
    left.studentId = right.studentId ∧ left.fullName = right.fullName ∧
      left.courseCode = right.courseCode := by
  simp only [studentText, joinWith] at students
  obtain ⟨studentId, rest⟩ := List.append_inj students ids
  obtain ⟨fullName, rest⟩ := List.append_inj (List.cons.inj rest).2 names
  exact ⟨CStr.ext studentId, CStr.ext fullName, CStr.ext (List.cons.inj rest).2⟩

/-- Students whose ids and names have no bar are cut at the same bars. -/
theorem not_cutApart {left right : Block} (ids : '|' ∉ left.studentId.text)
    (ids' : '|' ∉ right.studentId.text) (names : '|' ∉ left.fullName.text)
    (names' : '|' ∉ right.fullName.text) : ¬CutApart left right := by
  rintro ⟨students, lengths⟩
  simp only [studentText, joinWith] at students
  obtain ⟨studentId, rest⟩ := split_first ids ids' students
  obtain ⟨fullName, _⟩ := split_first names names' rest
  rw [studentId, fullName] at lengths
  exact lengths.elim (absurd rfl) (absurd rfl)

/-- The payload of two blocks from the program determines all of its fields, unless they
differ in the students alone, and these only in where one text is cut. -/
theorem payload_determines_block_iff (left right : Block) (program : FromProgram left)
    (program' : FromProgram right) :
    (serializeBlockForHash left = serializeBlockForHash right → SamePrinted left right) ↔
      ¬(AgreesOutside left right ∧ CutApart left right) := by
  constructor
  · rintro determines ⟨agrees, students, lengths⟩
    have same := determines (payload_of_outside agrees students)
    rw [same.studentId, same.fullName] at lengths
    exact lengths.elim (absurd rfl) (absurd rfl)
  · intro together same
    obtain ⟨agrees, students⟩ := outside_of_payload program program' same
    have lengths : left.studentId.text.length = right.studentId.text.length ∧
        left.fullName.text.length = right.fullName.text.length := by
      by_contra apart
      exact together ⟨agrees, students, not_and_or.mp apart⟩
    obtain ⟨studentId, fullName, courseCode⟩ := students_of_lengths students lengths.1 lengths.2
    exact ⟨agrees, studentId, fullName, courseCode⟩

/-! ### Two students with one text -/

/-- A registry file with bars in it. -/
def barFile : List Char := "S|1,A,C\nS,1|A,C\n".toList

def barStudent : Student :=
  ⟨.strncpy "S|1".toList, .strncpy "A".toList, .strncpy "C".toList⟩

def barStudent' : Student :=
  ⟨.strncpy "S".toList, .strncpy "1|A".toList, .strncpy "C".toList⟩

/-- The students of the file. -/
def barStudents : StudentRegistry where
  students := [barStudent, barStudent']
  fits := by decide

theorem loadStudentRegistry_barFile : loadStudentRegistry (some barFile) = some barStudents := by
  decide +kernel

/-- The absence of a student, marked as the first record after genesis. -/
def absence (student : Student) : Block :=
  pendingBlock (Sample.start .account).chain 0 1700000000 student "ABSENT".toList

theorem fromProgram_absence {student : Student} (listed : student ∈ barStudents.students) :
    FromProgram (absence student) where
  student := ⟨_, _, loadStudentRegistry_barFile, student, listed, CStr.strncpy_text _,
    CStr.strncpy_text _, CStr.strncpy_text _⟩
  filled := by
    have named : ∀ student ∈ barStudents.students, student.studentId.text ≠ [] ∧
        student.fullName.text ≠ [] ∧ student.courseCode.text ≠ [] := by
      decide +kernel
    simpa [absence, pendingBlock] using named student listed
  status := by rfl
  transactionId := .inl rfl
  previousHash := by
    have genesis : IsHash (absence ⟨.empty, .empty, .empty⟩).previousHash.text := by
      decide +kernel
    exact genesis

/-- The two students of the file, marked absent at the same time, have one payload. -/
theorem students_cut_apart :
    let left := absence barStudent
    let right := absence barStudent'
    FromProgram left ∧ FromProgram right ∧
    left.studentId ≠ right.studentId ∧ left.fullName ≠ right.fullName ∧
    ¬(serializeBlockForHash left = serializeBlockForHash right → SamePrinted left right) := by
  intro left right
  have first : FromProgram left := fromProgram_absence (by simp [barStudents])
  have second : FromProgram right := fromProgram_absence (by simp [barStudents])
  have ids : left.studentId ≠ right.studentId := by decide +kernel
  have names : left.fullName ≠ right.fullName := by decide +kernel
  have same : serializeBlockForHash left = serializeBlockForHash right :=
    payload_of_outside ⟨rfl, rfl, rfl, rfl, rfl, rfl, rfl⟩ (by decide +kernel)
  exact ⟨first, second, ids, names, fun determines => ids (determines same).studentId⟩

theorem payload_determines_block_iff_sample :
    let left := absence barStudent
    let right := absence barStudent'
    (serializeBlockForHash left = serializeBlockForHash right → SamePrinted left right) ↔
      ¬(AgreesOutside left right ∧ CutApart left right) :=
  payload_determines_block_iff _ _ (fromProgram_absence (by simp [barStudents]))
    (fromProgram_absence (by simp [barStudents]))

end Attendance
