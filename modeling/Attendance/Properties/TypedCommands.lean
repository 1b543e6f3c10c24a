import Attendance.Process
import Attendance.Sample

/-!
# What is typed is what is run

A command is typed as its words, with a space between them, on a line of its own. Words that fit
their arrays are read back, numbers included, so that every sequence of commands is the run of
some text on standard input.
-/
namespace Attendance

open CText Scan

/-- A word of the user's choice, and the room there is for it. -/
def Command.arguments : Command → List (Nat × List Char)
  | .mark studentId status => [(19, studentId), (9, status)]
  | .transfer sender recipient _ => [(19, sender.text), (19, recipient.text)]
  | .transferNonce sender recipient _ _ => [(19, sender.text), (19, recipient.text)]
  | .model argument => [(19, argument)]
  | .mineSolo | .minePool _ | .mineCloud _ _ _ | .difficulty _ | .tamper _ => []

/-- A word that is read back from where there is this much room. -/
def IsArgument (room : Nat) (word : List Char) : Prop :=
  word ≠ [] ∧ (∀ c ∈ word, isSpace c = false ∧ c ≠ '\x00') ∧ word.length ≤ room

-- The characters of the word are gone through, not all characters there are.
instance (room : Nat) (word : List Char) : Decidable (IsArgument room word) :=
  @instDecidableAnd _ _ inferInstance (@instDecidableAnd _ _ (List.decidableBAll _ _) inferInstance)

def Command.Typable (command : Command) : Prop :=
  ∀ argument ∈ command.arguments, IsArgument argument.1 argument.2

instance : DecidablePred Command.Typable := fun command =>
  inferInstanceAs (Decidable (∀ argument ∈ command.arguments, _))

/-- What is typed for a command. -/
def Command.words : Command → List (List Char)
  | .mark studentId status => [Keyword.mark.name, studentId, status]
  | .mineSolo => [Keyword.mine.name, "solo".toList]
  | .minePool miners => [Keyword.mine.name, "pool".toList, signedDecimal miners.toInt]
  | .mineCloud rounds rentalFee maintenanceFee =>
    [Keyword.mine.name, "cloud".toList, signedDecimal rounds.toInt,
      signedDecimal rentalFee.toInt, signedDecimal maintenanceFee.toInt]
  | .transfer sender recipient amount =>
    [Keyword.transfer.name, sender.text, recipient.text, signedDecimal amount.toInt]
  | .transferNonce sender recipient amount nonce =>
    [Keyword.transferNonce.name, sender.text, recipient.text, signedDecimal amount.toInt,
      signedDecimal nonce.toInt]
  | .model argument => [Keyword.model.name, argument]
  | .difficulty value => [Keyword.difficulty.name, signedDecimal value.toInt]
  | .tamper blockIndex => [Keyword.tamper.name, signedDecimal blockIndex.toInt]

def Command.line (command : Command) : List Char := [' '].intercalate command.words

/-- What is typed for some commands, one to a line. -/
def script (commands : List Command) : List Char :=
  commands.flatMap fun command => command.line ++ ['\n']

/-! ### One line -/

private theorem isArgument_signedDecimal (value : Int32) :
    IsArgument 19 (signedDecimal value.toInt) := by
  refine ⟨List.ne_nil_of_length_pos (length_signedDecimal_pos _), fun c member => ⟨?_, ?_⟩, ?_⟩
  · rw [Bool.eq_false_iff]
    intro space
    have sign : c ≠ '-' := by
      rintro rfl
      exact absurd space (by decide)
    exact notMem_signedDecimal (not_isDigit_of_isSpace space) sign _ member
  · rintro rfl
    exact notMem_signedDecimal rfl (by decide) _ member
  · exact Nat.le_trans (length_signedDecimal_int32 value) (by decide)

private theorem isArgument_words {command : Command} (typable : command.Typable) :
    ∀ word ∈ command.words, IsArgument 19 word := by
  have number := isArgument_signedDecimal
  have name (keyword : Keyword) : IsArgument 19 keyword.name := by cases keyword <;> decide
  have solo : IsArgument 19 "solo".toList := by decide
  have pool : IsArgument 19 "pool".toList := by decide
  have cloud : IsArgument 19 "cloud".toList := by decide
  have narrow {word : List Char} (isArgument : IsArgument 9 word) : IsArgument 19 word :=
    ⟨isArgument.1, isArgument.2.1, Nat.le_trans isArgument.2.2 (by decide)⟩
  cases command <;>
    simp only [Command.Typable, Command.arguments, Command.words, List.forall_mem_cons,
      List.not_mem_nil, false_imp_iff, implies_true, and_true] at typable ⊢ <;>
    grind

theorem words_line {command : Command} (typable : command.Typable) :
    Scan.words command.line = command.words :=
  words_intercalate rfl
    (fun word member c inside => ((isArgument_words typable word member).2.1 c inside).1)
    (fun word member => (isArgument_words typable word member).1)

/-- The words of a command are scanned as the command. -/
private theorem trimmedAction_of_words {command : Command} (typable : command.Typable)
    {line : List Char} (split : Scan.words line = command.words) :
    trimmedAction line = .run command := by
  have number (value : Int32) : (signedDecimal value.toInt).length ≤ 31 :=
    Nat.le_trans (length_signedDecimal_int32 value) (by decide)
  -- the words are short enough for the scans of their branch, which so read all of them back
  cases command with
  | mark studentId status =>
    have first := (typable (19, studentId) List.mem_cons_self).2.2
    have second := (typable (9, status) (List.mem_cons_of_mem _ List.mem_cons_self)).2.2
    have scanned : fields [31, 19, 9] line = [Keyword.mark.name, studentId, status] :=
      fields_of_short_words (.cons (by decide) (.cons first (.cons second .nil))) split
    rw [trimmedAction_of_fields scanned, dispatch, scanned]
  | mineSolo =>
    have scanned : fields [31, 31] line = [Keyword.mine.name, "solo".toList] :=
      fields_of_short_words (.cons (by decide) (.cons (by decide) .nil)) split
    rw [trimmedAction_of_fields scanned, dispatch, mineAction, scanned]
    rfl
  | minePool miners =>
    have scanned : fields [31, 31, 31] line =
        [Keyword.mine.name, "pool".toList, signedDecimal miners.toInt] :=
      fields_of_short_words (.cons (by decide) (.cons (by decide) (.cons (number miners) .nil)))
        split
    -- the mode is scanned once more by itself, with the first two of these formats
    have mode : fields [31, 31] line = [Keyword.mine.name, "pool".toList] :=
      (fields_take 2 [31, 31, 31] line).trans (congrArg (List.take 2) scanned)
    rw [trimmedAction_of_fields scanned, dispatch, mineAction, mode]
    simp only [scanned, atoi_signedDecimal]
    rfl
  | mineCloud rounds rentalFee maintenanceFee =>
    have scanned : fields [31, 31, 31, 31, 31] line =
        [Keyword.mine.name, "cloud".toList, signedDecimal rounds.toInt,
          signedDecimal rentalFee.toInt, signedDecimal maintenanceFee.toInt] :=
      fields_of_short_words (.cons (by decide) (.cons (by decide) (.cons (number rounds)
        (.cons (number rentalFee) (.cons (number maintenanceFee) .nil))))) split
    have mode : fields [31, 31] line = [Keyword.mine.name, "cloud".toList] :=
      (fields_take 2 [31, 31, 31, 31, 31] line).trans (congrArg (List.take 2) scanned)
    rw [trimmedAction_of_fields scanned, dispatch, mineAction, mode]
    simp only [cloudAction, scanned, atoi_signedDecimal]
    rfl
  | transfer sender recipient amount =>
    have first := Nat.le_of_lt_succ sender.fits
    have second := Nat.le_of_lt_succ recipient.fits
    have scanned : fields [31, 19, 19, 31] line = [Keyword.transfer.name, sender.text,
        recipient.text, signedDecimal amount.toInt] :=
      fields_of_short_words
        (.cons (by decide) (.cons first (.cons second (.cons (number amount) .nil)))) split
    rw [trimmedAction_of_fields scanned, dispatch, scanned]
    simp only [CStr.strncpy_text, atoi_signedDecimal]
  | transferNonce sender recipient amount nonce =>
    have first := Nat.le_of_lt_succ sender.fits
    have second := Nat.le_of_lt_succ recipient.fits
    have scanned : fields [31, 19, 19, 31, 31] line = [Keyword.transferNonce.name, sender.text,
        recipient.text, signedDecimal amount.toInt, signedDecimal nonce.toInt] :=
      fields_of_short_words (.cons (by decide) (.cons first (.cons second
        (.cons (number amount) (.cons (number nonce) .nil))))) split
    rw [trimmedAction_of_fields scanned, dispatch, scanned]
    simp only [CStr.strncpy_text, atoi_signedDecimal]
  | model argument =>
    -- the argument fits 19 characters, though the scan would take 31
    have first := (typable (19, argument) List.mem_cons_self).2.2
    have scanned : fields [31, 31] line = [Keyword.model.name, argument] :=
      fields_of_short_words (.cons (by decide) (.cons (Nat.le_trans first (by decide : 19 ≤ 31)) .nil))
        split
    rw [trimmedAction_of_fields scanned, dispatch, scanned]
  | difficulty value =>
    have scanned : fields [31, 31] line = [Keyword.difficulty.name, signedDecimal value.toInt] :=
      fields_of_short_words (.cons (by decide) (.cons (number value) .nil)) split
    rw [trimmedAction_of_fields scanned, dispatch, scanned]
    simp only [atoi_signedDecimal]
  | tamper blockIndex =>
    -- the index is scanned as a number, right after the first word
    obtain ⟨rest, first, left⟩ := field_of_short_word split (by decide : _ ≤ 31)
    rw [trimmedAction_of_field first, parseKeyword_name]
    simp only [dispatch, first, Option.bind_some, int_of_words left]

/-! ### Many lines -/

/-- The characters of a line are those of its words, and spaces. -/
private theorem notMem_line {command : Command} (typable : command.Typable) {c : Char}
    (other : c ≠ ' ') (outside : ¬(isSpace c = false ∧ c ≠ '\x00')) : c ∉ command.line := by
  intro member
  rcases mem_intercalate member with space | ⟨word, there, inside⟩
  · exact other space
  · exact outside ((isArgument_words typable word there).2.1 c inside)

/-- A line that is typed fits the array it is read into, with its newline. -/
private theorem length_line_lt {command : Command} (typable : command.Typable) :
    command.line.length < 254 := by
  have bound : command.line.length ≤ command.words.length * (19 + 1) :=
    length_intercalate_le fun word member => (isArgument_words typable word member).2.2
  have few : command.words.length ≤ 5 := by cases command <;> simp [Command.words]
  omega

theorem fgetsLines_script {commands : List Command}
    (typable : ∀ command ∈ commands, command.Typable) :
    fgetsLines lineLen [] (script commands) =
      commands.map fun command => command.line ++ ['\n'] := by
  induction commands with
  | nil => rfl
  | cons command commands ih =>
    rw [List.forall_mem_cons] at typable
    have single : '\n' ∉ command.line := notMem_line typable.1 (by decide) (by decide)
    have short := length_line_lt typable.1
    rw [script, List.flatMap_cons, List.append_assoc, List.singleton_append,
      fgetsLines_append_newline _ single, fgetsLines_of_short single (by simpa using by omega),
      List.map_cons]
    exact congrArg (List.cons _) (ih typable.2)

/-- The loop runs the command that was typed. -/
theorem lineAction_typed {command : Command} (typable : command.Typable) :
    lineAction (.strncpy (command.line ++ ['\n'])) = .run command := by
  have short := length_line_lt typable
  have stored : (CStr.strncpy (command.line ++ ['\n']) : CStr lineLen).text =
      command.line ++ ['\n'] :=
    CStr.text_strncpy (show (command.line ++ ['\n']).length < 256 by
      rw [List.length_append, List.length_singleton]
      omega)
  have whole : '\x00' ∉ command.line ++ ['\n'] :=
    List.not_mem_append (notMem_line typable (by decide) (by decide)) (by decide)
  apply trimmedAction_of_words typable
  rw [stored, trimInput, untilNul_of_notMem whole, words_rdropWhile, words_append_space _ _ (by decide), words_nil,
    List.append_nil, words_line typable]
  intro c trimmed
  simp only [Bool.or_eq_true, decide_eq_true_eq] at trimmed
  rcases trimmed with (rfl | rfl) | rfl <;> decide

/-- Every sequence of commands whose words fit can be typed: the loop, reading the text from
standard input, passes through the states of the run of these commands. -/
theorem script_runs_commands (env : Env) (registry : StudentRegistry) (session : Session)
    {commands : List Command} (typable : ∀ command ∈ commands, command.Typable)
    (invocation : Invocation) (typed : invocation.stdin = script commands) :
    promptStates env registry session invocation.lines =
      Runs.states (sessionStep env registry) session commands := by
  rw [Invocation.lines, typed, fgetsLines_script typable, List.map_map]
  clear typed
  induction commands generalizing session with
  | nil => rfl
  | cons command commands ih =>
    rw [List.forall_mem_cons] at typable
    have run := lineAction_typed typable.1
    have reads : quits (.strncpy (command.line ++ ['\n'])) = false := by rw [quits, run]
    have step : lineStep env registry session (.strncpy (command.line ++ ['\n'])) =
        sessionStep env registry session command := by rw [lineStep, run]
    rw [List.map_cons, promptStates, Function.comp_apply, reads, if_neg Bool.false_ne_true, step,
      ih _ typable.2, Runs.states]

theorem script_runs_commands_sample :
    promptStates Sample.env Sample.registry (Sample.start .account)
      (Invocation.mk [] none ("mark ALU001 PRESENT\nmine pool -3\n".toList ++
        "transfer_nonce POOL001 ALU002 5 0\ntamper 1\n".toList)).lines =
      Runs.states (sessionStep Sample.env Sample.registry) (Sample.start .account)
        [.mark "ALU001".toList "PRESENT".toList, .minePool (-3),
          .transferNonce (.strncpy "POOL001".toList) (.strncpy "ALU002".toList) 5 0, .tamper 1] :=
  script_runs_commands Sample.env Sample.registry (Sample.start .account) (by decide) _
    (by decide +kernel)

end Attendance
