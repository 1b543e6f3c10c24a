import Mathlib.Data.List.DropRight
import Attendance.ChainFile
import Attendance.Foundation.Scan

/-!
# Arguments and lines

`parse_cli_args`, and what the command loop of `main` makes of a line before it calls
anything. `arg1` and `arg2` have room for 19 characters, but some formats scan up to 31
into them; here such a field is what was scanned, whatever it overwrites beyond its array.
-/
namespace Attendance

open CText Scan

abbrev lineLen : Nat := 256

/-- `DEFAULT_DIFFICULTY`. -/
abbrev defaultDifficulty : Int32 := 2

def clampDifficulty (value : Int32) : Int32 :=
  let value := if value < minDifficulty then minDifficulty else value
  if maxDifficulty < value then maxDifficulty else value

/-- The loop of `parse_cli_args` over the arguments that are left; `none` is an exit. -/
def parseCliLoop (model : LedgerModel) (difficulty : Int32) :
    List (List Char) → Option (LedgerModel × Int32)
  | [] => some (model, difficulty)
  -- an option at the very end has no value and is passed over
  | [argument] =>
    if argument = "--help".toList ∨ argument = "-h".toList then none else some (model, difficulty)
  | argument :: value :: rest =>
    if argument = "--model".toList then parseCliLoop (parseModelArg model value) difficulty rest
    else if argument = "--difficulty".toList then
      parseCliLoop model (clampDifficulty (atoi value)) rest
    else if argument = "--help".toList ∨ argument = "-h".toList then none
    else parseCliLoop model difficulty (value :: rest)

/-- `g_model` and `g_difficulty` once `argv` is parsed; `argv[0]` is not looked at. -/
def parseCliArgs (argv : List (List Char)) : Option (LedgerModel × Int32) :=
  parseCliLoop .utxo defaultDifficulty argv.tail

def trimInput (input : List Char) : List Char :=
  (untilNul input).rdropWhile fun c => c = '\n' || c = '\r' || c = ' '

/-- The words the loop compares the first word of a line with. -/
inductive Keyword where
  | quit | help | view | pending | validate | balances | utxos | mark | balance | transfer
  | transferNonce | history | model | difficulty | mine | tamper
deriving DecidableEq

def Keyword.name : Keyword → List Char
  | .quit => "quit".toList
  | .help => "help".toList
  | .view => "view".toList
  | .pending => "pending".toList
  | .validate => "validate".toList
  | .balances => "balances".toList
  | .utxos => "utxos".toList
  | .mark => "mark".toList
  | .balance => "balance".toList
  | .transfer => "transfer".toList
  | .transferNonce => "transfer_nonce".toList
  | .history => "history".toList
  | .model => "model".toList
  | .difficulty => "difficulty".toList
  | .mine => "mine".toList
  | .tamper => "tamper".toList

/-- In the order of the comparisons. -/
def keywords : List Keyword :=
  [.quit, .help, .view, .pending, .validate, .balances, .utxos, .mark, .balance, .transfer,
    .transferNonce, .history, .model, .difficulty, .mine, .tamper]

def parseKeyword (command : List Char) : Option Keyword :=
  if command = "exit".toList then some .quit
  else keywords.find? fun keyword => keyword.name = command

/-- What the loop does with a line. Only a command that is run changes anything, the others
print something or nothing. -/
inductive LineAction where
  | quit
  | skip
  | help
  | view
  | pending
  | validate
  | balances
  | utxos
  | balance (studentId : List Char)
  | history (studentId : List Char)
  | usage (text : String)
  | unknownMode (mode : List Char)
  | unknownCommand (command : List Char)
  | run (command : Command)

/-- The branch for `mine cloud`. -/
def cloudAction (line : List Char) : LineAction :=
  match fields [31, 31, 31, 31, 31] line with
  | [_, _, rounds, rental, maintenance] =>
    .run (.mineCloud (atoi rounds) (atoi rental) (atoi maintenance))
  | _ => .usage "Usage: mine cloud <rounds 1-5> <rental_fee> <maintenance_fee>"

/-- The branch for `mine`. -/
def mineAction (line : List Char) : LineAction :=
  match fields [31, 31] line with
  | [_, mode] =>
    if mode = "solo".toList then .run .mineSolo
    else if mode = "pool".toList then
      match fields [31, 31, 31] line with
      | [_, _, miners] => .run (.minePool (atoi miners))
      | _ => .run (.minePool 4)
    else if mode = "cloud".toList then cloudAction line
    else .unknownMode mode
  | _ => .usage "Usage: mine solo | mine pool [miners] | mine cloud <rounds> <rental> <maint>"

/-- The branches of the loop. -/
def dispatch (line : List Char) : Keyword → LineAction
  | .quit => .quit
  | .help => .help
  | .view => .view
  | .pending => .pending
  | .validate => .validate
  | .balances => .balances
  | .utxos => .utxos
  | .mark =>
    match fields [31, 19, 9] line with
    | [_, studentId, status] => .run (.mark studentId status)
    | _ => .usage "Usage: mark <student_id> <PRESENT|ABSENT|LATE>"
  | .balance =>
    match fields [31, 19] line with
    | [_, studentId] => .balance studentId
    | _ => .usage "Usage: balance <student_id>"
  | .transfer =>
    match fields [31, 19, 19, 31] line with
    | [_, sender, recipient, amount] =>
      .run (.transfer (.strncpy sender) (.strncpy recipient) (atoi amount))
    | _ => .usage "Usage: transfer <from> <to> <amount>"
  | .transferNonce =>
    match fields [31, 19, 19, 31, 31] line with
    | [_, sender, recipient, amount, nonce] =>
      .run (.transferNonce (.strncpy sender) (.strncpy recipient) (atoi amount) (atoi nonce))
    | _ => .usage "Usage: transfer_nonce <from> <to> <amount> <nonce>"
  | .history =>
    match fields [31, 19] line with
    | [_, studentId] => .history studentId
    | _ => .usage "Usage: history <student_id>"
  | .model =>
    match fields [31, 31] line with
    | [_, argument] => .run (.model argument)
    | _ => .usage "Usage: model <utxo|account>"
  | .difficulty =>
    match fields [31, 31] line with
    | [_, value] => .run (.difficulty (atoi value))
    | _ => .usage "Usage: difficulty <1-4>"
  | .mine => mineAction line
  | .tamper =>
    match (field 31 line).bind fun scanned => Scan.int scanned.2 with
    | some blockIndex => .run (.tamper blockIndex)
    | none => .usage "Usage: tamper <block_index>"

/-- What the loop does with a line that is trimmed. -/
def trimmedAction (line : List Char) : LineAction :=
  if line = [] then .skip
  else
    match field 31 line with
    | none => .skip
    | some (command, _) =>
      match parseKeyword command with
      | none => .unknownCommand command
      | some keyword => dispatch line keyword

/-- What the loop does with a line as `fgets` returns it. -/
def lineAction (input : CStr lineLen) : LineAction := trimmedAction (trimInput input.text)

def lineStep (env : Env) (registry : StudentRegistry) (session : Session) (input : CStr lineLen) :
    Session :=
  match lineAction input with
  | .run command => sessionStep env registry session command
  | _ => session

def quits (input : CStr lineLen) : Bool :=
  match lineAction input with
  | .quit => true
  | _ => false

/-- The states at the prompt while the lines are read, up to the end of the input or the
line that quits. -/
def promptStates (env : Env) (registry : StudentRegistry) (session : Session) :
    List (CStr lineLen) → List Session
  | [] => [session]
  | input :: rest =>
    session :: if quits input then []
      else promptStates env registry (lineStep env registry session input) rest

/-! ### The first word of a line -/

@[simp] theorem parseKeyword_name (keyword : Keyword) :
    parseKeyword keyword.name = some keyword := by
  cases keyword <;> decide

theorem parseKeyword_some {command : List Char} {keyword : Keyword}
    (parsed : parseKeyword command = some keyword) :
    command = keyword.name ∨ (command = "exit".toList ∧ keyword = .quit) := by
  unfold parseKeyword at parsed
  split at parsed
  next exit =>
    cases parsed
    exact Or.inr ⟨exit, rfl⟩
  next =>
    have same := List.find?_some parsed
    exact Or.inl (decide_eq_true_iff.mp same).symm

theorem name_injective : Function.Injective Keyword.name := by
  intro keyword other same
  have parsed := congrArg parseKeyword same
  simpa using parsed

theorem trimmedAction_of_field {line command rest : List Char}
    (first : field 31 line = some (command, rest)) :
    trimmedAction line =
      match parseKeyword command with
      | none => .unknownCommand command
      | some keyword => dispatch line keyword := by
  have nonempty : line ≠ [] := by
    rintro rfl
    cases first
  rw [trimmedAction, if_neg nonempty, first]

/-- The fields of the line, the first of them the keyword. -/
theorem trimmedAction_of_fields {line : List Char} {keyword : Keyword} {widths : List Nat}
    {tokens : List (List Char)} (scanned : fields (31 :: widths) line = keyword.name :: tokens) :
    trimmedAction line = dispatch line keyword := by
  obtain ⟨rest, first, _⟩ := field_of_fields scanned
  rw [trimmedAction_of_field first, parseKeyword_name]

/-! ### The states at the prompt -/

/-- The lines the loop reads to their end: those before the first that quits. -/
def processed (inputs : List (CStr lineLen)) : List (CStr lineLen) :=
  inputs.takeWhile fun input => !quits input

/-- What holds at every prompt holds throughout the run over the lines that are processed. -/
theorem forall_mem_promptStates (env : Env) (registry : StudentRegistry) (p : Session → Prop)
    (session : Session) (inputs : List (CStr lineLen)) :
    (∀ state ∈ promptStates env registry session inputs, p state) ↔
      Runs.Throughout (lineStep env registry) p session (processed inputs) := by
  induction inputs generalizing session with
  | nil => simp [promptStates, processed]
  | cons input inputs ih =>
    rw [promptStates, List.forall_mem_cons, processed, List.takeWhile_cons]
    cases quits input with
    | true => simp
    | false =>
      simp only [Bool.not_false, if_true, Bool.false_eq_true, if_false]
      rw [Runs.throughout_cons, ih, processed]

theorem promptStates_eq (env : Env) (registry : StudentRegistry) (session : Session)
    (inputs : List (CStr lineLen)) :
    promptStates env registry session inputs =
      Runs.states (lineStep env registry) session (processed inputs) := by
  induction inputs generalizing session with
  | nil => rfl
  | cons input inputs ih =>
    rw [promptStates, processed, List.takeWhile_cons]
    cases quits input with
    | true => rfl
    | false =>
      simp only [Bool.not_false, if_true, Bool.false_eq_true, if_false, Runs.states, ih, processed]

/-! ### The difficulty -/

theorem inRange_clampDifficulty (value : Int32) : DifficultyInRange (clampDifficulty value) := by
  by_cases low : value < minDifficulty
  · rw [clampDifficulty, if_pos low]
    decide
  · by_cases high : maxDifficulty < value
    · rw [clampDifficulty, if_neg low, if_pos high]
      decide
    · rw [clampDifficulty, if_neg low, if_neg high]
      exact ⟨Int32.not_lt.mp low, Int32.not_lt.mp high⟩

private theorem inRange_parseCliLoop {model model' : LedgerModel} {difficulty difficulty' : Int32}
    {arguments : List (List Char)} (inRange : DifficultyInRange difficulty)
    (parsed : parseCliLoop model difficulty arguments = some (model', difficulty')) :
    DifficultyInRange difficulty' := by
  induction model, difficulty, arguments using parseCliLoop.induct with
  | case1 =>
    cases parsed
    exact inRange
  | case2 model difficulty argument help =>
    rw [parseCliLoop, if_pos help] at parsed
    cases parsed
  | case3 model difficulty argument ignored =>
    rw [parseCliLoop, if_neg ignored] at parsed
    cases parsed
    exact inRange
  | case4 model difficulty value rest ih =>
    rw [parseCliLoop, if_pos rfl] at parsed
    exact ih inRange parsed
  | case5 model difficulty value rest other ih =>
    rw [parseCliLoop, if_neg other, if_pos rfl] at parsed
    exact ih (inRange_clampDifficulty (atoi value)) parsed
  | case6 model difficulty argument value rest other other' help =>
    rw [parseCliLoop, if_neg other, if_neg other', if_pos help] at parsed
    cases parsed
  | case7 model difficulty argument value rest other other' ignored ih =>
    rw [parseCliLoop, if_neg other, if_neg other', if_neg ignored] at parsed
    exact ih inRange parsed

/-- The difficulty `main` starts with can be mined at, whatever the arguments are. -/
theorem inRange_parseCliArgs {argv : List (List Char)} {model : LedgerModel} {difficulty : Int32}
    (parsed : parseCliArgs argv = some (model, difficulty)) : DifficultyInRange difficulty :=
  inRange_parseCliLoop (by decide) parsed

theorem difficulty_sessionStep (env : Env) (registry : StudentRegistry) (session : Session)
    (command : Command) :
    (sessionStep env registry session command).difficulty =
      match command with
      | .difficulty value => value
      | _ => session.difficulty := by
  cases command with
  | transfer sender recipient amount =>
    simp only [sessionStep, execute]
    split <;> rfl
  | _ => rfl

private theorem keyword_of_difficulty {line : List Char} {keyword : Keyword} {value : Int32}
    (run : dispatch line keyword = .run (.difficulty value)) : keyword = .difficulty := by
  cases keyword with
  | difficulty => rfl
  | mine =>
    rw [dispatch] at run
    unfold mineAction cloudAction at run
    repeat' split at run
    all_goals cases run
  | mark | balance | transfer | transferNonce | history | model | tamper =>
    rw [dispatch] at run
    split at run <;> cases run
  | _ => cases run

/-- A line sets the difficulty if it is the keyword with a second word, which may be any. -/
theorem lineAction_difficulty_iff (input : CStr lineLen) (value : Int32) :
    lineAction input = .run (.difficulty value) ↔
      ∃ argument, fields [31, 31] (trimInput input.text) = [Keyword.difficulty.name, argument] ∧
        atoi argument = value := by
  rw [lineAction]
  generalize trimInput input.text = line
  constructor
  · intro run
    unfold trimmedAction at run
    split at run
    · cases run
    split at run
    · cases run
    next command rest first =>
      split at run
      · cases run
      next keyword parsed =>
        obtain rfl := keyword_of_difficulty run
        obtain rfl | ⟨_, other⟩ := parseKeyword_some parsed
        · rw [dispatch] at run
          split at run
          next word argument scanned =>
            cases run
            obtain rfl := field_eq_of_fields first scanned
            exact ⟨argument, scanned, rfl⟩
          next => cases run
        · cases other
  · rintro ⟨argument, scanned, rfl⟩
    rw [trimmedAction_of_fields scanned, dispatch, scanned]

end Attendance
