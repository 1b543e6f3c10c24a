import Attendance.Ledger.Operations
import Attendance.Lines
import Attendance.Sample

/-!
# Lines that name no action

The branches of the command loop that end in an error message leave the books alone. A
`model` line has no such branch: with an argument that is none of the four it keeps the
model and empties the ledger. And `transfer_nonce` does not look into the registry.
-/
namespace Attendance

open CText Scan

/-- What the formats of `main` scan, the keyword included; the index of `tamper` is scanned
with `%d`. -/
def argumentWidths : List (Keyword × List Nat) :=
  [(.mark, [31, 19, 9]), (.balance, [31, 19]), (.transfer, [31, 19, 19, 31]),
    (.transferNonce, [31, 19, 19, 31, 31]), (.history, [31, 19]), (.model, [31, 31]),
    (.difficulty, [31, 31]), (.mine, [31, 31])]

def miningModes : List (List Char) := ["solo".toList, "pool".toList, "cloud".toList]

def modelNames : List (List Char) :=
  ["utxo".toList, "UTXO".toList, "account".toList, "ACCOUNT".toList]

/-- A trimmed line that names no valid action. Its arguments are the fields `sscanf` finds. -/
inductive NamesNoAction (registry : StudentRegistry) (line : List Char) : Prop where
  | unknownCommand {command rest : List Char} (first : field 31 line = some (command, rest))
      (unknown : command ≠ "exit".toList ∧ ∀ keyword : Keyword, command ≠ keyword.name)
  | tooFew {keyword : Keyword} {rest : List Char} {widths : List Nat}
      (first : field 31 line = some (keyword.name, rest))
      (needed : (keyword, widths) ∈ argumentWidths)
      (few : (fields widths line).length < widths.length)
  | tooFewForCloud (scanned : fields [31, 31] line = [Keyword.mine.name, "cloud".toList])
      (few : (fields [31, 31, 31, 31, 31] line).length < 5)
  | noIndex {rest : List Char} (first : field 31 line = some (Keyword.tamper.name, rest))
      (none : Scan.int rest = none)
  | unknownMode {mode : List Char} (scanned : fields [31, 31] line = [Keyword.mine.name, mode])
      (unknown : mode ∉ miningModes)
  | rounds {rounds rental maintenance : List Char}
      (scanned : fields [31, 31, 31, 31, 31] line =
        [Keyword.mine.name, "cloud".toList, rounds, rental, maintenance])
      (outside : ¬(cloudMinRounds ≤ atoi rounds ∧ atoi rounds ≤ cloudMaxRounds))
  | model {argument : List Char} (scanned : fields [31, 31] line = [Keyword.model.name, argument])
      (unknown : argument ∉ modelNames)
  | difficulty {value : List Char}
      (scanned : fields [31, 31] line = [Keyword.difficulty.name, value])
      (outside : ¬DifficultyInRange (atoi value))
  | transfer {sender recipient amount : List Char}
      (scanned : fields [31, 19, 19, 31] line =
        [Keyword.transfer.name, sender, recipient, amount])
      (unregistered : findStudent registry sender = none ∨ findStudent registry recipient = none)
  | transferNonce {sender recipient amount nonce : List Char}
      (scanned : fields [31, 19, 19, 31, 31] line =
        [Keyword.transferNonce.name, sender, recipient, amount, nonce])
      (unregistered : findStudent registry sender = none ∨ findStudent registry recipient = none)

/-- In the account model each registered student has one account, which was never used. -/
def unusedAccounts (registry : StudentRegistry) : LedgerModel → List Account
  | .utxo => []
  | .account => registry.ids.eraseDups.map newAccount

/-- Nothing has been entered since `ledger_init`. -/
structure Ledger.Untouched (ledger : Ledger) (model : LedgerModel) (registry : StudentRegistry) :
    Prop where
  active : ledger.model = model
  outputs : ledger.utxoSet.entries = []
  accounts : ledger.accountLedger.accounts = unusedAccounts registry model

/-- The two commands that are not checked find nothing to change. -/
structure Harmless (registry : StudentRegistry) (session : Session) (line : List Char) :
    Prop where
  /-- The `model` command finds a ledger with nothing in it. -/
  model : ∀ argument, fields [31, 31] line = [Keyword.model.name, argument] →
    session.ledger.Untouched session.model registry
  /-- `transfer_nonce` finds the UTXO model, or refuses and has no account to add. -/
  transferNonce : ∀ sender recipient amount nonce,
    fields [31, 19, 19, 31, 31] line =
      [Keyword.transferNonce.name, sender, recipient, amount, nonce] →
    session.ledger.model = .utxo ∨
      ¬TransferAccepted session.ledger.accountLedger sender recipient (atoi amount) (atoi nonce) ∧
      session.ledger.accountLedger.Settled sender ∧
      session.ledger.accountLedger.Settled recipient

/-- The chain, the pool and the ledger are the same. -/
def SameBooks (before after : Session) : Prop :=
  after.chain = before.chain ∧ after.pool = before.pool ∧ after.ledger = before.ledger

theorem SameBooks.refl (session : Session) : SameBooks session session := ⟨rfl, rfl, rfl⟩

/-! ### Lines that end in a message -/

/-- The command loop only prints something. -/
def LineAction.Prints : LineAction → Prop
  | .run _ => False
  | _ => True

private theorem sameBooks_of_prints (env : Env) (registry : StudentRegistry) (session : Session)
    {input : CStr lineLen} (prints : (lineAction input).Prints) :
    SameBooks session (lineStep env registry session input) := by
  rw [lineStep]
  split
  next command run =>
    rw [run] at prints
    exact absurd prints id
  next => exact .refl session

private theorem parseKeyword_eq_none {command : List Char} (exit : command ≠ "exit".toList)
    (unknown : ∀ keyword : Keyword, command ≠ keyword.name) : parseKeyword command = none := by
  cases parsed : parseKeyword command with
  | none => rfl
  | some keyword =>
    rcases parseKeyword_some parsed with named | ⟨quit, _⟩
    · exact absurd named (unknown keyword)
    · exact absurd quit exit

/-- Without all of its arguments a command is answered with its usage. -/
private theorem prints_of_few {line : List Char} {keyword : Keyword} {widths : List Nat}
    (needed : (keyword, widths) ∈ argumentWidths)
    (few : (fields widths line).length < widths.length) : (dispatch line keyword).Prints := by
  simp only [argumentWidths, List.mem_cons, Prod.mk.injEq, List.mem_nil_iff, or_false] at needed
  rcases needed with ⟨rfl, rfl⟩ | ⟨rfl, rfl⟩ | ⟨rfl, rfl⟩ | ⟨rfl, rfl⟩ | ⟨rfl, rfl⟩ | ⟨rfl, rfl⟩ |
    ⟨rfl, rfl⟩ | ⟨rfl, rfl⟩
  all_goals
    rw [dispatch]
    -- the branch for `mine` is a definition of its own
    try rw [mineAction]
    split
    next scanned => simp [scanned] at few
    next => trivial

private theorem mineAction_cloud {line : List Char}
    (scanned : fields [31, 31] line = [Keyword.mine.name, "cloud".toList]) :
    mineAction line = cloudAction line := by
  rw [mineAction, scanned]
  rfl

private theorem prints_of_fewForCloud {line : List Char}
    (few : (fields [31, 31, 31, 31, 31] line).length < 5) : (cloudAction line).Prints := by
  rw [cloudAction]
  split
  next scanned => simp [scanned] at few
  next => trivial

private theorem prints_of_unknownMode {line mode : List Char}
    (scanned : fields [31, 31] line = [Keyword.mine.name, mode]) (unknown : mode ∉ miningModes) :
    (mineAction line).Prints := by
  simp only [miningModes, List.mem_cons, List.mem_nil_iff, or_false, not_or] at unknown
  obtain ⟨solo, pool, cloud⟩ := unknown
  rw [mineAction, scanned]
  simp only [if_neg solo, if_neg pool, if_neg cloud]
  trivial

/-! ### Commands that are refused -/

private theorem lineStep_of_run (env : Env) (registry : StudentRegistry) (session : Session)
    {input : CStr lineLen} {command : Command} (run : lineAction input = .run command) :
    lineStep env registry session input = sessionStep env registry session command := by
  rw [lineStep, run]

private theorem sameBooks_of_rounds (env : Env) (registry : StudentRegistry) (session : Session)
    {rounds : Int32} (rental maintenance : Int32)
    (outside : ¬(cloudMinRounds ≤ rounds ∧ rounds ≤ cloudMaxRounds)) :
    SameBooks session
      (sessionStep env registry session (.mineCloud rounds rental maintenance)) := by
  have refused : rounds < cloudMinRounds ∨ cloudMaxRounds < rounds := by
    simpa only [not_and_or, Int32.not_le] using outside
  rw [sessionStep, execute, miningCloud, if_pos refused]
  exact .refl session

private theorem sameBooks_of_unregistered (env : Env) (registry : StudentRegistry)
    (session : Session) {sender recipient : CStr studentIdLen} (amount : Int32)
    (unregistered : findStudent registry sender.text = none ∨
      findStudent registry recipient.text = none) :
    SameBooks session (sessionStep env registry session (.transfer sender recipient amount)) := by
  have refused : ((findStudent registry sender.text).isNone ||
      (findStudent registry recipient.text).isNone) = true := by
    simpa only [Bool.or_eq_true, Option.isNone_iff_eq_none] using unregistered
  rw [sessionStep, execute, if_pos refused]
  exact .refl session

/-! ### The two commands that are not checked -/

private theorem ledgerSetModel_eq_iff (ledger : Ledger) (model : LedgerModel)
    (registry : StudentRegistry) :
    ledgerSetModel model registry = ledger ↔ ledger.Untouched model registry := by
  have accounts : (ledgerSetModel model registry).accountLedger.accounts =
      unusedAccounts registry model := by
    cases model with
    | utxo => rfl
    | account =>
      have room : AccountLedger.empty.accounts.length + registry.students.length ≤
          maxStudents := by
        simpa [AccountLedger.empty] using registry.fits
      have created := accounts_createAccounts room
      simp only [AccountLedger.keys, AccountLedger.empty, List.map_nil, List.not_mem_nil,
        not_false_eq_true, decide_true, List.filter_true, List.nil_append] at created
      exact created
  constructor
  · rintro rfl
    exact ⟨model_ledgerInit model registry, entries_ledgerInit model registry, accounts⟩
  · rintro ⟨active, outputs, untouched⟩
    ext1
    · rw [ledgerSetModel, model_ledgerInit, active]
    · ext1
      rw [ledgerSetModel, entries_ledgerInit, outputs]
    · ext1
      rw [accounts, untouched]

private theorem parseModelArg_of_unknown (model : LedgerModel) {argument : List Char}
    (unknown : argument ∉ modelNames) : parseModelArg model argument = model := by
  simp only [modelNames, List.mem_cons, List.mem_nil_iff, or_false, not_or] at unknown
  obtain ⟨utxo, utxo', account, account'⟩ := unknown
  rw [parseModelArg, if_neg (not_or.mpr ⟨utxo, utxo'⟩), if_neg (not_or.mpr ⟨account, account'⟩)]

private theorem sameBooks_model_iff (env : Env) (registry : StudentRegistry) (session : Session)
    {argument : List Char} (unknown : argument ∉ modelNames) :
    SameBooks session (sessionStep env registry session (.model argument)) ↔
      session.ledger.Untouched session.model registry := by
  rw [← ledgerSetModel_eq_iff, SameBooks, sessionStep, execute]
  simp only [parseModelArg_of_unknown session.model unknown, true_and]

private theorem sameBooks_transferNonce_iff (env : Env) (registry : StudentRegistry)
    (session : Session) (sender recipient : CStr studentIdLen) (amount nonce : Int32) :
    SameBooks session
      (sessionStep env registry session (.transferNonce sender recipient amount nonce)) ↔
      session.ledger.model = .utxo ∨
        ¬TransferAccepted session.ledger.accountLedger sender.text recipient.text amount nonce ∧
        session.ledger.accountLedger.Settled sender.text ∧
        session.ledger.accountLedger.Settled recipient.text := by
  rw [← accountTransfer_eq_self_iff, SameBooks, sessionStep, execute]
  simp only [Session.withLedger, true_and, ledgerTransferWithNonce]
  cases active : session.ledger.model with
  | utxo => simp
  | account => simp [Ledger.onAccounts, Ledger.ext_iff]

/-! ### What the lines run -/

private theorem trimmedAction_cloud {line rounds rental maintenance : List Char}
    (scanned : fields [31, 31, 31, 31, 31] line =
      [Keyword.mine.name, "cloud".toList, rounds, rental, maintenance]) :
    trimmedAction line = .run (.mineCloud (atoi rounds) (atoi rental) (atoi maintenance)) := by
  have mode : fields [31, 31] line = [Keyword.mine.name, "cloud".toList] := by
    have shorter := fields_take 2 [31, 31, 31, 31, 31] line
    rw [scanned] at shorter
    exact shorter
  rw [trimmedAction_of_fields scanned, dispatch, mineAction_cloud mode, cloudAction, scanned]

/-- Two ids scanned with `%19s` fit their arrays. -/
private theorem ids_of_fields {line keyword sender recipient : List Char} {widths : List Nat}
    {tokens : List (List Char)}
    (scanned : fields (31 :: 19 :: 19 :: widths) line = keyword :: sender :: recipient :: tokens) :
    ∃ sender' recipient' : CStr studentIdLen, sender'.text = sender ∧ recipient'.text = recipient ∧
      sender' = .strncpy sender ∧ recipient' = .strncpy recipient := by
  have three : fields [31, 19, 19] line = [keyword, sender, recipient] := by
    have shorter := fields_take 3 (31 :: 19 :: 19 :: widths) line
    rw [scanned] at shorter
    exact shorter
  have fits := forall₂_fields three rfl
  simp only [List.forall₂_cons] at fits
  obtain ⟨_, senderFits, recipientFits, _⟩ := fits
  refine ⟨.strncpy sender, .strncpy recipient, ?_, ?_, rfl, rfl⟩
  · exact CStr.text_strncpy (Nat.lt_succ_of_le senderFits)
  · exact CStr.text_strncpy (Nat.lt_succ_of_le recipientFits)

private theorem trimmedAction_transfer {line sender recipient amount : List Char}
    (scanned : fields [31, 19, 19, 31] line =
      [Keyword.transfer.name, sender, recipient, amount]) :
    ∃ sender' recipient' : CStr studentIdLen, sender'.text = sender ∧ recipient'.text = recipient ∧
      trimmedAction line = .run (.transfer sender' recipient' (atoi amount)) := by
  obtain ⟨sender', recipient', text, text', copied, copied'⟩ := ids_of_fields scanned
  refine ⟨sender', recipient', text, text', ?_⟩
  rw [trimmedAction_of_fields scanned, dispatch, scanned, copied, copied']

private theorem trimmedAction_transferNonce {line sender recipient amount nonce : List Char}
    (scanned : fields [31, 19, 19, 31, 31] line =
      [Keyword.transferNonce.name, sender, recipient, amount, nonce]) :
    ∃ sender' recipient' : CStr studentIdLen, sender'.text = sender ∧ recipient'.text = recipient ∧
      trimmedAction line =
        .run (.transferNonce sender' recipient' (atoi amount) (atoi nonce)) := by
  obtain ⟨sender', recipient', text, text', copied, copied'⟩ := ids_of_fields scanned
  refine ⟨sender', recipient', text, text', ?_⟩
  rw [trimmedAction_of_fields scanned, dispatch, scanned, copied, copied']

/-! ### The two commands are the only ones -/

section Harmless

variable {registry : StudentRegistry} {session : Session} {line : List Char}

private theorem harmless_of_ne {command rest : List Char}
    (first : field 31 line = some (command, rest)) (notModel : command ≠ Keyword.model.name)
    (notNonce : command ≠ Keyword.transferNonce.name) : Harmless registry session line := by
  constructor
  · intro argument scanned
    exact absurd (field_eq_of_fields first scanned) notModel
  · intro sender recipient amount nonce scanned
    exact absurd (field_eq_of_fields first scanned) notNonce

private theorem harmless_of_keyword {keyword : Keyword} {rest : List Char}
    (first : field 31 line = some (keyword.name, rest))
    (checked : keyword ≠ .model ∧ keyword ≠ .transferNonce) : Harmless registry session line :=
  harmless_of_ne first (name_injective.ne checked.1) (name_injective.ne checked.2)

private theorem harmless_of_fields {keyword : Keyword} {widths : List Nat}
    {tokens : List (List Char)} (scanned : fields (31 :: widths) line = keyword.name :: tokens)
    (checked : keyword ≠ .model ∧ keyword ≠ .transferNonce) : Harmless registry session line := by
  obtain ⟨rest, first, _⟩ := field_of_fields scanned
  exact harmless_of_keyword first checked

private theorem harmless_of_few {rest : List Char} {keyword : Keyword} {widths : List Nat}
    (first : field 31 line = some (keyword.name, rest))
    (needed : (keyword, widths) ∈ argumentWidths)
    (few : (fields widths line).length < widths.length) : Harmless registry session line := by
  constructor
  · intro argument scanned
    obtain rfl := name_injective (field_eq_of_fields first scanned)
    obtain rfl : widths = [31, 31] := by simpa [argumentWidths] using needed
    simp [scanned] at few
  · intro sender recipient amount nonce scanned
    obtain rfl := name_injective (field_eq_of_fields first scanned)
    obtain rfl : widths = [31, 19, 19, 31, 31] := by simpa [argumentWidths] using needed
    simp [scanned] at few

/-- On a `model` line only the ledger counts. -/
private theorem harmless_model_iff {argument : List Char}
    (scanned : fields [31, 31] line = [Keyword.model.name, argument]) :
    Harmless registry session line ↔ session.ledger.Untouched session.model registry := by
  obtain ⟨rest, first, _⟩ := field_of_fields scanned
  constructor
  · intro harmless
    exact harmless.model argument scanned
  · intro untouched
    refine ⟨fun _ _ => untouched, ?_⟩
    intro sender recipient amount nonce again
    cases name_injective (field_eq_of_fields first again)

/-- On a `transfer_nonce` line only the transfer counts. -/
private theorem harmless_transferNonce_iff {sender recipient amount nonce : List Char}
    (scanned : fields [31, 19, 19, 31, 31] line =
      [Keyword.transferNonce.name, sender, recipient, amount, nonce]) :
    Harmless registry session line ↔
      session.ledger.model = .utxo ∨
        ¬TransferAccepted session.ledger.accountLedger sender recipient (atoi amount)
          (atoi nonce) ∧
        session.ledger.accountLedger.Settled sender ∧
        session.ledger.accountLedger.Settled recipient := by
  obtain ⟨rest, first, _⟩ := field_of_fields scanned
  constructor
  · intro harmless
    exact harmless.transferNonce sender recipient amount nonce scanned
  · intro unchanged
    constructor
    · intro argument again
      cases name_injective (field_eq_of_fields first again)
    · intro sender recipient amount nonce again
      rw [scanned] at again
      cases again
      exact unchanged

end Harmless

/-- A line that names no valid action leaves the books alone, in any session, exactly if it is
not one of the two commands that are not checked, or that command finds nothing to change. -/
theorem idle_line_keeps_books_iff (env : Env) (registry : StudentRegistry) (session : Session)
    (input : CStr lineLen) (idle : NamesNoAction registry (trimInput input.text)) :
    SameBooks session (lineStep env registry session input) ↔
      Harmless registry session (trimInput input.text) := by
  have action : lineAction input = trimmedAction (trimInput input.text) := rfl
  generalize trimInput input.text = line at idle action ⊢
  -- most of these lines are answered by a message, and no command runs
  have idles (prints : (trimmedAction line).Prints) (harmless : Harmless registry session line) :
      SameBooks session (lineStep env registry session input) ↔
        Harmless registry session line :=
    iff_of_true (sameBooks_of_prints env registry session (action ▸ prints)) harmless
  have step {command : Command} (run : trimmedAction line = .run command) :
      lineStep env registry session input = sessionStep env registry session command :=
    lineStep_of_run env registry session (action.trans run)
  cases idle with
  | unknownCommand first unknown =>
    obtain ⟨exit, unknown⟩ := unknown
    apply idles
    · rw [trimmedAction_of_field first, parseKeyword_eq_none exit unknown]
      trivial
    · exact harmless_of_ne first (unknown .model) (unknown .transferNonce)
  | tooFew first needed few =>
    apply idles
    · rw [trimmedAction_of_field first, parseKeyword_name]
      exact prints_of_few needed few
    · exact harmless_of_few first needed few
  | tooFewForCloud scanned few =>
    apply idles
    · rw [trimmedAction_of_fields scanned, dispatch, mineAction_cloud scanned]
      exact prints_of_fewForCloud few
    · exact harmless_of_fields scanned (by decide)
  | noIndex first none =>
    apply idles
    · rw [trimmedAction_of_field first, parseKeyword_name]
      simp only [dispatch, first, Option.bind_some, none]
      trivial
    · exact harmless_of_keyword first (by decide)
  | unknownMode scanned unknown =>
    apply idles
    · rw [trimmedAction_of_fields scanned, dispatch]
      exact prints_of_unknownMode scanned unknown
    · exact harmless_of_fields scanned (by decide)
  | rounds scanned outside =>
    -- the command runs, but its number of rounds is refused before anything is mined
    rw [step (trimmedAction_cloud scanned)]
    apply iff_of_true
    · exact sameBooks_of_rounds env registry session _ _ outside
    · exact harmless_of_fields scanned (by decide)
  | model scanned unknown =>
    -- an unknown name sets the current model once more, which resets the ledger
    have run := trimmedAction_of_fields scanned
    rw [dispatch, scanned] at run
    rw [step run, harmless_model_iff scanned]
    exact sameBooks_model_iff env registry session unknown
  | difficulty scanned outside =>
    -- the difficulty is stored before it is checked, but is no part of the books
    have run := trimmedAction_of_fields scanned
    rw [dispatch, scanned] at run
    rw [step run]
    apply iff_of_true
    · exact ⟨rfl, rfl, rfl⟩
    · exact harmless_of_fields scanned (by decide)
  | transfer scanned unregistered =>
    obtain ⟨sender, recipient, rfl, rfl, run⟩ := trimmedAction_transfer scanned
    rw [step run]
    apply iff_of_true
    · exact sameBooks_of_unregistered env registry session _ unregistered
    · exact harmless_of_fields scanned (by decide)
  | transferNonce scanned unregistered =>
    -- this command looks up both ids in the ledger without a look at the registry
    obtain ⟨sender, recipient, rfl, rfl, run⟩ := trimmedAction_transferNonce scanned
    rw [step run, harmless_transferNonce_iff scanned]
    exact sameBooks_transferNonce_iff env registry session sender recipient _ _

theorem idle_line_keeps_books_iff_sample :
    let input : CStr lineLen := ⟨"transfer ALU001 NOBODY 5\n".toList, by decide⟩
    SameBooks (Sample.start .account)
      (lineStep Sample.env Sample.registry (Sample.start .account) input) ↔
      Harmless Sample.registry (Sample.start .account) (trimInput input.text) :=
  idle_line_keeps_books_iff Sample.env Sample.registry (Sample.start .account) _
    (.transfer (show _ = [_, "ALU001".toList, "NOBODY".toList, "5".toList] by decide)
      (Or.inr (by decide)))

/-- A session in which tokens were earned. -/
def earnedSession : Session :=
  Runs.final (sessionStep Sample.env Sample.registry) (Sample.start .utxo)
    [.mark "ALU001".toList "PRESENT".toList, .mineSolo]

/-- A mistyped model empties the ledger. -/
theorem mistyped_model_empties_ledger :
    let input : CStr lineLen := ⟨"model acount\n".toList, by decide⟩
    NamesNoAction Sample.registry (trimInput input.text) ∧
    ¬SameBooks earnedSession (lineStep Sample.env Sample.registry earnedSession input) := by
  refine ⟨.model (show _ = [_, "acount".toList] by decide) (by decide), ?_⟩
  rintro ⟨_, _, same⟩
  have entries := congrArg (fun ledger => ledger.utxoSet.entries.length) same
  revert entries
  decide +kernel

end Attendance
