import Attendance.Foundation.Runs
import Attendance.Rounds

/-!
# Sessions

The command loop of `main.c` after a line has been read, and the start of the
program without a chain file.
-/
namespace Attendance

open CText

/-- What the loop holds between two prompts; the registry never changes. -/
structure Session extends MineState where
  difficulty : Int32
  model : LedgerModel

/-- The commands that write anything, with their scanned arguments. -/
inductive Command where
  | mark (studentId status : List Char)
  | mineSolo
  | minePool (miners : Int32)
  | mineCloud (rounds rentalFee maintenanceFee : Int32)
  | transfer (sender recipient : CStr studentIdLen) (amount : Int32)
  | transferNonce (sender recipient : CStr studentIdLen) (amount nonce : Int32)
  | model (argument : List Char)
  | difficulty (value : Int32)
  | tamper (blockIndex : Int32)

def parseModelArg (current : LedgerModel) (argument : List Char) : LedgerModel :=
  if argument = "utxo".toList ∨ argument = "UTXO".toList then .utxo
  else if argument = "account".toList ∨ argument = "ACCOUNT".toList then .account
  else current

def Session.withMineState (session : Session) (outcome : Outcome MineState) : Outcome Session :=
  ⟨outcome.ok, { session with toMineState := outcome.state }, outcome.overflow⟩

def Session.withLedger (session : Session) (outcome : Outcome Ledger) : Outcome Session :=
  ⟨outcome.ok, { session with ledger := outcome.state }, outcome.overflow⟩

/-- One command. The value it returns is not used by the loop. -/
def execute (env : Env) (registry : StudentRegistry) (session : Session) :
    Command → Outcome Session
  | .mark studentId status =>
    match markAttendance env session.world session.pool session.chain registry studentId status with
    | ⟨ok, (world, pool), overflow⟩ => ⟨ok, { session with world, pool }, overflow⟩
  | .mineSolo =>
    session.withMineState (miningSolo env session.toMineState session.difficulty (some soloMiner))
  | .minePool miners =>
    session.withMineState (miningPool env session.toMineState session.difficulty miners)
  | .mineCloud rounds rentalFee maintenanceFee =>
    session.withMineState
      (miningCloud env session.toMineState session.difficulty rounds rentalFee maintenanceFee)
  | .transfer sender recipient amount =>
    -- both must be registered students
    if (findStudent registry sender.text).isNone || (findStudent registry recipient.text).isNone
    then ⟨false, session, false⟩
    else session.withLedger (ledgerTransfer env session.ledger sender.text recipient.text amount)
  | .transferNonce sender recipient amount nonce =>
    -- no look into the registry here
    session.withLedger
      (ledgerTransferWithNonce session.ledger sender.text recipient.text amount nonce)
  | .model argument =>
    -- also when the model stays the same, the ledger starts anew
    let model := parseModelArg session.model argument
    ⟨true, { session with model, ledger := ledgerSetModel model registry }, false⟩
  | .difficulty value =>
    -- stored before it is checked
    ⟨decide (minDifficulty ≤ value ∧ value ≤ maxDifficulty),
      { session with difficulty := value }, false⟩
  | .tamper blockIndex =>
    match blockchainTamperDemo env session.world session.chain blockIndex with
    | ⟨ok, (world, chain), overflow⟩ => ⟨ok, { session with world, chain }, overflow⟩

def sessionStep (env : Env) (registry : StudentRegistry) (session : Session) (command : Command) :
    Session :=
  (execute env registry session command).state

/-- A new chain, saved before it is used; `none` is an exit of `main`. -/
def freshChain (env : Env) (world : World) : World × Option Blockchain :=
  match blockchainInit env world with
  | (world, none) => (world, none)
  | (world, some chain) =>
    match blockchainSave env world chain with
    | (world, false) => (world, none)
    | (world, true) => (world, some chain)

/-- `main` once it has a chain, or has not got one. -/
def startSession (registry : StudentRegistry) (model : LedgerModel) (difficulty : Int32) :
    World × Option Blockchain → World × Option Session
  | (world, none) => (world, none)
  | (world, some chain) =>
    match ledgerInit model registry with
    | (false, _) => (world, none)
    | (true, ledger) =>
      (world, some { world, chain, pool := pendingInit, ledger, difficulty, model })

/-- The start of `main` when `CHAIN_FILE` cannot be loaded. -/
def startFresh (env : Env) (registry : StudentRegistry) (model : LedgerModel)
    (difficulty : Int32) : Option Session :=
  (startSession registry model difficulty (freshChain env ⟨0, none⟩)).2

/-! ### The start of a session -/

/-- The state `main` enters its loop in. -/
structure FreshStart (env : Env) (registry : StudentRegistry) (model : LedgerModel)
    (session : Session) : Prop where
  chain : ∃ genesis, IsGenesis env genesis ∧ session.chain.blocks = [genesis]
  pool : session.pool.blocks = []
  ledger : session.ledger = (ledgerInit model registry).2

/-- There is room for every student that was loaded. -/
theorem ledgerInit_ok (model : LedgerModel) (registry : StudentRegistry) :
    (ledgerInit model registry).1 = true := by
  have created {ledger : AccountLedger} {students : List Student}
      (room : ledger.accounts.length + students.length ≤ maxStudents) :
      (createAccounts ledger students).1 = true := by
    induction students generalizing ledger with
    | nil => rfl
    | cons student students ih =>
      rw [List.length_cons] at room
      rw [createAccounts]
      rcases findOrCreateAccount_cases ledger student.studentId.text with
        ⟨i, _, result⟩ | ⟨_, longer, rows, result⟩ | ⟨_, full, _⟩
      · rw [result]
        exact ih (by omega)
      · rw [result]
        apply ih
        rw [rows, List.length_append, List.length_singleton]
        omega
      · omega
  cases model with
  | utxo => rfl
  | account =>
    apply created
    simpa [AccountLedger.empty] using registry.fits

/-- The state at the first prompt: nothing is pending, and the ledger is new. -/
def firstPrompt (model : LedgerModel) (difficulty : Int32) (registry : StudentRegistry)
    (world : World) (chain : Blockchain) : Session :=
  let ledger := (ledgerInit model registry).2
  { world, chain, pool := pendingInit, ledger, difficulty, model }

theorem startSession_eq (registry : StudentRegistry) (model : LedgerModel) (difficulty : Int32)
    (world : World) (chain : Blockchain) :
    startSession registry model difficulty (world, some chain) =
      (world, some (firstPrompt model difficulty registry world chain)) := by
  have ok := ledgerInit_ok model registry
  unfold startSession firstPrompt
  cases created : ledgerInit model registry with
  | mk _ ledger =>
    rw [created] at ok
    obtain rfl : _ = true := ok
    rfl

/-- A new chain is a genesis block that has been saved. -/
theorem freshChain_cases {env : Env} {world world' : World} {chain : Blockchain}
    (started : freshChain env world = (world', some chain)) :
    ∃ signedWorld genesis, createGenesisBlock env world = (signedWorld, some genesis) ∧
      chain.blocks = [genesis] ∧ blockchainSave env signedWorld chain = (world', true) := by
  unfold freshChain blockchainInit at started
  cases created : createGenesisBlock env world with
  | mk signedWorld result =>
    cases result with
    | none => simp [created] at started
    | some genesis =>
      simp only [created] at started
      split at started
      next => cases started
      next world'' saved =>
        cases started
        exact ⟨signedWorld, genesis, rfl, rfl, saved⟩

theorem startFresh_cases {env : Env} {registry : StudentRegistry} {model : LedgerModel}
    {difficulty : Int32} {session : Session}
    (started : startFresh env registry model difficulty = some session) :
    ∃ world genesis chain world', createGenesisBlock env ⟨0, none⟩ = (world, some genesis) ∧
      chain.blocks = [genesis] ∧ session = firstPrompt model difficulty registry world' chain := by
  unfold startFresh at started
  cases made : freshChain env ⟨0, none⟩ with
  | mk world' result =>
    rw [made] at started
    cases result with
    | none => cases started
    | some chain =>
      obtain ⟨world, genesis, created, blocks, _⟩ := freshChain_cases made
      rw [startSession_eq] at started
      exact ⟨world, genesis, chain, world', created, blocks, (Option.some.inj started).symm⟩

theorem startFresh_some {env : Env} {registry : StudentRegistry} {model : LedgerModel}
    {difficulty : Int32} {session : Session}
    (started : startFresh env registry model difficulty = some session) :
    FreshStart env registry model session := by
  obtain ⟨_, genesis, _, _, created, blocks, rfl⟩ := startFresh_cases started
  exact ⟨⟨genesis, createGenesisBlock_some created, blocks⟩, rfl, rfl⟩

theorem difficulty_startSession {registry : StudentRegistry} {model : LedgerModel}
    {difficulty : Int32} {found : World × Option Blockchain} {session : Session}
    (started : (startSession registry model difficulty found).2 = some session) :
    session.difficulty = difficulty := by
  obtain ⟨world, _ | chain⟩ := found
  · cases started
  · rw [startSession_eq] at started
    cases started
    rfl

theorem difficulty_startFresh {env : Env} {registry : StudentRegistry} {model : LedgerModel}
    {difficulty : Int32} {session : Session}
    (started : startFresh env registry model difficulty = some session) :
    session.difficulty = difficulty := difficulty_startSession started

/-! ### What a session does -/

/-- The mining call a command makes. -/
def Command.miningCall : Command → Option MiningCall
  | .mineSolo => some (.solo (some soloMiner))
  | .minePool miners => some (.pool miners)
  | .mineCloud rounds rentalFee maintenanceFee => some (.cloud rounds rentalFee maintenanceFee)
  | _ => none

theorem execute_of_miningCall (env : Env) (registry : StudentRegistry) (session : Session)
    {command : Command} {call : MiningCall} (mines : command.miningCall = some call) :
    execute env registry session command =
      session.withMineState (mine env session.toMineState session.difficulty call) := by
  cases command with
  | mineSolo | minePool | mineCloud =>
    cases mines
    rfl
  | _ => cases mines

theorem sessionStep_of_miningCall (env : Env) (registry : StudentRegistry) (session : Session)
    {command : Command} {call : MiningCall} (mines : command.miningCall = some call) :
    sessionStep env registry session command =
      { session with
        toMineState := (mine env session.toMineState session.difficulty call).state } := by
  rw [sessionStep, execute_of_miningCall env registry session mines]
  rfl

/-- A command other than `mark`, `mine` and `tamper` leaves the chain and the pool alone. -/
theorem sessionStep_of_other (env : Env) (registry : StudentRegistry) (session : Session)
    {command : Command} (unmarked : ∀ studentId status, command ≠ .mark studentId status)
    (unmined : command.miningCall = none) (untampered : ∀ i, command ≠ .tamper i) :
    (sessionStep env registry session command).chain = session.chain ∧
    (sessionStep env registry session command).pool = session.pool := by
  cases command with
  | mark studentId status => exact absurd rfl (unmarked studentId status)
  | mineSolo | minePool | mineCloud => cases unmined
  | tamper i => exact absurd rfl (untampered i)
  | transfer sender recipient amount =>
    simp only [sessionStep, execute]
    split <;> exact ⟨rfl, rfl⟩
  | transferNonce | model | difficulty => exact ⟨rfl, rfl⟩

/-- Only `mine` and `tamper` touch the chain. -/
theorem chain_sessionStep_of_other (env : Env) (registry : StudentRegistry) (session : Session)
    {command : Command} (unmined : command.miningCall = none)
    (untampered : ∀ i, command ≠ .tamper i) :
    (sessionStep env registry session command).chain = session.chain := by
  by_cases marks : ∃ studentId status, command = .mark studentId status
  · obtain ⟨studentId, status, rfl⟩ := marks
    rfl
  · simp only [not_exists] at marks
    exact (sessionStep_of_other env registry session marks unmined untampered).1

end Attendance
