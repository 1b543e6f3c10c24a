import Attendance.Properties.RegistryLines
import Attendance.Rewards
import Attendance.SampleMachine

/-!
# The ledger at the prompt is made by calls

Whatever is typed, the ledger is what some calls have made of the one `ledger_init` last returned:
mining only credits, and `model` starts anew. The ids of the calls are words from a line or stand
in the registry, so that what holds after any such calls holds at every prompt.
-/
namespace Attendance

open CText Calls

/-- The ids of the call fit their fields and stand on one line; that of a sender has no white
space in it. -/
def LedgerOp.Worded (op : LedgerOp) : Prop :=
  (∀ id ∈ op.ids, id.length < studentIdLen ∧ '\n' ∉ id) ∧
    match op with
    | .transfer sender _ _ | .transferNonce sender _ _ _ => ∀ c ∈ sender, Scan.isSpace c = false
    | .confirm _ | .creditMiner _ _ => True

/-- Such calls lead from one ledger to the other. -/
def WordedRun (env : Env) (before after : Ledger) : Prop :=
  ∃ ops, (∀ op ∈ ops, op.Worded) ∧ after = Runs.final (ledgerStep env) before ops

section WordedRun

variable (env : Env)

variable {env} in
theorem WordedRun.refl (ledger : Ledger) : WordedRun env ledger ledger := ⟨[], by simp, rfl⟩

variable {env} in
theorem WordedRun.single (ledger : Ledger) (op : LedgerOp) (worded : op.Worded) :
    WordedRun env ledger (op.call env ledger).state :=
  ⟨[op], by simpa using worded, rfl⟩

variable {env} in
theorem WordedRun.trans {first second third : Ledger} (one : WordedRun env first second)
    (two : WordedRun env second third) : WordedRun env first third := by
  obtain ⟨ops, worded, rfl⟩ := one
  obtain ⟨ops', worded', rfl⟩ := two
  exact ⟨ops ++ ops', List.forall_mem_append.mpr ⟨worded, worded'⟩, by rw [Runs.final_append]⟩

/-! ### Mining -/

theorem worded_creditMiner {minerId : List Char} (short : minerId.length < studentIdLen)
    (single : '\n' ∉ minerId) (amount : Int32) : (LedgerOp.creditMiner minerId amount).Worded :=
  ⟨by simpa [LedgerOp.ids] using ⟨short, single⟩, trivial⟩

theorem worded_confirm {block : Block} (single : '\n' ∉ block.studentId.text) :
    (LedgerOp.confirm block).Worded :=
  ⟨by simpa [LedgerOp.ids] using ⟨block.studentId.fits, single⟩, trivial⟩

private theorem newline_notMem_poolMiner (number : Nat) : '\n' ∉ poolMiner number := by
  have digits : '\n' ∉ decimal number := notMem_decimal rfl number
  unfold poolMiner
  simp [digits, List.mem_replicate]

private theorem wordedRun_payReward (ledger : Ledger) {block : Block}
    (single : '\n' ∉ block.studentId.text) :
    WordedRun env ledger (payReward env ledger block).state := by
  unfold payReward
  split
  · cases built : createRewardTransaction env block with
    | mk created tx =>
      cases created with
      | false => exact .refl ledger
      | true =>
        have run : WordedRun env ledger ((LedgerOp.confirm block).call env ledger).state :=
          .single ledger _ (worded_confirm single)
        rwa [LedgerOp.call, built] at run
  · exact .refl ledger

private theorem wordedRun_settle (call : MiningCall) (passed : ∀ minerId,
      call = .solo (some minerId) → minerId.length < studentIdLen ∧ '\n' ∉ minerId)
    (ledger : Ledger) {block : Block} (single : '\n' ∉ block.studentId.text) :
    WordedRun env ledger (call.settle env ledger block).state := by
  have unchecked : WordedRun env ledger (settleUnchecked env ledger block).state := by
    unfold settleUnchecked
    split
    · exact .single ledger (.confirm block) (worded_confirm single)
    · exact .refl ledger
  cases call with
  | pool | cloud => exact unchecked
  | solo minerId =>
    have named : (minerId.getD soloMiner).length < studentIdLen ∧ '\n' ∉ minerId.getD soloMiner := by
      cases minerId with
      | none => exact ⟨by decide, by decide⟩
      | some minerId => exact passed minerId rfl
    have paid := wordedRun_payReward env ledger single
    simp only [MiningCall.settle, settleChecked]
    split
    · exact paid.trans (.single _ _ (worded_creditMiner named.1 named.2 miningReward))
    · exact paid

private theorem wordedRun_payPoolMiners (distributable totalAttempts : Int32) (ledger : Ledger)
    (paid : Nat) (attempts : List Int32) (few : paid + attempts.length < 1000) :
    WordedRun env ledger
      (payPoolMiners env distributable totalAttempts ledger paid attempts).state := by
  induction attempts generalizing ledger paid with
  | nil => exact .refl ledger
  | cons attempt others ih =>
    rw [List.length_cons] at few
    have miner (reward : Int32) : (LedgerOp.creditMiner (poolMiner (paid + 1)) reward).Worded :=
      worded_creditMiner (length_poolMiner (by omega)) (newline_notMem_poolMiner _) reward
    simp only [payPoolMiners]
    -- fewer than a thousand miners, so that their ids fit
    refine WordedRun.trans ?_ (ih _ (paid + 1) (by omega))
    generalize poolShare distributable totalAttempts attempt = reward
    split
    · exact .single ledger _ (miner reward)
    · exact .refl ledger

private theorem wordedRun_start (call : MiningCall) (st : MineState) :
    WordedRun env st.ledger (call.start env st).state.ledger := by
  cases call with
  | solo | cloud => exact .refl st.ledger
  | pool minerCount =>
    have few := length_poolAttempts_le env (st.world.calls + 1) minerCount
    exact wordedRun_payPoolMiners env _ _ st.ledger 0 _ (by omega)

private theorem wordedRun_finish (call : MiningCall) (blocksToMine : Nat) (ledger : Ledger) :
    WordedRun env ledger (call.finish env blocksToMine ledger).state := by
  cases call with
  | solo | pool => exact .refl ledger
  | cloud =>
    simp only [MiningCall.finish, creditCloudUser]
    split
    · exact .single ledger _ (worded_creditMiner (by decide) (by decide) _)
    · exact .refl ledger

/-- The ids of the pending blocks stand on one line. -/
def PendingPool.OnOneLine (pool : PendingPool) : Prop :=
  ∀ block ∈ pool.blocks, '\n' ∉ block.studentId.text

/-- A call pays with such calls on the ledger, and takes blocks from the pool. -/
private theorem wordedRun_mine (call : MiningCall) (passed : ∀ minerId,
      call = .solo (some minerId) → minerId.length < studentIdLen ∧ '\n' ∉ minerId)
    (difficulty : Int32) {st : MineState} (single : st.pool.OnOneLine) :
    WordedRun env st.ledger (mine env st difficulty call).state.ledger ∧
      (mine env st difficulty call).state.pool.OnOneLine := by
  by_cases rejected : call.Rejected st
  · rw [mine_of_rejected rejected]
    exact ⟨.refl st.ledger, single⟩
  have round (now : MineState) (held : WordedRun env st.ledger now.ledger ∧ now.pool.OnOneLine) :
      WordedRun env st.ledger (call.round env difficulty now).state.ledger ∧
        (call.round env difficulty now).state.pool.OnOneLine := by
    have step := call.roundStep env difficulty now
    generalize call.round env difficulty now = result at step ⊢
    cases step with
    | idle => exact held
    | lost queued =>
      have pool := held.2
      rw [PendingPool.OnOneLine, queued, List.forall_mem_cons] at pool
      exact ⟨held.1, pool.2⟩
    | @confirmed front mined _ _ _ queued _ mining =>
      have pool := held.2
      rw [PendingPool.OnOneLine, queued, List.forall_mem_cons] at pool
      -- whom the block pays was settled when it was marked
      have owner : mined.studentId = front.studentId :=
        congrArg AttendanceRecord.studentId mining.record
      exact ⟨held.1.trans (wordedRun_settle env call passed _ (owner ▸ pool.1)), pool.2⟩
  have loop := repeatFor_keeps (call.round env difficulty)
    (fun now => WordedRun env st.ledger now.ledger ∧ now.pool.OnOneLine)
    (p := fun _ => True) (fun now _ held => round now held)
    (eachRound_of_forall (fun _ => trivial) st.pool.blocks.length (call.start env st).state)
    ⟨wordedRun_start env call st, by rw [MiningCall.pool_start]; exact single⟩
  rw [mine_eq, if_neg rejected]
  simp only
  split
  · exact ⟨loop.1.trans (wordedRun_finish env call _ _), loop.2⟩
  · exact loop

end WordedRun

/-! ### Commands -/

/-- The ids of students stand on one line. -/
def StudentRegistry.OnOneLine (registry : StudentRegistry) : Prop :=
  ∀ student ∈ registry.students, '\n' ∉ student.studentId.text

/-- The parties of a transfer are words. -/
def Command.Worded : Command → Prop
  | .transfer sender recipient _ | .transferNonce sender recipient _ _ =>
    (∀ c ∈ sender.text, Scan.isSpace c = false) ∧ ∀ c ∈ recipient.text, Scan.isSpace c = false
  | _ => True

/-- Such calls made the ledger of a new one in the model of the session. -/
structure MadeByCalls (env : Env) (registry : StudentRegistry) (session : Session) : Prop where
  ledger : WordedRun env (ledgerInit session.model registry).2 session.ledger
  pool : session.pool.OnOneLine

private theorem worded_of_words {sender recipient : CStr studentIdLen}
    (words : (∀ c ∈ sender.text, Scan.isSpace c = false) ∧
      ∀ c ∈ recipient.text, Scan.isSpace c = false) :
    (sender.text.length < studentIdLen ∧ '\n' ∉ sender.text) ∧
      (recipient.text.length < studentIdLen ∧ '\n' ∉ recipient.text) :=
  ⟨⟨sender.fits, fun member => absurd (words.1 _ member) (by decide)⟩,
    ⟨recipient.fits, fun member => absurd (words.2 _ member) (by decide)⟩⟩

/-- Marking queues a block of the registry or nothing. -/
private theorem onOneLine_markAttendance (env : Env) (world : World) {pool : PendingPool}
    (chain : Blockchain) {registry : StudentRegistry} (studentId status : List Char)
    (listed : registry.OnOneLine) (single : pool.OnOneLine) :
    (markAttendance env world pool chain registry studentId status).state.2.OnOneLine := by
  rcases markAttendance_cases env world pool chain registry studentId status with
    ⟨_, pool', block, result, queued, consistent, _⟩ | ⟨_, result⟩
  · rw [result]
    show pool'.OnOneLine
    rw [PendingPool.OnOneLine, queued, List.forall_mem_append, List.forall_mem_singleton]
    exact ⟨single, listed _ (List.mem_of_find?_eq_some consistent.student)⟩
  · rw [result]
    exact single

theorem madeByCalls_sessionStep (env : Env) {registry : StudentRegistry}
    (listed : registry.OnOneLine) {session : Session} {command : Command}
    (worded : command.Worded) (made : MadeByCalls env registry session) :
    MadeByCalls env registry (sessionStep env registry session command) := by
  obtain ⟨run, single⟩ := made
  cases mining : command.miningCall with
  | some call =>
    have passed : ∀ minerId, call = .solo (some minerId) →
        minerId.length < studentIdLen ∧ '\n' ∉ minerId := by
      rintro minerId rfl
      cases command <;> cases mining
      exact ⟨by decide, by decide⟩
    obtain ⟨paid, pool⟩ := wordedRun_mine env call passed session.difficulty single
    rw [sessionStep_of_miningCall env registry session mining]
    exact ⟨run.trans paid, pool⟩
  | none =>
    cases command with
    | mineSolo | minePool | mineCloud => cases mining
    | mark studentId status =>
      exact ⟨run, onOneLine_markAttendance env session.world session.chain studentId status listed
        single⟩
    | difficulty | tamper => exact ⟨run, single⟩
    -- the calls that made the old ledger are forgotten
    | model argument => exact ⟨.refl _, single⟩
    | transfer sender recipient amount =>
      have ids := worded_of_words worded
      simp only [sessionStep, execute]
      split
      · exact ⟨run, single⟩
      · exact ⟨run.trans (.single session.ledger (.transfer sender.text recipient.text amount)
          ⟨by simpa [LedgerOp.ids] using ids, worded.1⟩), single⟩
    | transferNonce sender recipient amount nonce =>
      have ids := worded_of_words worded
      exact ⟨run.trans (.single session.ledger
        (.transferNonce sender.text recipient.text amount nonce)
        ⟨by simpa [LedgerOp.ids] using ids, worded.1⟩), single⟩

/-! ### Lines -/

/-- Fields that are stored in an id array are words. -/
private theorem solid_strncpy {widths : List Nat} {line token : List Char}
    {tokens : List (List Char)} (scanned : Scan.fields widths line = tokens)
    (member : token ∈ tokens) :
    ∀ c ∈ (CStr.strncpy token : CStr studentIdLen).text, Scan.isSpace c = false :=
  fun c inside => Scan.solid_of_mem_fields (scanned ▸ member) c (List.mem_of_mem_take inside)

private theorem worded_dispatch {line : List Char} {keyword : Keyword} {command : Command}
    (run : dispatch line keyword = .run command) : command.Worded := by
  cases keyword with
  | transfer =>
    rw [dispatch] at run
    split at run
    next scanned =>
      cases run
      exact ⟨solid_strncpy scanned (by simp), solid_strncpy scanned (by simp)⟩
    next => cases run
  | transferNonce =>
    rw [dispatch] at run
    split at run
    next scanned =>
      cases run
      exact ⟨solid_strncpy scanned (by simp), solid_strncpy scanned (by simp)⟩
    next => cases run
  | mine =>
    -- no mode of `mine` takes an id from the line
    rw [dispatch] at run
    unfold mineAction cloudAction at run
    repeat' split at run
    all_goals cases run
    all_goals trivial
  | mark | model | difficulty | tamper =>
    rw [dispatch] at run
    split at run <;> cases run
    trivial
  | balance | history =>
    rw [dispatch] at run
    split at run <;> cases run
  | _ => cases run

/-- The commands of the loop name words. -/
theorem worded_lineAction {input : CStr lineLen} {command : Command}
    (run : lineAction input = .run command) : command.Worded := by
  unfold lineAction trimmedAction at run
  split at run
  · cases run
  split at run
  · cases run
  split at run
  · cases run
  · exact worded_dispatch run

/-- A line of the registry file is cut at its end, and the ids with it. -/
theorem onOneLine_of_loaded {file : Option (List Char)} {registry : StudentRegistry}
    (loaded : loadStudentRegistry file = some registry) : registry.OnOneLine := by
  cases file with
  | none => cases loaded
  | some content =>
    intro student listed
    rw [students_of_loaded loaded, List.mem_flatMap] at listed
    obtain ⟨line, whole, read⟩ := listed
    obtain ⟨piece, part, found⟩ := List.mem_filterMap.mp read
    simp only [studentOf] at found
    split at found
    · cases found
    · obtain ⟨first, second, others, tokens, studentId⟩ := studentId_of_parsed found
      intro newline
      rw [studentId] at newline
      -- from the field back to the token, the piece and the line it was cut from
      have field := (List.dropWhile_sublist _).subset (List.mem_of_mem_take newline)
      have token : first ∈ (trimNewline piece).splitOn ',' :=
        List.mem_of_mem_filter (show first ∈ Scan.strtok ',' (trimNewline piece) by simp [tokens])
      have text := (prefix_trimNewline piece).subset (Scan.mem_of_mem_splitOn token field)
      have inside := Scan.mem_of_mem_fgetsLines part text
      exact Scan.notMem_of_mem_splitOn whole inside

theorem madeByCalls_lineStep (env : Env) {registry : StudentRegistry} (listed : registry.OnOneLine)
    {session : Session} (input : CStr lineLen) (made : MadeByCalls env registry session) :
    MadeByCalls env registry (lineStep env registry session input) := by
  unfold lineStep
  split
  next run => exact madeByCalls_sessionStep env listed (worded_lineAction run) made
  next => exact made

/-! ### Prompts -/

theorem madeByCalls_prompts {κ π : Type} (machine : Machine κ π) (disk : Disk)
    (invocation : Invocation) :
    ∀ keyed ∈ machine.prompts disk invocation, ∃ registry,
      loadStudentRegistry invocation.students = some registry ∧
      MadeByCalls (machine.env keyed.1) registry keyed.2 := by
  intro keyed member
  have step := bootStep machine disk invocation
  unfold Machine.prompts at member
  generalize machine.boot disk invocation = booted at step member
  cases step with
  -- a run that does not start has no prompt
  | refused | keyless | chainless => cases member
  | @running keys _ world chain model difficulty registry _ loaded =>
    obtain ⟨session, there, rfl⟩ := List.mem_map.mp member
    have listed := onOneLine_of_loaded loaded
    have initial : MadeByCalls (machine.env keys) registry
        (firstPrompt model difficulty registry world chain) :=
      ⟨.refl _, fun block pending => by cases pending⟩
    have made : ∀ state ∈ promptStates (machine.env keys) registry
        (firstPrompt model difficulty registry world chain) invocation.lines,
        MadeByCalls (machine.env keys) registry state := by
      rw [forall_mem_promptStates]
      intro pre _
      have admitted : Runs.Guarded (lineStep (machine.env keys) registry) (fun _ _ => True)
          (firstPrompt model difficulty registry world chain) pre :=
        Runs.guarded_of_forall_mem _ (fun _ _ _ => trivial) _
      exact Runs.guarded_invariant (lineStep (machine.env keys) registry)
        (MadeByCalls (machine.env keys) registry)
        (fun state input made _ => madeByCalls_lineStep _ listed input made) initial admitted
    exact ⟨registry, loaded, made session there⟩

/-- At every prompt of every run the ledger is what calls have made of the one that `ledger_init`
makes for the model of the session and the students of the file; the ids of the calls fit their
fields and stand on one line, and the sender of a transfer has no white space in it. -/
theorem prompts_made_by_calls {κ π : Type} (machine : Machine κ π) (disk : Disk)
    (invocation : Invocation) :
    ∀ keyed ∈ machine.prompts disk invocation, ∃ registry ops,
      loadStudentRegistry invocation.students = some registry ∧
      (∀ op ∈ ops, LedgerOp.Worded op) ∧
      keyed.2.ledger = Runs.final (ledgerStep (machine.env keyed.1))
        (ledgerInit keyed.2.model registry).2 ops := by
  intro keyed member
  obtain ⟨registry, loaded, made⟩ := madeByCalls_prompts machine disk invocation keyed member
  obtain ⟨ops, worded, ledger⟩ := made.ledger
  exact ⟨registry, ops, loaded, worded, ledger⟩

/-- A run that pays a pool, changes the model and goes on in the other. -/
def changingRun : Invocation :=
  Sample.invocation "mark ALU001 PRESENT\nmine pool 1\nmodel account\nmark ALU002 LATE\nmine solo\n"

theorem prompts_made_by_calls_sample :
    (Sample.machine.prompts Sample.blankDisk changingRun).map (fun keyed =>
      (keyed.2.model, ledgerBalance keyed.2.ledger "ALU001".toList,
        ledgerBalance keyed.2.ledger "ALU002".toList)) =
      [(.utxo, 0, 0), (.utxo, 0, 0), (.utxo, 9, 0), (.account, 0, 0), (.account, 0, 0),
        (.account, 0, 4)] ∧
    ∀ keyed ∈ Sample.machine.prompts Sample.blankDisk changingRun, ∃ registry ops,
      (∀ op ∈ ops, LedgerOp.Worded op) ∧
      keyed.2.ledger = Runs.final (ledgerStep (Sample.machine.env keyed.1))
        (ledgerInit keyed.2.model registry).2 ops := by
  refine ⟨by decide +kernel, fun keyed member => ?_⟩
  obtain ⟨registry, ops, _, worded, made⟩ :=
    prompts_made_by_calls Sample.machine Sample.blankDisk changingRun keyed member
  exact ⟨registry, ops, worded, made⟩

end Attendance
