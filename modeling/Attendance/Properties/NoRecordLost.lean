import Attendance.Records
import Attendance.Sample

/-!
# Records are lost only by a failed confirmation

The pool and the chain together hold the records `mark_attendance` accepted, in
order. No run duplicates or reorders one. A record is lost exactly when a mining
call takes its block off the pool and then fails to append it.
-/
namespace Attendance

open CText Calls

/-- The records on the chain after genesis, then those still pending. -/
def records (chain : Blockchain) (pool : PendingPool) : List AttendanceRecord :=
  (chain.blocks.tail ++ pool.blocks).map Block.record

/-- The record of the block that `mark_attendance` accepts in this step. -/
def acceptedRecords (env : Env) (registry : StudentRegistry) (session : Session) :
    Command → List AttendanceRecord
  | .mark studentId status =>
    let marked := markAttendance env session.world session.pool session.chain registry studentId
      status
    if marked.ok then (marked.state.2.blocks.getLast?.map Block.record).toList else []
  | _ => []

/-- Each time the call takes a block off the pool, it is able to confirm it. -/
def MiningCall.ConfirmsEach (env : Env) (st : MineState) (difficulty : Int32)
    (call : MiningCall) : Prop :=
  ¬call.Rejected st →
    EachRound (call.round env difficulty)
      (fun st => ∀ front ∈ st.pool.blocks.head?, Confirmable env difficulty st front)
      st.pool.blocks.length (call.start env st).state

/-- A mining command confirms each block it takes off the pool. -/
def LosesNothing (env : Env) (session : Session) (command : Command) : Prop :=
  ∀ call ∈ command.miningCall, call.ConfirmsEach env session.toMineState session.difficulty

/-- A round moves the front record to the chain, or loses it. -/
private theorem records_round (env : Env) (difficulty : Int32) (call : MiningCall)
    {st : MineState} (nonempty : st.chain.blocks ≠ []) :
    let after := (call.round env difficulty st).state
    after.chain.blocks ≠ [] ∧
    (records after.chain after.pool).Sublist (records st.chain st.pool) ∧
    (records after.chain after.pool = records st.chain st.pool ↔
      ∀ front ∈ st.pool.blocks.head?, Confirmable env difficulty st front) := by
  have step := call.roundStep env difficulty st
  generalize call.round env difficulty st = result at step ⊢
  cases step with
  | idle empty => simp [nonempty, empty]
  | @confirmed front mined world chain pool queued confirmable mining appended =>
    have moved : records chain pool = records st.chain st.pool := by
      simp [records, appended, List.tail_append_of_ne_nil nonempty, queued, mining.record]
    simp [moved, appended, queued, confirmable]
  | @lost front world pool queued unconfirmable =>
    -- the front record is missing between the chain and the rest of the pool
    have before : records st.chain st.pool =
        st.chain.blocks.tail.map Block.record ++ front.record :: pool.blocks.map Block.record := by
      simp [records, queued]
    have after : records st.chain pool =
        st.chain.blocks.tail.map Block.record ++ pool.blocks.map Block.record := by
      simp [records]
    have shorter : records st.chain pool ≠ records st.chain st.pool := by
      intro same
      have lengths := congrArg List.length same
      simp only [before, after, List.length_append, List.length_cons] at lengths
      omega
    refine ⟨nonempty, ?_, ?_⟩
    · rw [before, after]
      exact (List.sublist_cons_self _ _).append_left _
    · simp [shorter, queued, unconfirmable]

/-- A mining call keeps every record exactly if it confirms each block it takes. -/
private theorem records_mine (env : Env) (difficulty : Int32) (call : MiningCall)
    {st : MineState} (nonempty : st.chain.blocks ≠ []) :
    let after := (mine env st difficulty call).state
    after.chain.blocks ≠ [] ∧
    (records after.chain after.pool).Sublist (records st.chain st.pool) ∧
    (records after.chain after.pool = records st.chain st.pool ↔
      call.ConfirmsEach env st difficulty) := by
  have started : (call.start env st).state.chain.blocks ≠ [] := by
    rwa [MiningCall.chain_start]
  have always : EachRound (call.round env difficulty) (fun _ => True) st.pool.blocks.length
      (call.start env st).state := eachRound_of_forall (fun _ => trivial) _ _
  obtain ⟨fewer, all_iff⟩ := repeatFor_eq_iff (call.round env difficulty)
    (fun st => records st.chain st.pool) List.Sublist List.Sublist.refl List.Sublist.trans
    List.Sublist.antisymm (fun st => st.chain.blocks ≠ [])
    (fun st _ nonempty => (records_round env difficulty call nonempty).1)
    (fun st _ nonempty => (records_round env difficulty call nonempty).2.1)
    (fun st _ nonempty => (records_round env difficulty call nonempty).2.2) started always
  have grown := repeatFor_keeps (call.round env difficulty) (fun st => st.chain.blocks ≠ [])
    (fun st _ nonempty => (records_round env difficulty call nonempty).1) always started
  rw [MiningCall.chain_start, MiningCall.pool_start] at fewer all_iff
  -- a call that is rejected keeps everything, and has nothing to confirm
  by_cases rejected : call.Rejected st
  · simp [mine_of_rejected rejected, MiningCall.ConfirmsEach, rejected, nonempty]
  · obtain ⟨chain, pool⟩ := mine_of_accepted env difficulty rejected
    simp only [chain, pool, MiningCall.ConfirmsEach, rejected, not_false_eq_true, true_implies]
    exact ⟨grown, fewer, all_iff⟩

/-- One command, other than `tamper`, takes in the record it accepts and keeps the
others exactly if it loses nothing. -/
private theorem records_step (env : Env) (registry : StudentRegistry) (session : Session)
    {command : Command} (nonempty : session.chain.blocks ≠ [])
    (untampered : ∀ i, command ≠ .tamper i) :
    let after := sessionStep env registry session command
    after.chain.blocks ≠ [] ∧
    (records after.chain after.pool).Sublist
      (records session.chain session.pool ++ acceptedRecords env registry session command) ∧
    (records after.chain after.pool =
        records session.chain session.pool ++ acceptedRecords env registry session command ↔
      LosesNothing env session command) := by
  cases mining : command.miningCall with
  | some call =>
    have accepts : acceptedRecords env registry session command = [] := by
      cases command <;> first | rfl | cases mining
    simpa [LosesNothing, mining, accepts, sessionStep_of_miningCall env registry session mining]
      using records_mine env session.difficulty call nonempty
  | none =>
    -- no other command takes a block off the pool
    have safe : LosesNothing env session command := by simp [LosesNothing, mining]
    by_cases marks : ∃ studentId status, command = .mark studentId status
    · obtain ⟨studentId, status, rfl⟩ := marks
      rcases markAttendance_cases env session.world session.pool session.chain registry studentId
        status with ⟨world, pool, block, result, queued, _⟩ | ⟨world, result⟩
      · simp [sessionStep, execute, acceptedRecords, result, records, queued, nonempty, safe]
      · simp [sessionStep, execute, acceptedRecords, result, nonempty, safe]
    · simp only [not_exists] at marks
      obtain ⟨chain, pool⟩ := sessionStep_of_other env registry session marks mining untampered
      have accepts : acceptedRecords env registry session command = [] := by
        cases command <;> first | rfl | exact absurd rfl (marks _ _)
      simp [chain, pool, accepts, nonempty, safe]

/-- In every run without tampering, the records on the chain and in the pool are what
was accepted, in order, exactly if each mining call confirms the blocks it takes. -/
theorem accepted_eq_records_iff (env : Env) (registry : StudentRegistry) (model : LedgerModel)
    (difficulty : Int32) (session : Session)
    (started : startFresh env registry model difficulty = some session)
    (commands : List Command) (untampered : ∀ command ∈ commands, ∀ i, command ≠ .tamper i) :
    let after := Runs.final (sessionStep env registry) session commands
    Runs.trace (sessionStep env registry) (acceptedRecords env registry) session commands =
        records after.chain after.pool ↔
      Runs.Guarded (sessionStep env registry) (LosesNothing env) session commands := by
  obtain ⟨⟨genesis, _, chain⟩, pool, _⟩ := startFresh_some started
  have exact' := (Runs.content_eq_iff_guarded (sessionStep env registry)
    (acceptedRecords env registry) (fun session => records session.chain session.pool)
    (fun session => session.chain.blocks ≠ []) (fun command => ∀ i, command ≠ .tamper i)
    (fun s c nonempty untampered => (records_step env registry s nonempty untampered).1)
    (fun s c nonempty untampered => (records_step env registry s nonempty untampered).2.1)
    (fun s c nonempty untampered => (records_step env registry s nonempty untampered).2.2)
    (s := session) (by simp [chain]) untampered).2
  -- a fresh session holds the genesis block and no record
  have nothing : records session.chain session.pool = [] := by
    simp [records, chain, pool]
  rw [nothing, List.nil_append] at exact'
  exact eq_comm.trans exact'

/-- Two blocks are confirmed one after the other and a third one is left pending. -/
theorem accepted_eq_records_iff_sample :
    let commands := [.mark "ALU001".toList "PRESENT".toList, .mark "ALU002".toList "LATE".toList,
      .mineSolo, .mark "ALU001".toList "ABSENT".toList]
    let after := Runs.final (sessionStep Sample.env Sample.registry) (Sample.start .utxo) commands
    Runs.trace (sessionStep Sample.env Sample.registry)
        (acceptedRecords Sample.env Sample.registry) (Sample.start .utxo) commands =
      records after.chain after.pool ↔
    Runs.Guarded (sessionStep Sample.env Sample.registry) (LosesNothing Sample.env)
      (Sample.start .utxo) commands :=
  accepted_eq_records_iff Sample.env Sample.registry .utxo 1 (Sample.start .utxo)
    (Sample.startFresh_eq .utxo) _ (by simp)

/-- `difficulty 9` is stored although it is refused, and the next mining call drops the
block it takes. -/
theorem record_lost_at_difficulty_nine :
    let commands := [.difficulty 9, .mark "ALU001".toList "PRESENT".toList, .mineSolo]
    let after := Runs.final (sessionStep Sample.env Sample.registry) (Sample.start .utxo) commands
    startFresh Sample.env Sample.registry .utxo 1 = some (Sample.start .utxo) ∧
    Runs.trace (sessionStep Sample.env Sample.registry)
        (acceptedRecords Sample.env Sample.registry) (Sample.start .utxo) commands ≠
      records after.chain after.pool :=
  ⟨Sample.startFresh_eq .utxo, by decide +kernel⟩

end Attendance
