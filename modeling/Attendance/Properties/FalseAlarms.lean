import Attendance.Sample
import Attendance.Session

/-!
# When validation raises an alarm

A block does not say what difficulty it was mined at, and `validate` holds all blocks
against the difficulty of the moment. An untampered chain passes as long as the
difficulty has not been raised above the one each block was mined at; otherwise it
passes only where the hashes happen to have zeros to spare.
-/
namespace Attendance

open CText

/-- The command leaves the chain untampered and the difficulty where mining works. -/
def Command.Honest : Command → Prop
  | .difficulty value => DifficultyInRange value
  | .tamper _ => False
  | _ => True

instance : DecidablePred Command.Honest
  | .difficulty value => inferInstanceAs (Decidable (DifficultyInRange value))
  | .tamper _ => isFalse id
  | .mark _ _ | .mineSolo | .minePool _ | .mineCloud _ _ _ | .transfer _ _ _
  | .transferNonce _ _ _ _ | .model _ => isTrue trivial

/-- The difficulty in force, once for each block a step appends. -/
def appendedTargets (env : Env) (registry : StudentRegistry) (session : Session)
    (command : Command) : List Int32 :=
  List.replicate ((sessionStep env registry session command).chain.blocks.length -
    session.chain.blocks.length) session.difficulty

/-- The chain passes every check but those against the difficulty of the moment, and each
block after the first meets the difficulty it was mined at. -/
structure MinedAt (env : Env) (targets : List Int32) (session : Session) : Prop where
  inRange : DifficultyInRange session.difficulty
  linked : LinkedChain session.chain.blocks
  isSealed : ∀ block ∈ session.chain.blocks, Sealed env block
  nonempty : session.chain.blocks ≠ []
  meets : List.Forall₂ (fun target block => hashMeetsDifficulty block.hash target = true) targets
    session.chain.blocks.tail

private theorem minedAt_step (env : Env) (registry : StudentRegistry) {session : Session}
    {targets : List Int32} {command : Command} (minedAt : MinedAt env targets session)
    (honest : command.Honest) :
    MinedAt env (targets ++ appendedTargets env registry session command)
      (sessionStep env registry session command) := by
  obtain ⟨inRange, linked, isSealed, nonempty, meets⟩ := minedAt
  cases mining : command.miningCall with
  | some call =>
    obtain ⟨appended, grown, made, links⟩ :=
      mine_appends env session.toMineState session.difficulty call
    have step := sessionStep_of_miningCall env registry session mining
    have chain : (sessionStep env registry session command).chain.blocks =
        session.chain.blocks ++ appended := by
      rw [step]
      exact grown
    have difficulty : (sessionStep env registry session command).difficulty =
        session.difficulty := by
      rw [step]
    have log : appendedTargets env registry session command =
        List.replicate appended.length session.difficulty := by
      rw [appendedTargets, chain, List.length_append, Nat.add_sub_cancel_left]
    refine ⟨difficulty ▸ inRange, ?_, ?_, ?_, ?_⟩
    · rw [chain]
      exact links linked
    · rw [chain, List.forall_mem_append]
      exact ⟨isSealed, fun block member => (made block member).1⟩
    · rw [chain]
      simp [nonempty]
    · rw [chain, log, List.tail_append_of_ne_nil nonempty]
      apply List.rel_append meets
      -- each of the new blocks meets the one difficulty of this call
      clear grown links chain log
      induction appended with
      | nil => exact .nil
      | cons block appended ih =>
        rw [List.forall_mem_cons] at made
        exact .cons made.1.2 (ih made.2)
  | none =>
    have untampered : ∀ i, command ≠ .tamper i := by
      rintro i rfl
      exact honest
    have same := chain_sessionStep_of_other env registry session mining untampered
    have log : appendedTargets env registry session command = [] := by
      rw [appendedTargets, same, Nat.sub_self, List.replicate_zero]
    rw [log, List.append_nil]
    refine ⟨?_, same ▸ linked, same ▸ isSealed, same ▸ nonempty, same ▸ meets⟩
    cases command with
    | mineSolo | minePool | mineCloud => cases mining
    | tamper => exact absurd honest id
    | difficulty value => exact honest
    | mark | transferNonce | model => exact inRange
    | transfer sender recipient amount =>
      simp only [sessionStep, execute]
      split <;> exact inRange

/-- A block of the chain met one of the targets. -/
private theorem exists_target {targets : List Int32} {blocks : List Block}
    (meets : List.Forall₂ (fun target block => hashMeetsDifficulty block.hash target = true)
      targets blocks) {block : Block} (member : block ∈ blocks) :
    ∃ target ∈ targets, hashMeetsDifficulty block.hash target = true := by
  induction meets with
  | nil => cases member
  | @cons target first _ _ met _ ih =>
    rcases List.mem_cons.mp member with rfl | later
    · exact ⟨target, List.mem_cons_self, met⟩
    · obtain ⟨target', logged, met'⟩ := ih later
      exact ⟨target', List.mem_cons_of_mem target logged, met'⟩

/-- In every state a session without tampering reaches from a fresh genesis, with every
difficulty within the limits, validation succeeds exactly if each hash but the first starts
with as many zeros as the difficulty of the moment says, and it does succeed when that
difficulty is not above the one in force when each of the blocks was mined. -/
theorem validate_iff_target_met (env : Env) (registry : StudentRegistry) (model : LedgerModel)
    (difficulty : Int32) (session : Session)
    (started : startFresh env registry model difficulty = some session)
    (inRange : DifficultyInRange difficulty) (verifies : SignaturesVerify env)
    (commands : List Command) (honest : ∀ command ∈ commands, command.Honest) :
    let reached := Runs.final (sessionStep env registry) session commands
    let targets :=
      Runs.trace (sessionStep env registry) (appendedTargets env registry) session commands
    (blockchainValidate env reached.chain reached.difficulty = true ↔
      ∀ block ∈ reached.chain.blocks.tail,
        List.replicate reached.difficulty.toInt.toNat '0' <+: block.hash.text) ∧
    ((∀ target ∈ targets, reached.difficulty ≤ target) →
      blockchainValidate env reached.chain reached.difficulty = true) := by
  intro reached targets
  obtain ⟨⟨genesis, isGenesis, blocks⟩, _, _⟩ := startFresh_some started
  have initial : MinedAt env [] session := by
    refine ⟨difficulty_startFresh started ▸ inRange, ?_, ?_, ?_, ?_⟩ <;> rw [blocks]
    · exact ⟨isGenesis.previousHash, trivial⟩
    · simpa using isGenesis.isSealed
    · simp
    · exact .nil
  have minedAt := Runs.logged_invariant (sessionStep env registry) (appendedTargets env registry)
    (MinedAt env) (fun targets session command minedAt honest =>
      minedAt_step env registry minedAt honest) initial
    (Runs.guarded_of_forall_mem (sessionStep env registry) (fun command member _ =>
      honest command member) session)
  obtain ⟨inRange, linked, isSealed, nonempty, meets⟩ := minedAt
  have authentic : ∀ block ∈ reached.chain.blocks, Authentic env block := fun block member =>
    ⟨(isSealed block member).hash, verifies block (isSealed block member).signed⟩
  have validates : blockchainValidate env reached.chain reached.difficulty = true ↔
      ∀ block ∈ reached.chain.blocks.tail,
        hashMeetsDifficulty block.hash reached.difficulty = true := by
    rw [blockchainValidate_iff]
    constructor
    · exact fun valid => valid.2.2.2
    · exact fun met => ⟨nonempty, linked, authentic, met⟩
  refine ⟨?_, ?_⟩
  · rw [validates]
    exact forall₂_congr fun block _ => hashMeetsDifficulty_iff block.hash inRange.1
  · intro lowered
    rw [validates]
    intro block member
    -- each block met a target that is no smaller
    obtain ⟨target, logged, met⟩ := exists_target meets member
    exact hashMeetsDifficulty_mono inRange.1 (lowered target (by simpa using logged)) met

/-- Mining at difficulty 1, raising it to 3 and lowering it again. -/
theorem validate_iff_target_met_sample :
    let commands := [.mark "ALU001".toList "PRESENT".toList, .mineSolo, .difficulty 3,
      .difficulty 1]
    let reached :=
      Runs.final (sessionStep Sample.env Sample.registry) (Sample.start .utxo) commands
    let targets := Runs.trace (sessionStep Sample.env Sample.registry)
      (appendedTargets Sample.env Sample.registry) (Sample.start .utxo) commands
    (blockchainValidate Sample.env reached.chain reached.difficulty = true ↔
      ∀ block ∈ reached.chain.blocks.tail,
        List.replicate reached.difficulty.toInt.toNat '0' <+: block.hash.text) ∧
    ((∀ target ∈ targets, reached.difficulty ≤ target) →
      blockchainValidate Sample.env reached.chain reached.difficulty = true) :=
  validate_iff_target_met Sample.env Sample.registry .utxo 1 (Sample.start .utxo)
    (Sample.startFresh_eq .utxo) (by decide) Sample.signaturesVerify _ (by decide)

/-- One block mined at difficulty 1 fails validation once the difficulty is raised to 2. -/
theorem raised_difficulty_rejects_chain :
    let commands := [.mark "ALU001".toList "PRESENT".toList, .mineSolo, .difficulty 2]
    let reached :=
      Runs.final (sessionStep Sample.env Sample.registry) (Sample.start .utxo) commands
    startFresh Sample.env Sample.registry .utxo 1 = some (Sample.start .utxo) ∧
    DifficultyInRange 1 ∧ SignaturesVerify Sample.env ∧
    (∀ command ∈ commands, command.Honest) ∧
    blockchainValidate Sample.env reached.chain reached.difficulty = false :=
  ⟨Sample.startFresh_eq .utxo, by decide, Sample.signaturesVerify, by decide, by decide +kernel⟩

end Attendance
