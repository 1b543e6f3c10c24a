import Attendance.Records
import Attendance.Sample

/-!
# Blocks stay consistent

What marking puts into a block, mining leaves there: in a session without tampering
every block agrees with the registry, the reward table and the transaction that pays
it, and every block of the chain has its position as its index.
-/
namespace Attendance

open CText Calls

/-- Every block but the genesis block is consistent, and every index is a position. -/
structure WellFormed (env : Env) (registry : StudentRegistry) (chain : Blockchain)
    (pool : PendingPool) : Prop where
  nonempty : chain.blocks ≠ []
  indexed : ∀ (i : Nat) (block : Block), chain.blocks[i]? = some block → block.index = Int32.ofNat i
  confirmed : ∀ block ∈ chain.blocks.tail, Consistent env registry block
  pending : ∀ block ∈ pool.blocks, Consistent env registry block

private theorem index_of_linked {env : Env} {registry : StudentRegistry} {st : MineState}
    (wellFormed : WellFormed env registry st.chain st.pool) {difficulty : Int32}
    {front mined : Block} (mining : MinedFrom env difficulty st front mined) :
    mined.index = Int32.ofNat st.chain.blocks.length := by
  have last := List.getLast?_eq_some_getLast wellFormed.nonempty
  have position := wellFormed.indexed (st.chain.blocks.length - 1) _
    (List.getLast?_eq_getElem?.symm.trans last)
  have positive := List.length_pos_iff.mpr wellFormed.nonempty
  rw [mining.index last, position, ← Nat.sub_add_cancel positive]
  exact (Int32.ofNat_add _ 1).symm

private theorem wellFormed_round {env : Env} {registry : StudentRegistry} (difficulty : Int32)
    (call : MiningCall) {st : MineState} (wellFormed : WellFormed env registry st.chain st.pool) :
    WellFormed env registry (call.round env difficulty st).state.chain
      (call.round env difficulty st).state.pool := by
  have step := call.roundStep env difficulty st
  generalize call.round env difficulty st = result at step ⊢
  obtain ⟨nonempty, indexed, confirmed, pending⟩ := wellFormed
  cases step with
  | idle => exact ⟨nonempty, indexed, confirmed, pending⟩
  | @confirmed front mined world chain pool queued _ mining appended =>
    have consistent : ∀ block ∈ front :: pool.blocks, Consistent env registry block :=
      queued ▸ pending
    rw [List.forall_mem_cons] at consistent
    refine ⟨by simp [appended], fun i block there => ?_, ?_, consistent.2⟩
    -- a position before, at, or behind the appended block
    · rw [appended] at there
      rcases Nat.lt_trichotomy i st.chain.blocks.length with inside | rfl | outside
      · rw [List.getElem?_append_left inside] at there
        exact indexed i block there
      · rw [List.getElem?_concat_length, Option.some_inj] at there
        rw [← there]
        exact index_of_linked ⟨nonempty, indexed, confirmed, pending⟩ mining
      · rw [List.getElem?_eq_none (by simp; omega)] at there
        cases there
    · rw [appended, List.tail_append_of_ne_nil nonempty, List.forall_mem_append]
      exact ⟨confirmed, by simpa using consistent.1.of_record mining.record.symm⟩
  | @lost front world pool queued =>
    rw [queued, List.forall_mem_cons] at pending
    exact ⟨nonempty, indexed, confirmed, pending.2⟩

private theorem wellFormed_step {env : Env} {registry : StudentRegistry} {session : Session}
    (command : Command) (untampered : ∀ i, command ≠ .tamper i)
    (wellFormed : WellFormed env registry session.chain session.pool) :
    WellFormed env registry (sessionStep env registry session command).chain
      (sessionStep env registry session command).pool := by
  cases mining : command.miningCall with
  | some call =>
    rw [sessionStep_of_miningCall env registry session mining]
    exact mine_rel call (fun chain pool chain' pool' => WellFormed env registry chain pool →
      WellFormed env registry chain' pool') (fun _ _ held => held)
      (fun first second held => second (first held))
      (fun st => wellFormed_round session.difficulty call) session.toMineState wellFormed
  | none =>
    by_cases marks : ∃ studentId status, command = .mark studentId status
    · obtain ⟨studentId, status, rfl⟩ := marks
      obtain ⟨nonempty, indexed, confirmed, pending⟩ := wellFormed
      rcases markAttendance_cases env session.world session.pool session.chain registry studentId
        status with ⟨world, pool, block, result, queued, consistent, _⟩ | ⟨world, result⟩
      · simp only [sessionStep, execute, result]
        refine ⟨nonempty, indexed, confirmed, ?_⟩
        -- a marked block is consistent when it is queued
        rw [queued, List.forall_mem_append]
        exact ⟨pending, by simpa using consistent⟩
      · simp only [sessionStep, execute, result]
        exact ⟨nonempty, indexed, confirmed, pending⟩
    · simp only [not_exists] at marks
      obtain ⟨chain, pool⟩ := sessionStep_of_other env registry session marks mining untampered
      rwa [chain, pool]

/-- In every session without tampering, the index of each block of the chain is its
position, and all blocks but the genesis block are consistent. -/
theorem blocks_stay_consistent (env : Env) (registry : StudentRegistry) (model : LedgerModel)
    (difficulty : Int32) (session : Session)
    (started : startFresh env registry model difficulty = some session)
    (commands : List Command) (untampered : ∀ command ∈ commands, ∀ i, command ≠ .tamper i) :
    let after := Runs.final (sessionStep env registry) session commands
    (∀ (i : Nat) (block : Block), after.chain.blocks[i]? = some block → block.index.toInt = i) ∧
      ∀ block ∈ after.chain.blocks.tail ++ after.pool.blocks, Consistent env registry block := by
  obtain ⟨⟨genesis, isGenesis, chain⟩, pool, _⟩ := startFresh_some started
  have initial : WellFormed env registry session.chain session.pool := by
    refine ⟨by simp [chain], fun i block there => ?_, by simp [chain], by simp [pool]⟩
    rw [chain, List.getElem?_singleton] at there
    split at there
    next first =>
      cases there
      rw [isGenesis.index, first]
      rfl
    next => cases there
  have admitted : Runs.Guarded (sessionStep env registry)
      (fun _ command => ∀ i, command ≠ .tamper i) session commands :=
    Runs.guarded_of_forall_mem _ (fun command member _ => untampered command member) session
  have wellFormed := Runs.guarded_invariant (sessionStep env registry)
    (fun session => WellFormed env registry session.chain session.pool)
    (fun session command held ok => wellFormed_step command ok held) initial admitted
  constructor
  · intro i block there
    have inside := (List.getElem?_eq_some_iff.mp there).1
    have fits := (Runs.final (sessionStep env registry) session commands).chain.fits
    -- no chain is long enough for an index to wrap around
    have bound : maxBlocks < 2 ^ 31 := by decide
    rw [wellFormed.indexed i block there]
    exact Int32.toInt_ofNat_of_lt (by omega)
  · rw [List.forall_mem_append]
    exact ⟨wellFormed.confirmed, wellFormed.pending⟩

theorem blocks_stay_consistent_sample :
    let commands := [.mark "ALU001".toList "PRESENT".toList, .mark "ALU002".toList "LATE".toList,
      .minePool 2, .difficulty 7, .mark "ALU001".toList "ABSENT".toList, .model "account".toList]
    let after := Runs.final (sessionStep Sample.env Sample.registry) (Sample.start .utxo) commands
    (∀ (i : Nat) (block : Block), after.chain.blocks[i]? = some block → block.index.toInt = i) ∧
      ∀ block ∈ after.chain.blocks.tail ++ after.pool.blocks,
        Consistent Sample.env Sample.registry block :=
  blocks_stay_consistent Sample.env Sample.registry .utxo 1 (Sample.start .utxo)
    (Sample.startFresh_eq .utxo) _ (by simp)

end Attendance
