import Attendance.Lines
import Attendance.Validation

/-!
# The chain and its file

As long as no write is cut short, the chain file holds the chain that is in memory, whatever
is marked, mined and transferred: an append that is not written is taken back.
-/
namespace Attendance

open CText Calls

/-- No write leaves a part of what it should have written. -/
def NeverCut (env : Env) : Prop := ∀ call count, env.write call ≠ .cutAfter count

/-- The file holds the chain. -/
structure SavedChain (env : Env) (world : World) (chain : Blockchain) : Prop where
  nonempty : chain.blocks ≠ []
  file : world.chainFile = some (chainFileBytes env chain)

variable {env : Env}

theorem SavedChain.of_chainFile {world world' : World} {chain : Blockchain}
    (saved : SavedChain env world chain) (same : world'.chainFile = world.chainFile) :
    SavedChain env world' chain :=
  ⟨saved.nonempty, same.trans saved.file⟩

/-- Time passes, and afterwards the file holds the chain, or neither has been touched. -/
structure Persists (env : Env) (world : World) (chain : Blockchain) (world' : World)
    (chain' : Blockchain) : Prop where
  later : world.calls ≤ world'.calls
  file : SavedChain env world' chain' ∨ (world'.chainFile = world.chainFile ∧ chain' = chain)

theorem Persists.of_chainFile {world world' : World} {chain : Blockchain}
    (later : world.calls ≤ world'.calls) (same : world'.chainFile = world.chainFile) :
    Persists env world chain world' chain :=
  ⟨later, Or.inr ⟨same, rfl⟩⟩

theorem Persists.refl (world : World) (chain : Blockchain) :
    Persists env world chain world chain := .of_chainFile (Nat.le_refl _) rfl

theorem Persists.next (world : World) (chain : Blockchain) :
    Persists env world chain world.next chain := .of_chainFile (Nat.le_succ _) rfl

theorem Persists.saved {world world' : World} {chain chain' : Blockchain}
    (persists : Persists env world chain world' chain') (saved : SavedChain env world chain) :
    SavedChain env world' chain' := by
  rcases persists.file with saved' | ⟨same, rfl⟩
  · exact saved'
  · exact saved.of_chainFile same

theorem Persists.trans {world world' world'' : World} {chain chain' chain'' : Blockchain}
    (first : Persists env world chain world' chain')
    (second : Persists env world' chain' world'' chain'') :
    Persists env world chain world'' chain'' := by
  refine ⟨Nat.le_trans first.later second.later, ?_⟩
  rcases first.file with saved | ⟨same, rfl⟩
  · exact Or.inl (second.saved saved)
  · rcases second.file with saved | ⟨same', kept⟩
    · exact Or.inl saved
    · exact Or.inr ⟨same'.trans same, kept⟩

/-- An append is written, or not made. -/
theorem persists_append (neverCut : NeverCut env) (world : World) (chain : Blockchain)
    (block : Block) :
    Persists env world chain (blockchainAppendMinedBlock env world chain block).state.1
      (blockchainAppendMinedBlock env world chain block).state.2 := by
  unfold blockchainAppendMinedBlock blockchainSave
  by_cases room : chain.blocks.length < maxBlocks
  · cases written : env.write world.calls with
    | complete =>
      simp only [room, dif_pos, List.length_append, List.length_singleton, Nat.succ_ne_zero,
        if_false]
      exact ⟨Nat.le_succ _, Or.inl
        ⟨List.append_ne_nil_of_right_ne_nil _ (List.cons_ne_nil _ _), rfl⟩⟩
    -- the block is taken off the chain again
    | notOpened =>
      simp only [room, dif_pos, List.length_append, List.length_singleton, Nat.succ_ne_zero,
        if_false]
      exact .next world chain
    | cutAfter count => exact absurd written (neverCut world.calls count)
  · simp only [dif_neg room]
    exact .refl world chain

/-- A round writes the chain it leaves, or nothing. -/
theorem persists_confirmRound (neverCut : NeverCut env) (difficulty : Int32)
    (settle : Ledger → Block → Outcome Ledger) (st : MineState) :
    Persists env st.world st.chain (confirmRound env difficulty settle st).state.world
      (confirmRound env difficulty settle st).state.chain := by
  have front : Persists env st.world st.chain (mineFront env difficulty st).1.world
      (mineFront env difficulty st).1.chain := by
    unfold mineFront prepareBlockForMining
    split
    next => exact .refl _ _
    next block pool _ =>
      -- only the append writes; signing is a call before it
      have world := signBlock_world env st.world (linkBlock block st.chain)
      cases signed : signBlock env st.world (linkBlock block st.chain) with
      | mk signedWorld result =>
        rw [signed] at world
        obtain rfl : signedWorld = st.world.next := world
        cases result with
        | none => exact .next _ _
        | some prepared =>
          simp only
          split
          next => exact .next _ _
          next mined _ _ =>
            have appended := (Persists.next st.world st.chain).trans
              (persists_append neverCut st.world.next st.chain mined)
            split
            next result => simpa only [result] using appended
            next result => simpa only [result] using appended
  unfold Attendance.confirmRound
  split
  next result => simpa only [result] using front
  next result => simpa only [result] using front

/-- So does a mining call. -/
theorem persists_mine (neverCut : NeverCut env) (st : MineState) (difficulty : Int32)
    (call : MiningCall) :
    Persists env st.world st.chain (mine env st difficulty call).state.world
      (mine env st difficulty call).state.chain := by
  have started : Persists env st.world st.chain (call.start env st).state.world
      (call.start env st).state.chain := by
    cases call with
    | solo | cloud => exact .refl _ _
    -- the calls of `time` and `rand`
    | pool minerCount =>
      refine .of_chainFile ?_ rfl
      simp only [MiningCall.start, payPool]
      omega
  have looped : Persists env st.world st.chain (call.loop env st difficulty).state.world
      (call.loop env st difficulty).state.chain :=
    repeatFor_keeps (call.round env difficulty)
      (fun after => Persists env st.world st.chain after.world after.chain)
      (fun after _ held => held.trans
        (persists_confirmRound neverCut difficulty (call.settle env) after))
      (eachRound_of_forall (fun _ => trivial) _ _) started
  rw [mine_eq]
  split
  · exact .refl _ _
  · simp only
    split <;> exact looped

/-! ### The start of the program -/

/-- One call to the clock, and one to sign. -/
theorem createGenesisBlock_world (env : Env) (world : World) :
    (createGenesisBlock env world).1 = world.next.next := by
  unfold createGenesisBlock finalizeGenesisBlock
  have next := signBlock_world env world.next (genesisFields (env.time world.calls))
  split
  next signed => rwa [signed] at next
  next signed =>
    rw [signed] at next
    split <;> exact next

/-- A chain to start with was loaded, or is a new one that has been saved. -/
theorem startChain_some {layout : BlockLayout} {world world' : World} {chain : Blockchain}
    (started : startChain env layout world = (world', some chain)) :
    (world' = world ∧ blockchainLoad layout world = some chain) ∨
    (blockchainLoad layout world = none ∧ world.calls < world'.calls ∧
      SavedChain env world' chain ∧ ∃ genesis, IsGenesis env genesis ∧ chain.blocks = [genesis] ∧
        genesis.timestamp = env.time world.calls) := by
  unfold startChain at started
  cases loads : blockchainLoad layout world with
  | some loaded =>
    rw [loads] at started
    cases started
    exact Or.inl ⟨rfl, rfl⟩
  | none =>
    rw [loads] at started
    obtain ⟨signedWorld, genesis, created, blocks, saved⟩ := freshChain_cases started
    have two := createGenesisBlock_world env world
    rw [created] at two
    obtain rfl : signedWorld = world.next.next := two
    have nonempty : chain.blocks ≠ [] := by simp [blocks]
    rw [blockchainSave, if_neg (by simpa using nonempty)] at saved
    split at saved
    next written =>
      cases saved
      refine Or.inr ⟨rfl, ?_, ⟨nonempty, rfl⟩, genesis, createGenesisBlock_some created, blocks,
        timestamp_createGenesisBlock created⟩
      simp only [World.next]
      omega
    -- a genesis block that is not saved ends the program
    next => cases saved
    next => cases saved

/-- A start that fails takes its time as well, and leaves the file as it was. -/
theorem startChain_none (neverCut : NeverCut env) {layout : BlockLayout} {world world' : World}
    (failed : startChain env layout world = (world', none)) :
    world.calls ≤ world'.calls ∧ world'.chainFile = world.chainFile := by
  have two := createGenesisBlock_world env world
  unfold startChain at failed
  cases loads : blockchainLoad layout world with
  -- with a chain that loads the start does not fail
  | some loaded => simp [loads] at failed
  | none =>
    simp only [loads, freshChain, blockchainInit] at failed
    cases made : createGenesisBlock env world with
    | mk signedWorld result =>
      rw [made] at two
      obtain rfl : signedWorld = world.next.next := two
      have passes : world.calls ≤ world.next.next.calls := by
        simp only [World.next]
        omega
      cases result with
      | none =>
        simp only [made] at failed
        cases failed
        exact ⟨passes, rfl⟩
      | some genesis =>
        simp only [made, blockchainSave, List.length_singleton, one_ne_zero, if_false] at failed
        cases written : env.write world.next.next.calls with
        | complete => simp [written] at failed
        | notOpened =>
          rw [written] at failed
          cases failed
          exact ⟨Nat.le_succ_of_le passes, rfl⟩
        -- what is left is a save that was cut
        | cutAfter count => exact absurd written (neverCut world.next.next.calls count)

/-! ### Commands -/

private theorem world_signPendingBlock (world : World) (block : Block) :
    (signPendingBlock env world block).1 = world.next := by
  have next := signBlock_world env world block
  unfold signPendingBlock
  split
  next result => rwa [result] at next
  next result => rwa [result] at next

private theorem persists_finalizePendingBlock (env : Env) (world : World) (chain : Blockchain)
    (block : Block) : Persists env world chain (finalizePendingBlock env world block).1 chain := by
  unfold finalizePendingBlock
  extract_lets attached
  clear_value attached
  cases attached with
  | none => exact .refl world chain
  | some attached =>
    simp only [world_signPendingBlock]
    exact .next world chain

private theorem persists_markAttendance (env : Env) (world : World) (pool : PendingPool)
    (chain : Blockchain) (registry : StudentRegistry) (studentId status : List Char) :
    Persists env world chain
      (markAttendance env world pool chain registry studentId status).state.1 chain := by
  unfold markAttendance
  split
  · exact .refl world chain
  split
  · exact .refl world chain
  next student _ =>
    split
    · exact .refl world chain
    · simp only
      have finalized := (Persists.next world chain).trans (persists_finalizePendingBlock env
        world.next chain
        (pendingBlock chain pool.blocks.length (env.time world.calls) student status))
      split
      next result => rwa [result] at finalized
      next result => rwa [result] at finalized

/-- The tamper demonstration keeps the new status also where it cannot write it. -/
private theorem persists_tamper (neverCut : NeverCut env) (world : World) (chain : Blockchain)
    (blockIndex : Int32) (opened : env.write world.calls ≠ .notOpened) :
    Persists env world chain (blockchainTamperDemo env world chain blockIndex).state.1
      (blockchainTamperDemo env world chain blockIndex).state.2 := by
  unfold blockchainTamperDemo
  split
  · exact .refl world chain
  next inside =>
    have length : chain.blocks.length ≠ 0 := by omega
    split
    · exact .refl world chain
    · cases written : env.write world.calls with
      | complete =>
        simp only [blockchainSave, List.length_modify, if_neg length, written]
        refine ⟨Nat.le_succ _, Or.inl ⟨?_, rfl⟩⟩
        rw [← List.length_pos_iff, List.length_modify]
        exact Nat.pos_of_ne_zero length
      | notOpened => exact absurd written opened
      | cutAfter count => exact absurd written (neverCut world.calls count)

theorem persists_sessionStep (neverCut : NeverCut env) (registry : StudentRegistry)
    (session : Session) (command : Command)
    (opened : ∀ i, command = .tamper i → env.write session.world.calls ≠ .notOpened) :
    Persists env session.world session.chain (sessionStep env registry session command).world
      (sessionStep env registry session command).chain := by
  cases mining : command.miningCall with
  | some call =>
    rw [sessionStep_of_miningCall env registry session mining]
    exact persists_mine neverCut session.toMineState session.difficulty call
  | none =>
    cases command with
    | mineSolo | minePool | mineCloud => cases mining
    | mark studentId status => exact persists_markAttendance ..
    | transfer sender recipient amount =>
      simp only [sessionStep, execute]
      split <;> exact .refl _ _
    | transferNonce | model | difficulty => exact .refl _ _
    | tamper i => exact persists_tamper neverCut session.world session.chain i (opened i rfl)

/-! ### Chains that are only mined -/

/-- Every block has its position as its index, names the block before and is sealed, and every
block but the first has met a target. -/
structure SoundChain (env : Env) (chain : Blockchain) : Prop where
  nonempty : chain.blocks ≠ []
  linked : LinkedChain chain.blocks
  isSealed : ∀ block ∈ chain.blocks, Sealed env block
  meets : ∀ block ∈ chain.blocks.tail, hashMeetsDifficulty block.hash minDifficulty = true
  indexed : Indexed chain.blocks

theorem soundChain_genesis {genesis : Block} (isGenesis : IsGenesis env genesis)
    {chain : Blockchain} (blocks : chain.blocks = [genesis]) : SoundChain env chain := by
  constructor
  case nonempty => simp [blocks]
  case linked => exact blocks ▸ ⟨isGenesis.previousHash, trivial⟩
  case isSealed => simpa [blocks] using isGenesis.isSealed
  case meets => simp [blocks]
  case indexed => exact blocks ▸ indexed_singleton isGenesis.index

/-- Only a signature can make a sound chain fail validation at the lowest difficulty. -/
theorem SoundChain.validates_iff {chain : Blockchain} (sound : SoundChain env chain) :
    blockchainValidate env chain minDifficulty = true ↔
      ∀ block ∈ chain.blocks, verifyBlockSignature env block = true := by
  rw [blockchainValidate_iff]
  constructor
  · rintro ⟨_, _, authentic, _⟩ block member
    exact (authentic block member).2
  · intro verifies
    exact ⟨sound.nonempty, sound.linked, fun block member =>
      ⟨(sound.isSealed block member).hash, verifies block member⟩, sound.meets⟩

private theorem SoundChain.concat {st : MineState} (sound : SoundChain env st.chain)
    {difficulty : Int32} (inRange : DifficultyInRange difficulty) {front mined : Block}
    (mining : MinedFrom env difficulty st front mined) {chain : Blockchain}
    (appended : chain.blocks = st.chain.blocks ++ [mined]) : SoundChain env chain := by
  constructor
  case nonempty => simp [appended]
  case linked =>
    rw [LinkedChain, appended]
    exact (HashChain.linked_concat _ _ _ _ _).mpr ⟨sound.linked, mining.previousHash⟩
  case isSealed =>
    rw [appended, List.forall_mem_append]
    exact ⟨sound.isSealed, by simpa using mining.isSealed⟩
  case meets =>
    have least := hashMeetsDifficulty_mono (Int32.le_refl 1) inRange.1 mining.meets
    rw [appended, List.tail_append_of_ne_nil sound.nonempty, List.forall_mem_append]
    exact ⟨sound.meets, by simpa using least⟩
  case indexed => exact appended ▸ sound.indexed.concat sound.nonempty mining

/-- Without tampering a sound chain stays sound, and only grows. -/
theorem SoundChain.sessionStep {registry : StudentRegistry} {session : Session}
    (sound : SoundChain env session.chain) {command : Command}
    (untampered : ∀ i, command ≠ .tamper i) :
    SoundChain env (sessionStep env registry session command).chain ∧
      session.chain.blocks <+: (Attendance.sessionStep env registry session command).chain.blocks := by
  cases mining : command.miningCall with
  | some call =>
    rw [sessionStep_of_miningCall env registry session mining]
    refine mine_rel call (fun before _ after _ => SoundChain env before → SoundChain env after ∧
      before.blocks <+: after.blocks) (fun _ _ held => ⟨held, List.prefix_refl _⟩) ?_ ?_
      session.toMineState sound
    · intro _ _ _ _ _ _ first second held
      obtain ⟨held', start⟩ := first held
      obtain ⟨held'', start'⟩ := second held'
      exact ⟨held'', start.trans start'⟩
    · intro st held
      have step := call.roundStep env session.difficulty st
      generalize call.round env session.difficulty st = result at step ⊢
      cases step with
      | idle | lost => exact ⟨held, List.prefix_refl _⟩
      | confirmed _ confirmable mining appended =>
        exact ⟨held.concat confirmable.inRange mining appended, appended ▸ List.prefix_append _ _⟩
  | none =>
    rw [chain_sessionStep_of_other env registry session mining untampered]
    exact ⟨sound, List.prefix_refl _⟩

end Attendance
