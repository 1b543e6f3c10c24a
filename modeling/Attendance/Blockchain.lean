import Attendance.Foundation.HashChain
import Attendance.Foundation.Images
import Attendance.ProofOfWork

/-!
# The confirmed chain

`blockchain.c`: the genesis block, the chain file, appending, validation and the
tamper demonstration.
-/
namespace Attendance

open CText

/-- A block cleared by `memset`, with the fields `init_block_fields` sets. -/
def initBlockFields (index : Int32) (timestamp : Int64) (previousHash : List Char) : Block where
  index := index
  timestamp := timestamp
  studentId := .empty
  fullName := .empty
  courseCode := .empty
  status := .empty
  tokenReward := 0
  transactionId := .empty
  nonce := 0
  previousHash := .strncpy previousHash
  signature := .store [] (by simp)
  hash := .empty

def finalizeGenesisBlock (env : Env) (world : World) (block : Block) : World × Option Block :=
  match signBlock env world block with
  | (world, none) => (world, none)
  | (world, some block) =>
    match computeBlockHash env block with
    | none => (world, none)
    | some hash => (world, some { block with hash })

/-- The block `create_genesis_block` fills in. -/
def genesisFields (timestamp : Int64) : Block :=
  { initBlockFields 0 timestamp genesisPrevHash.text with
    studentId := .strncpy "GENESIS".toList
    fullName := .strncpy "Genesis Block".toList
    courseCode := .strncpy "SYSTEM".toList
    status := .strncpy "PRESENT".toList }

def createGenesisBlock (env : Env) (world : World) : World × Option Block :=
  finalizeGenesisBlock env world.next (genesisFields (env.time world.calls))

def blockchainInit (env : Env) (world : World) : World × Option Blockchain :=
  match createGenesisBlock env world with
  | (world, none) => (world, none)
  | (world, some genesis) => (world, some ⟨[genesis], by simp [maxBlocks]⟩)

/-- The block as it leaves mining: its own hash, over a signature of its own payload. -/
structure Sealed (env : Env) (block : Block) : Prop where
  hash : block.hash = blockHash env block
  signed : Signed env block

/-- What a genesis block is. -/
structure IsGenesis (env : Env) (block : Block) : Prop where
  index : block.index = 0
  previousHash : block.previousHash = genesisPrevHash
  isSealed : Sealed env block

/-- The genesis block is its filled in fields, signed and then hashed. -/
private theorem createGenesisBlock_cases {env : Env} {world world' : World} {genesis : Block}
    (returned : createGenesisBlock env world = (world', some genesis)) :
    ∃ signed,
      (signBlock env world.next (genesisFields (env.time world.calls))).2 = some signed ∧
        genesis = { signed with hash := blockHash env signed } := by
  unfold createGenesisBlock finalizeGenesisBlock at returned
  cases signing : signBlock env world.next (genesisFields (env.time world.calls)) with
  | mk signedWorld result =>
    rw [signing] at returned
    cases result with
    | none => cases returned
    | some signed =>
      simp only [computeBlockHash_eq, Prod.mk.injEq, Option.some.injEq] at returned
      exact ⟨signed, rfl, returned.2.symm⟩

theorem createGenesisBlock_some {env : Env} {world world' : World} {genesis : Block}
    (returned : createGenesisBlock env world = (world', some genesis)) :
    IsGenesis env genesis := by
  obtain ⟨signed, made, rfl⟩ := createGenesisBlock_cases returned
  have shape := signBlock_some made
  refine ⟨?_, ?_, rfl, _, _, signed, made, rfl, ?_⟩
  · rw [shape]
    rfl
  · rw [shape]
    simp [genesisFields, initBlockFields]
  · rw [shape]
    rfl

theorem timestamp_createGenesisBlock {env : Env} {world world' : World} {genesis : Block}
    (returned : createGenesisBlock env world = (world', some genesis)) :
    genesis.timestamp = env.time world.calls := by
  obtain ⟨signed, made, rfl⟩ := createGenesisBlock_cases returned
  rw [signBlock_some made]
  rfl

theorem tokenReward_createGenesisBlock {env : Env} {world world' : World} {genesis : Block}
    (returned : createGenesisBlock env world = (world', some genesis)) :
    genesis.tokenReward = 0 := by
  obtain ⟨signed, made, rfl⟩ := createGenesisBlock_cases returned
  rw [signBlock_some made]
  rfl

/-- The length as a `size_t`, and the blocks. -/
def chainFileBytes (env : Env) (chain : Blockchain) : List UInt8 :=
  Images.littleEndian 8 chain.blocks.length ++ chain.blocks.flatMap env.blockBytes

/-- `blockchain_save` to `CHAIN_FILE`. Opening the file empties it. -/
def blockchainSave (env : Env) (world : World) (chain : Blockchain) : World × Bool :=
  if chain.blocks.length = 0 then (world, false)
  else
    match env.write world.calls with
    | .complete => ({ world.next with chainFile := some (chainFileBytes env chain) }, true)
    | .notOpened => (world.next, false)
    | .cutAfter count =>
      ({ world.next with chainFile := some ((chainFileBytes env chain).take count) }, false)

def blockchainTip (chain : Blockchain) : Option Block := chain.blocks.getLast?

def blockchainAppendMinedBlock (env : Env) (world : World) (chain : Blockchain) (block : Block) :
    Outcome (World × Blockchain) :=
  if room : chain.blocks.length < maxBlocks then
    let longer : Blockchain := ⟨chain.blocks ++ [block], by simpa [Nat.succ_le_iff] using room⟩
    -- a failed save takes the length back, but the file may already have been emptied
    match blockchainSave env world longer with
    | (world, true) => ⟨true, (world, longer), false⟩
    | (world, false) => ⟨false, (world, chain), false⟩
  else ⟨false, (world, chain), false⟩

def CanAppend (env : Env) (world : World) (chain : Blockchain) : Prop :=
  chain.blocks.length < maxBlocks ∧ env.write world.calls = .complete

/-- An append puts the block at the end, or leaves the chain in memory as it was. -/
theorem blockchainAppendMinedBlock_cases (env : Env) (world : World) (chain : Blockchain)
    (block : Block) :
    (CanAppend env world chain ∧ ∃ world' longer, longer.blocks = chain.blocks ++ [block] ∧
      blockchainAppendMinedBlock env world chain block = ⟨true, (world', longer), false⟩) ∨
    (¬CanAppend env world chain ∧ ∃ world',
      blockchainAppendMinedBlock env world chain block = ⟨false, (world', chain), false⟩) := by
  unfold blockchainAppendMinedBlock CanAppend blockchainSave
  by_cases room : chain.blocks.length < maxBlocks
  · cases written : env.write world.calls <;> simp [room]
  · simp [room]

/-- The loop of `blockchain_validate`; `previous` is `NULL` for the first block only. -/
def validateBlocks (env : Env) (difficulty : Int32) (previous : Option Block) :
    List Block → Bool
  | [] => true
  | block :: rest =>
    match computeBlockHash env block with
    | none => false
    | some expectedHash =>
      if expectedHash ≠ block.hash then false
      -- the genesis block is exempt from the target
      else if previous.isSome && !hashMeetsDifficulty block.hash difficulty then false
      else if block.previousHash ≠ (previous.map Block.hash).getD genesisPrevHash then false
      else if !verifyBlockSignature env block then false
      else validateBlocks env difficulty (some block) rest

def blockchainValidate (env : Env) (chain : Blockchain) (difficulty : Int32) : Bool :=
  if chain.blocks.length = 0 then false else validateBlocks env difficulty none chain.blocks

/-- A block passes the checks that do not look at its neighbours. -/
def Authentic (env : Env) (block : Block) : Prop :=
  block.hash = blockHash env block ∧ verifyBlockSignature env block = true

theorem validateBlocks_iff (env : Env) (difficulty : Int32) (previous : Option Block)
    (blocks : List Block) :
    validateBlocks env difficulty previous blocks = true ↔
      HashChain.Linked Block.hash Block.previousHash
        ((previous.map Block.hash).getD genesisPrevHash) blocks ∧
      (∀ block ∈ blocks, Authentic env block) ∧
      ∀ block ∈ (if previous.isSome then blocks else blocks.tail),
        hashMeetsDifficulty block.hash difficulty = true := by
  induction blocks generalizing previous with
  | nil => cases previous <;> simp [validateBlocks, HashChain.Linked]
  | cons block rest ih =>
    simp only [validateBlocks, computeBlockHash_eq]
    by_cases hashed : blockHash env block = block.hash
    · cases previous with
      | none => simp [ih, Authentic, HashChain.Linked, hashed]; grind
      | some previous => simp [ih, Authentic, HashChain.Linked, hashed]; grind
    · simp [Authentic, hashed, Ne.symm hashed]

/-- What validation checks: the links, each block by itself, and the target of every
block but the first. -/
theorem blockchainValidate_iff (env : Env) (chain : Blockchain) (difficulty : Int32) :
    blockchainValidate env chain difficulty = true ↔
      chain.blocks ≠ [] ∧
      HashChain.Linked Block.hash Block.previousHash genesisPrevHash chain.blocks ∧
      (∀ block ∈ chain.blocks, Authentic env block) ∧
      ∀ block ∈ chain.blocks.tail, hashMeetsDifficulty block.hash difficulty = true := by
  by_cases empty : chain.blocks = []
  · simp [blockchainValidate, empty]
  · simp [blockchainValidate, empty, validateBlocks_iff]

/-- The status the tamper demonstration writes over another one. -/
def tamperedStatus (status : CStr statusLen) : CStr statusLen :=
  if status.text = "ABSENT".toList then .strncpy "PRESENT".toList else .strncpy "ABSENT".toList

def tamperBlock (block : Block) : Block := { block with status := tamperedStatus block.status }

def blockchainTamperDemo (env : Env) (world : World) (chain : Blockchain) (blockIndex : Int32) :
    Outcome (World × Blockchain) :=
  if blockIndex < 0 ∨ chain.blocks.length ≤ blockIndex.toInt.toNat then
    ⟨false, (world, chain), false⟩
  else if blockIndex = 0 then ⟨false, (world, chain), false⟩
  else
    -- neither the hash nor the signature is touched
    let tampered : Blockchain :=
      ⟨chain.blocks.modify blockIndex.toInt.toNat tamperBlock, by simpa using chain.fits⟩
    -- a failed save does not take the new status back
    match blockchainSave env world tampered with
    | (world, saved) => ⟨saved, (world, tampered), false⟩

/-- The demonstration rewrites the status of one block, or does nothing. -/
theorem blockchainTamperDemo_cases (env : Env) (world : World) (chain : Blockchain)
    (blockIndex : Int32) :
    (blockchainTamperDemo env world chain blockIndex).state.2 = chain ∨
    ∃ i, (blockchainTamperDemo env world chain blockIndex).state.2.blocks =
      chain.blocks.modify i tamperBlock := by
  unfold blockchainTamperDemo
  split
  · exact Or.inl rfl
  · split
    · exact Or.inl rfl
    · exact Or.inr ⟨_, rfl⟩

end Attendance
