import Attendance.Session

/-!
# The chain file

`blockchain_load`, and the start of the program: load the chain, or fall back to a new
genesis block when there is no file or the file cannot be read.
-/
namespace Attendance

open Images

/-- What `fread` makes of the bytes of a `Block`. -/
structure BlockLayout where
  /-- `sizeof(Block)`. -/
  size : Nat
  read : List UInt8 → Block

/-- The image of the block has the size of all blocks, and reading it gives the block back. -/
structure BlockLayout.RoundTrips (layout : BlockLayout) (env : Env) (block : Block) : Prop where
  sized : (env.blockBytes block).length = layout.size
  inverse : layout.read (env.blockBytes block) = block

theorem length_readMany_le {size : Nat} {read : List UInt8 → Block} {count : Nat}
    {bytes : List UInt8} (limits : ¬(count = 0 ∨ maxBlocks < count)) :
    (readMany size read count bytes).length ≤ maxBlocks := by
  rw [length_readMany]
  exact Nat.not_lt.mp (not_or.mp limits).2

/-- `blockchain_load` from `CHAIN_FILE`. What follows the last block is not looked at. -/
def blockchainLoad (layout : BlockLayout) (world : World) : Option Blockchain :=
  match world.chainFile with
  | none => none
  | some bytes =>
    if bytes.length < 8 then none
    else
      let count := ofLittleEndian (bytes.take 8)
      if limits : count = 0 ∨ maxBlocks < count then none
      else if (bytes.drop 8).length < count * layout.size then none
      else
        some ⟨readMany layout.size layout.read count (bytes.drop 8), length_readMany_le limits⟩

/-- The chain `main` starts with; `none` is an exit. -/
def startChain (env : Env) (layout : BlockLayout) (world : World) : World × Option Blockchain :=
  match blockchainLoad layout world with
  | some chain => (world, some chain)
  | none => freshChain env world

/-- The start of `main`, once the arguments are parsed and the registry is loaded. -/
def startUp (env : Env) (layout : BlockLayout) (registry : StudentRegistry) (model : LedgerModel)
    (difficulty : Int32) (world : World) : Option Session :=
  (startSession registry model difficulty (startChain env layout world)).2

/-- Without a chain file the program starts with a new genesis block. -/
theorem startUp_fresh (env : Env) (layout : BlockLayout) (registry : StudentRegistry)
    (model : LedgerModel) (difficulty : Int32) :
    startUp env layout registry model difficulty ⟨0, none⟩ =
      startFresh env registry model difficulty := rfl

theorem difficulty_startUp {env : Env} {layout : BlockLayout} {registry : StudentRegistry}
    {model : LedgerModel} {difficulty : Int32} {world : World} {session : Session}
    (started : startUp env layout registry model difficulty world = some session) :
    session.difficulty = difficulty := difficulty_startSession started

/-- A new chain is one block, which shows the time of the start. -/
theorem freshChain_some {env : Env} {world : World} {chain : Blockchain}
    (started : (freshChain env world).2 = some chain) :
    ∃ genesis, chain.blocks = [genesis] ∧ genesis.timestamp = env.time world.calls := by
  obtain ⟨_, genesis, created, blocks, _⟩ := freshChain_cases (Prod.ext rfl started)
  exact ⟨genesis, blocks, timestamp_createGenesisBlock created⟩

/-! ### What is in the file -/

section Saved

variable {env : Env} {layout : BlockLayout} {chain : Blockchain}
  (roundTrips : ∀ block ∈ chain.blocks, layout.RoundTrips env block)

include roundTrips

theorem length_chainFileBytes :
    (chainFileBytes env chain).length = 8 + chain.blocks.length * layout.size := by
  rw [chainFileBytes, List.length_append, length_littleEndian,
    length_flatMap_image (fun block member => (roundTrips block member).sized)]

/-- A file that starts with the saved form of a chain is loaded as that chain. -/
theorem load_chainFileBytes (nonempty : chain.blocks ≠ []) {world : World} (rest : List UInt8)
    (file : world.chainFile = some (chainFileBytes env chain ++ rest)) :
    blockchainLoad layout world = some chain := by
  have length := length_chainFileBytes roundTrips
  have positive : chain.blocks.length ≠ 0 := by simpa using nonempty
  have count : ofLittleEndian ((chainFileBytes env chain ++ rest).take 8) =
      chain.blocks.length := by
    have fits : chain.blocks.length < 256 ^ 8 := Nat.lt_of_le_of_lt chain.fits (by decide)
    rw [chainFileBytes, List.append_assoc, List.take_left' (length_littleEndian 8 _),
      ofLittleEndian_littleEndian fits]
  have blocks : (chainFileBytes env chain ++ rest).drop 8 =
      chain.blocks.flatMap env.blockBytes ++ rest := by
    rw [chainFileBytes, List.append_assoc, List.drop_left' (length_littleEndian 8 _)]
  have limits := chain.fits
  have sized := fun block member => (roundTrips block member).sized
  rw [blockchainLoad, file]
  simp only [count, blocks]
  rw [if_neg, dif_neg, if_neg]
  · simp only [readMany_flatMap sized (fun block member => (roundTrips block member).inverse)]
  · rw [List.length_append, length_flatMap_image sized]
    omega
  · omega
  · rw [List.length_append]
    omega

/-- A file cut anywhere before the end of the saved form is not loaded. -/
theorem load_cut {world : World} {count : Nat} (short : count < (chainFileBytes env chain).length)
    (file : world.chainFile = some ((chainFileBytes env chain).take count)) :
    blockchainLoad layout world = none := by
  have length := length_chainFileBytes roundTrips
  have cut : ((chainFileBytes env chain).take count).length = count := by
    rw [List.length_take]
    omega
  rw [blockchainLoad, file]
  simp only [cut]
  by_cases header : count < 8
  · rw [if_pos header]
  · have whole : ofLittleEndian (((chainFileBytes env chain).take count).take 8) =
        chain.blocks.length := by
      have fits : chain.blocks.length < 256 ^ 8 := Nat.lt_of_le_of_lt chain.fits (by decide)
      rw [List.take_take, Nat.min_eq_left (Nat.not_lt.mp header), chainFileBytes,
        List.take_left' (length_littleEndian 8 _), ofLittleEndian_littleEndian fits]
    rw [if_neg header]
    simp only [whole]
    split
    · rfl
    -- the count promises more blocks than are left
    · rw [if_pos]
      rw [List.length_drop, cut]
      omega

end Saved

end Attendance
