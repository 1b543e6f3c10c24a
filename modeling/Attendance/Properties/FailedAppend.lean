import Attendance.Sample

/-!
# What a failed append leaves behind

`blockchain_append_mined_block` takes the new length back when the save fails. The save
has emptied the file by then: opening it for writing truncates it, and nothing restores
what it held. The next start finds the longer chain, or no chain at all and begins a new
one.
-/
namespace Attendance

/-- The same machine at another time. -/
def Env.atTime (env : Env) (clock : Nat → Int64) : Env := { env with time := clock }

/-- After the append the chain in memory is the old one, and so is the chain of a later
start, whatever the clock shows by then. -/
def ChainKept (env : Env) (layout : BlockLayout) (world : World) (chain : Blockchain)
    (block : Block) : Prop :=
  (blockchainAppendMinedBlock env world chain block).state.2 = chain ∧
    ∀ (clock : Nat → Int64) (later : World),
      later.chainFile = (blockchainAppendMinedBlock env world chain block).state.1.chainFile →
        (startChain (env.atTime clock) layout later).2 = some chain

/-- The file is not opened: there is no room for another block, or `fopen` fails. -/
def NotOpened (env : Env) (world : World) (chain : Blockchain) : Prop :=
  chain.blocks.length = maxBlocks ∨ env.write world.calls = .notOpened

/-- What a failed append does: it leaves the file alone, or leaves a part of the longer
chain in it. -/
private theorem failed_append_cases {env : Env} {world : World} {chain : Blockchain}
    {block : Block} (failed : (blockchainAppendMinedBlock env world chain block).ok = false) :
    (NotOpened env world chain ∧
      (blockchainAppendMinedBlock env world chain block).state.1.chainFile = world.chainFile) ∨
    ∃ longer : Blockchain, longer.blocks = chain.blocks ++ [block] ∧
      ∃ count, ¬NotOpened env world chain ∧
        (blockchainAppendMinedBlock env world chain block).state.1.chainFile =
          some ((chainFileBytes env longer).take count) := by
  unfold blockchainAppendMinedBlock blockchainSave at failed ⊢
  unfold NotOpened
  by_cases room : chain.blocks.length < maxBlocks
  · have free : chain.blocks.length ≠ maxBlocks := Nat.ne_of_lt room
    cases written : env.write world.calls with
    | complete => simp [room, written] at failed
    | notOpened => simp [room, World.next]
    | cutAfter count =>
      right
      refine ⟨⟨chain.blocks ++ [block], by simpa [Nat.succ_le_iff] using room⟩, rfl, count, ?_⟩
      simp [room, free]
  · have full : chain.blocks.length = maxBlocks := Nat.le_antisymm chain.fits (Nat.not_lt.mp room)
    simp [full]

/-- A new genesis block is not the chain at every time. -/
private theorem exists_freshChain_ne (env : Env) (world : World) (chain : Blockchain) :
    ∃ clock, (freshChain (env.atTime clock) world).2 ≠ some chain := by
  cases first : chain.blocks.head? with
  | none =>
    refine ⟨env.time, ?_⟩
    intro started
    obtain ⟨genesis, blocks, _⟩ := freshChain_some started
    rw [blocks] at first
    cases first
  | some block =>
    refine ⟨fun _ => block.timestamp + 1, ?_⟩
    intro started
    obtain ⟨genesis, blocks, time⟩ := freshChain_some started
    rw [blocks] at first
    cases first
    have passed : block.timestamp = block.timestamp + 1 := time
    exact absurd passed.symm (by simp)

/-- When the file holds the chain and an append to it fails, the chain is kept exactly if the
file was not opened for writing. -/
theorem failed_append_keeps_chain_iff (env : Env) (layout : BlockLayout) (world : World)
    (chain : Blockchain) (block : Block) (nonempty : chain.blocks ≠ [])
    (saved : world.chainFile = some (chainFileBytes env chain))
    (roundTrips : ∀ other ∈ chain.blocks ++ [block], layout.RoundTrips env other)
    (failed : (blockchainAppendMinedBlock env world chain block).ok = false) :
    ChainKept env layout world chain block ↔ NotOpened env world chain := by
  have memory : (blockchainAppendMinedBlock env world chain block).state.2 = chain := by
    rcases blockchainAppendMinedBlock_cases env world chain block with
      ⟨_, _, _, _, result⟩ | ⟨_, _, result⟩
    · rw [result] at failed
      cases failed
    · rw [result]
  rw [ChainKept, and_iff_right memory]
  rcases failed_append_cases failed with ⟨unopened, same⟩ | ⟨longer, blocks, count, opened, cut⟩
  · rw [iff_true_right unopened]
    intro clock later left
    rw [List.forall_mem_append] at roundTrips
    have kept : blockchainLoad layout later = some chain := by
      apply load_chainFileBytes roundTrips.1 nonempty []
      rw [left, same, saved, List.append_nil]
    rw [startChain, kept]
  · rw [iff_false_right opened, cut]
    rw [← blocks] at roundTrips
    intro all
    let later : World := ⟨0, some ((chainFileBytes env longer).take count)⟩
    obtain ⟨clock, other⟩ := exists_freshChain_ne env later chain
    have started := all clock later rfl
    by_cases short : count < (chainFileBytes env longer).length
    -- the part that is there cannot be loaded, and the start makes a new chain
    · rw [startChain, load_cut roundTrips short rfl] at started
      exact other started
    -- all of it was written, and the start finds the block that was taken back
    · have whole : later.chainFile = some (chainFileBytes env longer ++ []) := by
        rw [List.append_nil]
        exact congrArg some (List.take_of_length_le (Nat.not_lt.mp short))
      have full : longer.blocks ≠ [] := by simp [blocks]
      rw [startChain, load_chainFileBytes roundTrips full [] whole] at started
      obtain rfl := Option.some.inj started
      have length := congrArg List.length blocks
      simp at length

open Sample

def keptChain : Blockchain := (start .account).chain

/-- A block to append. -/
def nextBlock : Block := sign (genesisFields 1700000099)

def savedWorld : World := ⟨7, some (chainFileBytes (diskEnv .complete) keptChain)⟩

theorem roundTrips_sample :
    ∀ block ∈ keptChain.blocks ++ [nextBlock], ∀ outcome,
      layout.RoundTrips (diskEnv outcome) block := by
  have readBack : ∀ block ∈ keptChain.blocks ++ [nextBlock],
      (blockBytes block).length = layout.size ∧ layout.read (blockBytes block) = block := by
    decide +kernel
  intro block member outcome
  exact ⟨(readBack block member).1, (readBack block member).2⟩

theorem failed_append_keeps_chain_iff_unopened :
    ChainKept (diskEnv .notOpened) layout savedWorld keptChain nextBlock ↔
      NotOpened (diskEnv .notOpened) savedWorld keptChain := by
  refine failed_append_keeps_chain_iff (diskEnv .notOpened) layout savedWorld keptChain nextBlock
    ?_ rfl ?_ ?_
  · decide +kernel
  · intro block member
    exact roundTrips_sample block member .notOpened
  · decide +kernel

/-- A write fails after 100 bytes: the length is taken back, and the next start begins a new
chain. -/
theorem cut_write_loses_chain :
    savedWorld.chainFile = some (chainFileBytes (diskEnv (.cutAfter 100)) keptChain) ∧
    (blockchainAppendMinedBlock (diskEnv (.cutAfter 100)) savedWorld keptChain nextBlock).ok =
      false ∧
    ¬ChainKept (diskEnv (.cutAfter 100)) layout savedWorld keptChain nextBlock := by
  refine ⟨rfl, by decide +kernel, ?_⟩
  rintro ⟨_, all⟩
  have started := all (fun _ => 1700009999) (blockchainAppendMinedBlock
    (diskEnv (.cutAfter 100)) savedWorld keptChain nextBlock).state.1 rfl
  revert started
  decide +kernel

end Attendance
