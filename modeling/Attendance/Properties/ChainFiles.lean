import Attendance.ChainMemory
import Attendance.Properties.FailedAppend

/-!
# The chain file round trip

What `blockchain_save` writes is loaded as the same chain, whatever struct it is loaded
into. A file that was cut anywhere is refused, and no file makes a load exceed the array.
-/
namespace Attendance

/-- A save that succeeds has written all blocks of a chain that is not empty. -/
theorem blockchainSave_true {env : Env} {world : World} {chain : Blockchain}
    (saved : (blockchainSave env world chain).2 = true) :
    chain.blocks ≠ [] ∧
      (blockchainSave env world chain).1.chainFile = some (chainFileBytes env chain) := by
  unfold blockchainSave at saved ⊢
  split at saved
  · cases saved
  next nonempty =>
    rw [if_neg nonempty]
    split at saved
    next =>
      exact ⟨fun empty => nonempty (by rw [empty, List.length_nil]), rfl⟩
    next => cases saved
    next => cases saved

/-- A load undoes a successful save, from every file that has been cut it fails, and a load
that succeeds, of whatever file, gives a length from 1 to `MAX_BLOCKS`. -/
theorem load_save_round_trip (env : Env) (layout : BlockLayout) :
    (∀ (world : World) (chain : Blockchain),
      (∀ block ∈ chain.blocks, layout.RoundTrips env block) →
      (blockchainSave env world chain).2 = true →
      ∃ file, (blockchainSave env world chain).1.chainFile = some file ∧
        (∀ (later : World) (memory : ChainMemory layout), later.chainFile = some file →
          (blockchainLoadInto layout later memory).ok = true ∧
          (blockchainLoadInto layout later memory).state.length = chain.blocks.length ∧
          (blockchainLoadInto layout later memory).state.blocks = chain.blocks) ∧
        ∀ part, part <+: file → part ≠ file →
          ∀ (later : World) (memory : ChainMemory layout), later.chainFile = some part →
            (blockchainLoadInto layout later memory).ok = false) ∧
    ∀ (world : World) (memory : ChainMemory layout),
      (blockchainLoadInto layout world memory).ok = true →
      1 ≤ (blockchainLoadInto layout world memory).state.length ∧
        (blockchainLoadInto layout world memory).state.length ≤ maxBlocks := by
  refine ⟨?_, fun world memory loaded => length_blockchainLoadInto layout world memory loaded⟩
  intro world chain roundTrips saved
  obtain ⟨nonempty, written⟩ := blockchainSave_true saved
  refine ⟨_, written, ?_, ?_⟩
  · intro later memory file
    have whole : later.chainFile = some (chainFileBytes env chain ++ []) := by
      rw [file, List.append_nil]
    have load := load_chainFileBytes roundTrips nonempty [] whole
    obtain ⟨ok, blocks⟩ := loadInto_of_blockchainLoad_some layout later memory load
    have length := congrArg List.length blocks
    rw [ChainMemory.length_blocks] at length
    exact ⟨ok, length, blocks⟩
  · intro part start proper later memory file
    -- a beginning that is not the whole file is shorter than it
    have short : part.length < (chainFileBytes env chain).length := by
      refine Nat.lt_of_le_of_ne start.length_le ?_
      exact fun same => proper (start.eq_of_length same)
    apply loadInto_of_blockchainLoad_none
    apply load_cut roundTrips short
    rw [file, ← List.prefix_iff_eq_take.mp start]

open Sample

/-- The sample chain, loaded into a struct of zeros. -/
theorem load_save_round_trip_sample :
    ∃ file, (blockchainSave (diskEnv .complete) ⟨0, none⟩ keptChain).1.chainFile = some file ∧
      (blockchainLoadInto layout ⟨9, some file⟩ (.zeros layout)).state.blocks =
        keptChain.blocks := by
  have round := (load_save_round_trip (diskEnv .complete) layout).1 ⟨0, none⟩ keptChain
    (fun block member => roundTrips_sample block (by simp [member]) .complete)
    (by decide +kernel)
  obtain ⟨file, written, loaded, _⟩ := round
  exact ⟨file, written, (loaded ⟨9, some file⟩ (.zeros layout) rfl).2.2⟩

end Attendance
