import Attendance.ChainFile

/-!
# Loading into a struct

`blockchain_load` fills a `Blockchain` that the caller owns. A load that fails may have
overwritten blocks already, and one that succeeds leaves in the array whatever it held
after the last block. `blockchainLoad` is what of this can be seen.
-/
namespace Attendance

open Images

/-- `Blockchain` as it lies in memory. -/
structure ChainMemory (layout : BlockLayout) where
  /-- The bytes of the array `blocks`. -/
  array : List UInt8
  length : Nat
  sized : array.length = maxBlocks * layout.size

namespace ChainMemory

variable {layout : BlockLayout} (chain : ChainMemory layout)

def blocks : List Block := readMany layout.size layout.read chain.length chain.array

@[simp] theorem length_blocks : chain.blocks.length = chain.length := length_readMany ..

/-- The blocks whose bytes are read from the file. -/
def store (bytes : List UInt8) (fits : bytes.length ≤ maxBlocks * layout.size) :
    ChainMemory layout :=
  { chain with
    array := overwrite chain.array bytes
    sized := by rw [length_overwrite (by rw [chain.sized]; exact fits), chain.sized] }

/-- An array that holds nothing but zeros, as `memset` leaves it. -/
def zeros (layout : BlockLayout) : ChainMemory layout :=
  ⟨List.replicate (maxBlocks * layout.size) 0, 0, List.length_replicate⟩

end ChainMemory

theorem length_take_le_array {layout : BlockLayout} {count : Nat} (bytes : List UInt8)
    (limits : ¬(count = 0 ∨ maxBlocks < count)) :
    (bytes.take (count * layout.size)).length ≤ maxBlocks * layout.size := by
  have most : count ≤ maxBlocks := Nat.not_lt.mp (not_or.mp limits).2
  exact Nat.le_trans (List.length_take_le _ _) (Nat.mul_le_mul_right _ most)

/-- `blockchain_load` from `CHAIN_FILE` into `chain`. -/
def blockchainLoadInto (layout : BlockLayout) (world : World) (chain : ChainMemory layout) :
    Outcome (ChainMemory layout) :=
  match world.chainFile with
  | none => ⟨false, chain, false⟩
  | some bytes =>
    if elementsRead 8 1 bytes ≠ 1 then ⟨false, chain, false⟩
    else
      let count := ofLittleEndian (bytes.take 8)
      if limits : count = 0 ∨ maxBlocks < count then ⟨false, chain, false⟩
      else
        let file := bytes.drop 8
        let chain := chain.store (file.take (count * layout.size)) (length_take_le_array _ limits)
        if elementsRead layout.size count file ≠ count then ⟨false, chain, false⟩
        else ⟨true, { chain with length := count }, false⟩

section Loaded

variable (layout : BlockLayout) (world : World) (chain : ChainMemory layout)

/-- What a load returns and the blocks it leaves do not depend on what the struct held. -/
theorem blockchainLoad_eq_loadInto :
    (blockchainLoad layout world).map (·.blocks) =
      if (blockchainLoadInto layout world chain).ok then
        some (blockchainLoadInto layout world chain).state.blocks
      else none := by
  unfold blockchainLoad blockchainLoadInto
  cases world.chainFile with
  | none => rfl
  | some bytes =>
    simp only
    by_cases header : bytes.length < 8
    · have cut : elementsRead 8 1 bytes ≠ 1 := by
        rw [Ne, elementsRead_eq_iff]
        omega
      rw [if_pos header, if_pos cut]
      rfl
    · have whole : ¬elementsRead 8 1 bytes ≠ 1 := by
        rw [not_not, elementsRead_eq_iff]
        omega
      rw [if_neg header, if_neg whole]
      by_cases limits : ofLittleEndian (bytes.take 8) = 0 ∨
          maxBlocks < ofLittleEndian (bytes.take 8)
      · rw [dif_pos limits, dif_pos limits]
        rfl
      · rw [dif_neg limits, dif_neg limits]
        by_cases short : (bytes.drop 8).length < ofLittleEndian (bytes.take 8) * layout.size
        · have cut := mt elementsRead_eq_iff.mp (Nat.not_le.mpr short)
          rw [if_pos short, if_pos cut]
          rfl
        · have enough := Nat.not_lt.mp short
          have all := elementsRead_eq_iff.mpr enough
          have length := List.length_take_of_le enough
          rw [if_neg short, if_neg (not_not.mpr all), if_pos rfl, Option.map_some]
          congr 1
          simp only [ChainMemory.blocks, ChainMemory.store, overwrite]
          rw [readMany_append length]
          -- both read from the front of the file
          conv_lhs => rw [← List.take_append_drop (ofLittleEndian (bytes.take 8) * layout.size)
            (bytes.drop 8)]
          rw [readMany_append length]

theorem loadInto_of_blockchainLoad_some {loaded : Blockchain}
    (load : blockchainLoad layout world = some loaded) :
    (blockchainLoadInto layout world chain).ok = true ∧
      (blockchainLoadInto layout world chain).state.blocks = loaded.blocks := by
  have same := blockchainLoad_eq_loadInto layout world chain
  rw [load, Option.map_some] at same
  split at same
  next ok => exact ⟨ok, (Option.some_inj.mp same).symm⟩
  next => cases same

theorem loadInto_of_blockchainLoad_none (load : blockchainLoad layout world = none) :
    (blockchainLoadInto layout world chain).ok = false := by
  have same := blockchainLoad_eq_loadInto layout world chain
  rw [load, Option.map_none] at same
  split at same
  next => cases same
  next failed => exact Bool.not_eq_true _ ▸ failed

/-- A load that succeeds stays within the array and finds at least one block. -/
theorem length_blockchainLoadInto (loaded : (blockchainLoadInto layout world chain).ok = true) :
    1 ≤ (blockchainLoadInto layout world chain).state.length ∧
      (blockchainLoadInto layout world chain).state.length ≤ maxBlocks := by
  generalize load : blockchainLoadInto layout world chain = outcome at loaded ⊢
  unfold blockchainLoadInto at load
  split at load
  · subst load
    cases loaded
  · split at load
    · subst load
      cases loaded
    · simp only at load
      split at load
      · subst load
        cases loaded
      next limits =>
        split at load
        · subst load
          cases loaded
        · subst load
          obtain ⟨present, room⟩ := not_or.mp limits
          exact ⟨Nat.one_le_iff_ne_zero.mpr present, Nat.not_lt.mp room⟩

end Loaded

end Attendance
