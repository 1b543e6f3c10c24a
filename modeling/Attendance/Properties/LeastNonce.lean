import Attendance.Sample

/-!
# Proof of work finds the least nonce

The `do` loop of `mine_block_pow` stops on a counter that wraps around. Stated without any
bound on its rounds, the loop ends on every block, and what it returns is the least nonce
that meets the target.
-/
namespace Attendance

open CText

/-- The `do` loop from a block and a number of tries to the result it returns, in as many
rounds as it takes. -/
inductive MineLoopRuns (env : Env) (difficulty : Int32) :
    Block → UInt64 → Option (Block × UInt64) → Prop where
  | unhashed {block : Block} {tries : UInt64} (failed : computeBlockHash env block = none) :
      MineLoopRuns env difficulty block tries none
  | found {block : Block} {tries : UInt64} {hash : CStr hashLen}
      (hashed : computeBlockHash env block = some hash)
      (met : hashMeetsDifficulty hash difficulty = true) :
      MineLoopRuns env difficulty block tries (some ({ block with hash }, tries + 1))
  | wrapped {block : Block} {tries : UInt64} {hash : CStr hashLen}
      (hashed : computeBlockHash env block = some hash)
      (missed : ¬hashMeetsDifficulty hash difficulty = true) (last : block.nonce + 1 = 0) :
      MineLoopRuns env difficulty block tries none
  | next {block : Block} {tries : UInt64} {hash : CStr hashLen} {result : Option (Block × UInt64)}
      (hashed : computeBlockHash env block = some hash)
      (missed : ¬hashMeetsDifficulty hash difficulty = true) (more : block.nonce + 1 ≠ 0)
      (rest : MineLoopRuns env difficulty { block with hash, nonce := block.nonce + 1 }
        (tries + 1) result) : MineLoopRuns env difficulty block tries result

/-- There are enough rounds in `mineLoop` for the loop to end by itself. -/
private theorem mineLoopRuns_mineLoop (env : Env) (difficulty : Int32) (fuel : Nat) (block : Block)
    (tries : UInt64) (enough : 2 ^ 64 = block.nonce.toNat + fuel) :
    MineLoopRuns env difficulty block tries (mineLoop env difficulty fuel block tries) := by
  induction fuel generalizing block tries with
  | zero =>
    have bound := block.nonce.toNat_lt
    omega
  | succ fuel ih =>
    have hashed := computeBlockHash_eq env block
    simp only [mineLoop, hashed]
    split
    next met => exact .found hashed met
    next missed =>
      split
      next last => exact .wrapped hashed missed last
      next more =>
        refine .next hashed missed more (ih _ _ ?_)
        have next := toNat_add_one more
        simp only [next]
        omega

/-- The loop has one result. -/
private theorem MineLoopRuns.unique {env : Env} {difficulty : Int32} {block : Block}
    {tries : UInt64} {result result' : Option (Block × UInt64)}
    (run : MineLoopRuns env difficulty block tries result)
    (run' : MineLoopRuns env difficulty block tries result') : result = result' := by
  -- the hash and the target decide which rule applies
  induction run with
  | unhashed failed => cases run' <;> simp_all
  | found hashed met => cases run' <;> simp_all
  | wrapped hashed missed last => cases run' <;> simp_all
  | next hashed missed more rest ih =>
    cases run' with
    | next hashed' _ _ rest' =>
      rw [hashed] at hashed'
      cases hashed'
      exact ih rest'
    | _ => simp_all

/-- The block has a hash under this nonce, and the hash starts with the required zeros. -/
def Qualifies (env : Env) (difficulty : Int32) (block : Block) (nonce : UInt64) : Prop :=
  ∃ hash, computeBlockHash env { block with nonce } = some hash ∧
    List.replicate difficulty.toInt.toNat '0' <+: hash.text

/-- What `mine_block_pow` leaves when it returns true. -/
structure MinedWithLeast (env : Env) (difficulty : Int32) (block mined : Block)
    (attempts : UInt64) : Prop where
  unchanged : mined = { block with nonce := mined.nonce, hash := mined.hash }
  hash : computeBlockHash env mined = some mined.hash
  meets : List.replicate difficulty.toInt.toNat '0' <+: mined.hash.text
  least : ∀ nonce < mined.nonce, ¬Qualifies env difficulty block nonce
  attempts : attempts = mined.nonce + 1

private theorem qualifies_iff {env : Env} {difficulty : Int32}
    (inRange : DifficultyInRange difficulty) (block : Block) (nonce : UInt64) :
    Qualifies env difficulty block nonce ↔ Meets env difficulty block nonce := by
  rw [Qualifies, Meets, hashMeetsDifficulty_iff _ inRange.1]
  simp [computeBlockHash_eq, attempt]

private theorem minedWithLeast_of_returned {env : Env} {block mined : Block} {difficulty : Int32}
    {attempts : UInt64} (returned : mineBlockPow env block difficulty = some (mined, attempts)) :
    MinedWithLeast env difficulty block mined attempts := by
  have tries := mineBlockPow_tries returned
  obtain ⟨inRange, nonce, rfl, meets, least⟩ := mineBlockPow_some returned
  refine ⟨rfl, computeBlockHash_eq env _, ?_, ?_, tries⟩
  · exact (hashMeetsDifficulty_iff _ inRange.1).mp meets
  · intro smaller below
    rw [qualifies_iff inRange]
    exact least smaller (UInt64.lt_iff_toNat_lt.mp below)

/-- At an allowed difficulty the loop ends in exactly one way, the payload always fits its
buffer, the call returns true exactly if some nonce qualifies, and then with the least. -/
theorem mine_block_pow_least (env : Env) (block : Block) (difficulty : Int32)
    (inRange : DifficultyInRange difficulty) :
    (∀ result, MineLoopRuns env difficulty { block with nonce := 0 } 0 result ↔
      result = mineBlockPow env block difficulty) ∧
    (∀ nonce, (computeBlockHash env { block with nonce }).isSome = true) ∧
    ((mineBlockPow env block difficulty).isSome = true ↔
      ∃ nonce, Qualifies env difficulty block nonce) ∧
    ∀ mined attempts, mineBlockPow env block difficulty = some (mined, attempts) →
      MinedWithLeast env difficulty block mined attempts := by
  have run : MineLoopRuns env difficulty { block with nonce := 0 } 0
      (mineBlockPow env block difficulty) := by
    rw [mineBlockPow_eq, if_pos inRange]
    exact mineLoopRuns_mineLoop env difficulty nonceCount _ 0 (by simp [nonceCount])
  refine ⟨?_, ?_, ?_, ?_⟩
  · intro result
    constructor
    · exact fun other => other.unique run
    · rintro rfl
      exact run
  · intro nonce
    rw [computeBlockHash_eq]
    rfl
  · rw [mineBlockPow_isSome_iff, and_iff_right inRange]
    exact exists_congr fun nonce => (qualifies_iff inRange block nonce).symm
  · exact fun mined attempts => minedWithLeast_of_returned

/-- At difficulty 2 the sample digests of the genesis block need a search. -/
theorem mine_block_pow_least_sample :
    let block := genesisFields 0
    (∀ result, MineLoopRuns Sample.env 2 { block with nonce := 0 } 0 result ↔
      result = mineBlockPow Sample.env block 2) ∧
    (∀ nonce, (computeBlockHash Sample.env { block with nonce }).isSome = true) ∧
    ((mineBlockPow Sample.env block 2).isSome = true ↔
      ∃ nonce, Qualifies Sample.env 2 block nonce) ∧
    ∀ mined attempts, mineBlockPow Sample.env block 2 = some (mined, attempts) →
      MinedWithLeast Sample.env 2 block mined attempts :=
  mine_block_pow_least Sample.env (genesisFields 0) 2 (by decide)

end Attendance
