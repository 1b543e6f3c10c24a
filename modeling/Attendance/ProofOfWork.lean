import Attendance.Crypto

/-!
# Proof of work

`hash_meets_difficulty` and `mine_block_pow` of `mining.c`.
-/
namespace Attendance

open CText

/-- The loop of `hash_meets_difficulty`; the terminating NUL is not a `'0'`. -/
def startsWithZeros : Nat → List Char → Bool
  | 0, _ => true
  | _ + 1, [] => false
  | n + 1, c :: rest => c = '0' && startsWithZeros n rest

def hashMeetsDifficulty (hash : CStr hashLen) (difficulty : Int32) : Bool :=
  if difficulty < 1 then false else startsWithZeros difficulty.toInt.toNat hash.text

private theorem startsWithZeros_iff (count : Nat) (text : List Char) :
    startsWithZeros count text = true ↔ List.replicate count '0' <+: text := by
  induction count generalizing text with
  | zero => simp [startsWithZeros]
  | succ count ih =>
    cases text with
    | nil => simp [startsWithZeros]
    | cons c rest => simp [startsWithZeros, ih, List.replicate_succ, List.cons_prefix_cons,
        @eq_comm _ '0' c]

theorem hashMeetsDifficulty_iff (hash : CStr hashLen) {difficulty : Int32}
    (positive : 1 ≤ difficulty) :
    hashMeetsDifficulty hash difficulty = true ↔
      List.replicate difficulty.toInt.toNat '0' <+: hash.text := by
  rw [hashMeetsDifficulty, if_neg (Int32.not_lt.mpr positive), startsWithZeros_iff]

/-- A smaller difficulty is met by every hash that meets a larger one. -/
theorem hashMeetsDifficulty_mono {hash : CStr hashLen} {low high : Int32}
    (positive : 1 ≤ low) (below : low ≤ high) (meets : hashMeetsDifficulty hash high = true) :
    hashMeetsDifficulty hash low = true := by
  rw [hashMeetsDifficulty_iff hash (Int32.le_trans positive below)] at meets
  rw [hashMeetsDifficulty_iff hash positive]
  have fewer := Int32.le_iff_toInt_le.mp below
  apply List.IsPrefix.trans ?_ meets
  rw [List.prefix_replicate_iff, List.length_replicate]
  exact ⟨Int.toNat_le_toNat fewer, rfl⟩

/-- The rounds of the `do` loop before `nonce` wraps to zero: one for each `unsigned long`. -/
def nonceCount : Nat := 2 ^ 64

/-- The `do` loop of `mine_block_pow` from the block's current nonce on. -/
def mineLoop (env : Env) (difficulty : Int32) : Nat → Block → UInt64 → Option (Block × UInt64)
  | 0, _, _ => none
  | fuel + 1, block, tries =>
    match computeBlockHash env block with
    | none => none
    | some hash =>
      if hashMeetsDifficulty hash difficulty then some ({ block with hash }, tries + 1)
      -- `while (block->nonce != 0)`
      else if block.nonce + 1 = 0 then none
      else mineLoop env difficulty fuel { block with hash, nonce := block.nonce + 1 } (tries + 1)

/-- The mined block and the number of attempts; `none` is the C function returning false. -/
def mineBlockPow (env : Env) (block : Block) (difficulty : Int32) : Option (Block × UInt64) :=
  if difficulty < minDifficulty ∨ maxDifficulty < difficulty then none
  else mineLoop env difficulty nonceCount { block with nonce := 0 } 0

/-- The block after the attempt with the given nonce. -/
def attempt (env : Env) (block : Block) (nonce : UInt64) : Block :=
  { block with nonce, hash := blockHash env { block with nonce } }

def Meets (env : Env) (difficulty : Int32) (block : Block) (nonce : UInt64) : Prop :=
  hashMeetsDifficulty (attempt env block nonce).hash difficulty = true

/-- `while (block->nonce != 0)` stops after the last nonce only. -/
theorem toNat_of_add_one_eq_zero {nonce : UInt64} (wrapped : nonce + 1 = 0) :
    nonce.toNat = 2 ^ 64 - 1 := by
  have zero := congrArg UInt64.toNat wrapped
  have bound := nonce.toNat_lt
  simp only [UInt64.toNat_add, UInt64.toNat_one, UInt64.toNat_zero] at zero
  omega

theorem toNat_add_one {nonce : UInt64} (more : nonce + 1 ≠ 0) :
    (nonce + 1).toNat = nonce.toNat + 1 := by
  have bound := nonce.toNat_lt
  have nonzero : (nonce + 1).toNat ≠ 0 := fun zero => more (UInt64.toNat_inj.mp zero)
  simp only [UInt64.toNat_add, UInt64.toNat_one] at nonzero ⊢
  omega

/-- The search from the current nonce on ends at the least nonce that meets the
target, and fails only when there is none. -/
private theorem mineLoop_spec (env : Env) (difficulty : Int32) (fuel : Nat) (block : Block)
    (tries : UInt64) (enough : 2 ^ 64 = block.nonce.toNat + fuel) :
    match mineLoop env difficulty fuel block tries with
    | some (mined, _) => ∃ nonce, mined = attempt env block nonce ∧
        Meets env difficulty block nonce ∧ block.nonce.toNat ≤ nonce.toNat ∧
        ∀ smaller, block.nonce.toNat ≤ smaller.toNat → smaller.toNat < nonce.toNat →
          ¬Meets env difficulty block smaller
    | none => ∀ nonce, block.nonce.toNat ≤ nonce.toNat → ¬Meets env difficulty block nonce := by
  induction fuel generalizing block tries with
  | zero =>
    -- a nonce is below 2 ^ 64, so fuel cannot have run out
    have bound := block.nonce.toNat_lt
    omega
  | succ fuel ih =>
    simp only [mineLoop, computeBlockHash_eq]
    by_cases met : hashMeetsDifficulty (blockHash env block) difficulty = true
    · simp only [if_pos met]
      exact ⟨block.nonce, rfl, met, le_rfl, fun smaller low high => absurd low (by omega)⟩
    · simp only [if_neg met]
      have here {nonce : UInt64} (same : nonce.toNat = block.nonce.toNat) :
          ¬Meets env difficulty block nonce := by
        obtain rfl : nonce = block.nonce := UInt64.toNat_inj.mp same
        exact met
      by_cases wrapped : block.nonce + 1 = 0
      -- the search has reached the last nonce
      · simp only [if_pos wrapped]
        intro nonce low
        have last := toNat_of_add_one_eq_zero wrapped
        have bound := nonce.toNat_lt
        exact here (by omega)
      · simp only [if_neg wrapped]
        have next := toNat_add_one wrapped
        have rest := ih { block with hash := blockHash env block, nonce := block.nonce + 1 }
          (tries + 1) (by simp only [next]; omega)
        simp only [next] at rest
        split at rest
        next mined _ found =>
          obtain ⟨nonce, equal, meets, low, least⟩ := rest
          refine ⟨nonce, equal, meets, by omega, ?_⟩
          intro smaller from_here below
          -- a smaller nonce is the current one or was tried by the rest of the loop
          rcases Nat.lt_or_ge block.nonce.toNat smaller.toNat with later | same
          · exact least smaller later below
          · exact here (by omega)
        next none_found =>
          intro nonce low
          rcases Nat.lt_or_ge block.nonce.toNat nonce.toNat with later | same
          · exact rest nonce later
          · exact here (by omega)

private theorem mineLoop_some {env : Env} {difficulty : Int32} {fuel : Nat} {block mined : Block}
    {tries tried : UInt64} (enough : 2 ^ 64 = block.nonce.toNat + fuel)
    (returned : mineLoop env difficulty fuel block tries = some (mined, tried)) :
    ∃ nonce, mined = attempt env block nonce ∧ Meets env difficulty block nonce ∧
      ∀ smaller, block.nonce.toNat ≤ smaller.toNat → smaller.toNat < nonce.toNat →
        ¬Meets env difficulty block smaller := by
  have spec := mineLoop_spec env difficulty fuel block tries enough
  simp only [returned] at spec
  obtain ⟨nonce, equal, meets, _, least⟩ := spec
  exact ⟨nonce, equal, meets, least⟩

/-- `tries` and the nonce go up together, and both wrap around. -/
private theorem mineLoop_tries {env : Env} {difficulty : Int32} {fuel : Nat}
    {block mined : Block} {tries tried : UInt64}
    (returned : mineLoop env difficulty fuel block tries = some (mined, tried)) :
    tried - mined.nonce = tries - block.nonce + 1 := by
  induction fuel generalizing block tries with
  | zero => cases returned
  | succ fuel ih =>
    simp only [mineLoop, computeBlockHash_eq] at returned
    split at returned
    · cases returned
      grind
    · split at returned
      · cases returned
      · rw [ih returned]
        grind

private theorem mineLoop_isSome {env : Env} {difficulty : Int32} {fuel : Nat} {block : Block}
    (tries : UInt64) (enough : 2 ^ 64 = block.nonce.toNat + fuel) {nonce : UInt64}
    (low : block.nonce.toNat ≤ nonce.toNat) (meets : Meets env difficulty block nonce) :
    (mineLoop env difficulty fuel block tries).isSome = true := by
  have spec := mineLoop_spec env difficulty fuel block tries enough
  cases found : mineLoop env difficulty fuel block tries with
  | some mined => rfl
  | none =>
    simp only [found] at spec
    exact absurd meets (spec nonce low)

/-- `MIN_DIFFICULTY <= difficulty <= MAX_DIFFICULTY`. -/
def DifficultyInRange (difficulty : Int32) : Prop :=
  minDifficulty ≤ difficulty ∧ difficulty ≤ maxDifficulty

instance (difficulty : Int32) : Decidable (DifficultyInRange difficulty) :=
  inferInstanceAs (Decidable (_ ∧ _))

theorem mineBlockPow_eq (env : Env) (block : Block) (difficulty : Int32) :
    mineBlockPow env block difficulty =
      if DifficultyInRange difficulty then
        mineLoop env difficulty nonceCount { block with nonce := 0 } 0
      else none := by
  by_cases inRange : DifficultyInRange difficulty
  · have inside : ¬(difficulty < minDifficulty ∨ maxDifficulty < difficulty) := by
      rintro (low | high)
      · exact Int32.not_lt.mpr inRange.1 low
      · exact Int32.not_lt.mpr inRange.2 high
    rw [mineBlockPow, if_neg inside, if_pos inRange]
  · have outside : difficulty < minDifficulty ∨ maxDifficulty < difficulty := by
      by_contra inside
      simp only [not_or, Int32.not_lt] at inside
      exact inRange inside
    rw [mineBlockPow, if_pos outside, if_neg inRange]

/-- What a mined block is: the least nonce that meets the target, and nothing else
changed but the hash. -/
theorem mineBlockPow_some {env : Env} {block mined : Block} {difficulty : Int32} {tries : UInt64}
    (returned : mineBlockPow env block difficulty = some (mined, tries)) :
    DifficultyInRange difficulty ∧ ∃ nonce, mined = attempt env block nonce ∧
      Meets env difficulty block nonce ∧
      ∀ smaller, smaller.toNat < nonce.toNat → ¬Meets env difficulty block smaller := by
  rw [mineBlockPow_eq] at returned
  split at returned
  next inRange =>
    obtain ⟨nonce, equal, meets, least⟩ := mineLoop_some (by simp [nonceCount]) returned
    refine ⟨inRange, nonce, equal, meets, ?_⟩
    intro smaller
    exact least smaller (Nat.zero_le _)
  next => cases returned

/-- The attempts are the nonces from zero up to the one that was found. -/
theorem mineBlockPow_tries {env : Env} {block mined : Block} {difficulty : Int32} {tries : UInt64}
    (returned : mineBlockPow env block difficulty = some (mined, tries)) :
    tries = mined.nonce + 1 := by
  rw [mineBlockPow_eq] at returned
  split at returned
  next =>
    have together := mineLoop_tries returned
    grind
  next => cases returned

/-- Mining succeeds exactly when the difficulty is allowed and some nonce works. -/
theorem mineBlockPow_isSome_iff (env : Env) (block : Block) (difficulty : Int32) :
    (mineBlockPow env block difficulty).isSome = true ↔
      DifficultyInRange difficulty ∧ ∃ nonce, Meets env difficulty block nonce := by
  constructor
  · intro some_mined
    obtain ⟨⟨mined, tries⟩, returned⟩ := Option.isSome_iff_exists.mp some_mined
    obtain ⟨inRange, nonce, _, meets, _⟩ := mineBlockPow_some returned
    exact ⟨inRange, nonce, meets⟩
  · rintro ⟨inRange, nonce, meets⟩
    rw [mineBlockPow_eq, if_pos inRange]
    exact mineLoop_isSome 0 (by simp [nonceCount]) (Nat.zero_le nonce.toNat) meets

end Attendance
