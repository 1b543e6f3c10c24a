import Attendance.Mining

/-!
# Rounds

What one round of a mining loop can do, and the three modes as one schema: a start,
a loop of rounds, and an end. Everything proved about mining goes through
`roundStep` and `mine_eq`.
-/
namespace Attendance

open CText Calls

/-! ### One round -/

/-- What a round needs of the state it starts in to append the block at the front of
the pool. -/
structure Confirmable (env : Env) (difficulty : Int32) (st : MineState) (front : Block) : Prop where
  signs : (signBlock env st.world (linkBlock front st.chain)).2.isSome = true
  inRange : DifficultyInRange difficulty
  nonce : ∃ nonce, Meets env difficulty (linkBlock front st.chain) nonce
  append : CanAppend env st.world.next st.chain

/-- The block a round appends: the front block linked to the tip, signed, and mined
with the least nonce that meets the target. -/
def MinedFrom (env : Env) (difficulty : Int32) (st : MineState) (front mined : Block) : Prop :=
  ∃ signature nonce,
    (signBlock env st.world (linkBlock front st.chain)).2 =
      some { linkBlock front st.chain with signature } ∧
    mined = attempt env { linkBlock front st.chain with signature } nonce ∧
    Meets env difficulty (linkBlock front st.chain) nonce ∧
    ∀ smaller, smaller.toNat < nonce.toNat →
      ¬Meets env difficulty (linkBlock front st.chain) smaller

/-- Everything a round can do: nothing on an empty pool; append the front block and
settle it; or lose the front block. -/
inductive RoundStep (env : Env) (difficulty : Int32) (settle : Ledger → Block → Outcome Ledger)
    (st : MineState) : Outcome MineState → Prop where
  | idle (empty : st.pool.blocks = []) : RoundStep env difficulty settle st ⟨false, st, false⟩
  | confirmed {front mined : Block} {world : World} {chain : Blockchain} {pool : PendingPool}
      (queued : st.pool.blocks = front :: pool.blocks)
      (confirmable : Confirmable env difficulty st front)
      (mining : MinedFrom env difficulty st front mined)
      (appended : chain.blocks = st.chain.blocks ++ [mined]) :
      RoundStep env difficulty settle st
        ⟨(settle st.ledger mined).ok, ⟨world, chain, pool, (settle st.ledger mined).state⟩,
          (settle st.ledger mined).overflow⟩
  | lost {front : Block} {world : World} {pool : PendingPool}
      (queued : st.pool.blocks = front :: pool.blocks)
      (unconfirmable : ¬Confirmable env difficulty st front) :
      RoundStep env difficulty settle st ⟨false, ⟨world, st.chain, pool, st.ledger⟩, false⟩

private theorem pendingRemoveFront_nil {pool : PendingPool} (empty : pool.blocks = []) :
    pendingRemoveFront pool = none := by
  obtain ⟨blocks, fits⟩ := pool
  subst empty
  rfl

private theorem pendingRemoveFront_cons {pool : PendingPool} {front : Block} {rest : List Block}
    (queued : pool.blocks = front :: rest) :
    ∃ shorter : PendingPool,
      shorter.blocks = rest ∧ pendingRemoveFront pool = some (front, shorter) := by
  obtain ⟨blocks, fits⟩ := pool
  subst queued
  exact ⟨_, rfl, rfl⟩

/-- The hash payload leaves the signature out. -/
private theorem mineBlockPow_signed (env : Env) (difficulty : Int32) (block : Block)
    (signature : Signature) :
    (mineBlockPow env { block with signature } difficulty).isSome = true ↔
      DifficultyInRange difficulty ∧ ∃ nonce, Meets env difficulty block nonce :=
  mineBlockPow_isSome_iff env { block with signature } difficulty

theorem roundStep (env : Env) (difficulty : Int32) (settle : Ledger → Block → Outcome Ledger)
    (st : MineState) :
    RoundStep env difficulty settle st (confirmRound env difficulty settle st) := by
  unfold confirmRound mineFront
  cases pool : st.pool.blocks with
  | nil =>
    rw [pendingRemoveFront_nil pool]
    exact .idle pool
  | cons front rest =>
    -- from here on the front block has left the pool, and every failure loses it
    obtain ⟨shorter, rfl, removed⟩ := pendingRemoveFront_cons pool
    have world := signBlock_world env st.world (linkBlock front st.chain)
    simp only [removed, prepareBlockForMining]
    cases signed : signBlock env st.world (linkBlock front st.chain) with
    | mk signedWorld result =>
      rw [signed] at world
      obtain rfl : signedWorld = st.world.next := world
      cases result with
      | none =>
        exact .lost pool (fun confirmable => by simpa [signed] using confirmable.signs)
      | some prepared =>
        have shape := signBlock_some (congrArg Prod.snd signed)
        generalize prepared.signature = signature at shape
        subst shape
        simp only
        cases mining : mineBlockPow env { linkBlock front st.chain with signature } difficulty with
        | none =>
          -- the search fails for a difficulty out of range and for want of a nonce
          refine .lost pool (fun confirmable => ?_)
          have found := (mineBlockPow_signed env difficulty _ signature).mpr
            ⟨confirmable.inRange, confirmable.nonce⟩
          rw [mining] at found
          cases found
        | some mined =>
          obtain ⟨mined, tries⟩ := mined
          obtain ⟨inRange, nonce, equal, meets, least⟩ := mineBlockPow_some mining
          simp only
          rcases blockchainAppendMinedBlock_cases env st.world.next st.chain mined with
            ⟨append, world, longer, appended, result⟩ | ⟨refused, world, result⟩
          · rw [result]
            refine .confirmed pool ⟨?_, inRange, ⟨nonce, meets⟩, append⟩ ?_ appended
            · rw [signed]
              rfl
            · exact ⟨signature, nonce, congrArg Prod.snd signed, equal, meets, least⟩
          · rw [result]
            exact .lost pool (fun confirmable => refused confirmable.append)

/-- A round takes one block off the pool, whatever becomes of it. -/
theorem pool_confirmRound (env : Env) (difficulty : Int32)
    (settle : Ledger → Block → Outcome Ledger) (st : MineState) :
    (confirmRound env difficulty settle st).state.pool.blocks = st.pool.blocks.tail := by
  have step := roundStep env difficulty settle st
  generalize confirmRound env difficulty settle st = result at step ⊢
  cases step with
  | idle empty => simp [empty]
  | confirmed queued => simp [queued]
  | lost queued => simp [queued]

/-- There is a block at the front of the pool, and a round can append it. -/
def FrontConfirmable (env : Env) (difficulty : Int32) (st : MineState) : Prop :=
  ∃ front rest, st.pool.blocks = front :: rest ∧ Confirmable env difficulty st front

theorem settleUnchecked_ok (env : Env) (ledger : Ledger) (block : Block) :
    (settleUnchecked env ledger block).ok = true := by
  unfold settleUnchecked
  split <;> rfl

/-- Where settling never fails, a round succeeds and appends a block exactly if it can. -/
theorem confirmRound_counts (env : Env) {settle : Ledger → Block → Outcome Ledger}
    (settles : ∀ ledger block, (settle ledger block).ok = true) (difficulty : Int32)
    (st : MineState) :
    let result := confirmRound env difficulty settle st
    (FrontConfirmable env difficulty st →
      result.ok = true ∧ result.state.chain.blocks.length = st.chain.blocks.length + 1) ∧
    (¬FrontConfirmable env difficulty st →
      result.ok = false ∧ result.state.chain.blocks.length = st.chain.blocks.length) := by
  have step := roundStep env difficulty settle st
  generalize confirmRound env difficulty settle st = result at step ⊢
  cases step with
  | idle empty => simp [FrontConfirmable, empty]
  | confirmed queued confirmable mining appended =>
    simp [FrontConfirmable, queued, confirmable, settles, appended]
  | lost queued unconfirmable => simp [FrontConfirmable, queued, unconfirmable]

theorem MinedFrom.isSealed {env : Env} {difficulty : Int32} {st : MineState}
    {front mined : Block} (mining : MinedFrom env difficulty st front mined) :
    Sealed env mined := by
  obtain ⟨signature, nonce, signed, rfl, _, _⟩ := mining
  exact ⟨rfl, _, _, _, signed, rfl, rfl⟩

/-- The signature is no part of the hash, so the block meets the target it was mined for. -/
theorem MinedFrom.meets {env : Env} {difficulty : Int32} {st : MineState} {front mined : Block}
    (mining : MinedFrom env difficulty st front mined) :
    hashMeetsDifficulty mined.hash difficulty = true := by
  obtain ⟨signature, nonce, _, rfl, meets, _⟩ := mining
  exact meets

theorem MinedFrom.previousHash {env : Env} {difficulty : Int32} {st : MineState}
    {front mined : Block} (mining : MinedFrom env difficulty st front mined) :
    mined.previousHash = HashChain.tip Block.hash genesisPrevHash st.chain.blocks := by
  obtain ⟨signature, nonce, _, rfl, _, _⟩ := mining
  rw [HashChain.tip_eq_getLast]
  exact CStr.strncpy_text _

theorem MinedFrom.index {env : Env} {difficulty : Int32} {st : MineState}
    {front mined tip : Block} (mining : MinedFrom env difficulty st front mined)
    (last : st.chain.blocks.getLast? = some tip) : mined.index = tip.index + 1 := by
  obtain ⟨signature, nonce, _, rfl, _, _⟩ := mining
  simp [attempt, linkBlock, blockchainTip, last]

/-- The mined block is determined by the chain, the front block and the signature. -/
theorem MinedFrom.unique {env : Env} {difficulty : Int32} {left right : MineState}
    {front mined mined' : Block} (chains : left.chain = right.chain)
    (signatures : (signBlock env left.world (linkBlock front left.chain)).2 =
      (signBlock env right.world (linkBlock front right.chain)).2)
    (mining : MinedFrom env difficulty left front mined)
    (mining' : MinedFrom env difficulty right front mined') : mined = mined' := by
  obtain ⟨signature, nonce, signed, rfl, meets, least⟩ := mining
  obtain ⟨signature', nonce', signed', rfl, meets', least'⟩ := mining'
  rw [signatures, signed', Option.some_inj] at signed
  -- one block signed twice with one result
  have same : signature' = signature := congrArg Block.signature signed
  rw [chains] at meets least
  -- each nonce is the least that meets the target, so neither is smaller
  rcases Nat.lt_trichotomy nonce.toNat nonce'.toNat with less | equal | greater
  · exact absurd meets (least' nonce less)
  · rw [UInt64.toNat_inj.mp equal, same, chains]
  · exact absurd meets' (least nonce' greater)

/-! ### The three modes -/

/-- A call of one of the modes, with the arguments that are its own. -/
inductive MiningCall where
  | solo (minerId : Option (List Char))
  | pool (minerCount : Int32)
  | cloud (rounds rentalFee maintenanceFee : Int32)

def mine (env : Env) (st : MineState) (difficulty : Int32) : MiningCall → Outcome MineState
  | .solo minerId => miningSolo env st difficulty minerId
  | .pool minerCount => miningPool env st difficulty minerCount
  | .cloud rounds rentalFee maintenanceFee =>
    miningCloud env st difficulty rounds rentalFee maintenanceFee

/-- The call returns before it has done anything. -/
def MiningCall.Rejected (st : MineState) : MiningCall → Prop
  | .solo _ | .pool _ => st.pool.blocks = []
  | .cloud rounds _ _ =>
    (rounds < cloudMinRounds ∨ cloudMaxRounds < rounds) ∨ st.pool.blocks = []

instance (st : MineState) (call : MiningCall) : Decidable (call.Rejected st) :=
  match call with
  | .solo _ | .pool _ => inferInstanceAs (Decidable (_ = _))
  | .cloud _ _ _ => inferInstanceAs (Decidable ((_ ∨ _) ∨ _))

/-- What a call does before its loop. -/
def MiningCall.start (env : Env) (st : MineState) : MiningCall → Outcome MineState
  | .solo _ => ⟨true, st, false⟩
  | .pool minerCount => payPool env st minerCount
  | .cloud rounds rentalFee maintenanceFee => ⟨true, st,
      (cloudRounds (pendingCount st.pool) rentalFee maintenanceFee rounds.toInt.toNat).overflow⟩

/-- How a call settles an appended block. -/
def MiningCall.settle (env : Env) : MiningCall → Ledger → Block → Outcome Ledger
  | .solo minerId => settleChecked env (minerId.getD soloMiner)
  | .pool _ | .cloud _ _ _ => settleUnchecked env

/-- What a call does after its loop, with the number of blocks it found pending. -/
def MiningCall.finish (env : Env) (blocksToMine : Nat) (ledger : Ledger) :
    MiningCall → Outcome Ledger
  | .solo _ | .pool _ => ⟨true, ledger, false⟩
  | .cloud rounds rentalFee maintenanceFee => creditCloudUser env ledger
      (cloudRounds blocksToMine rentalFee maintenanceFee rounds.toInt.toNat).netProfit

/-- One round of the loop of a call. -/
def MiningCall.round (env : Env) (difficulty : Int32) (call : MiningCall) :
    MineState → Outcome MineState :=
  confirmRound env difficulty (call.settle env)

theorem MiningCall.roundStep (env : Env) (difficulty : Int32) (call : MiningCall)
    (st : MineState) :
    RoundStep env difficulty (call.settle env) st (call.round env difficulty st) :=
  Attendance.roundStep env difficulty (call.settle env) st

/-- The loop of a call. -/
def MiningCall.loop (env : Env) (st : MineState) (difficulty : Int32) (call : MiningCall) :
    Outcome MineState :=
  repeatFor (call.round env difficulty) st.pool.blocks.length (call.start env st).state

@[simp] theorem MiningCall.pool_start (env : Env) (st : MineState) (call : MiningCall) :
    (call.start env st).state.pool = st.pool := by
  cases call <;> rfl

@[simp] theorem MiningCall.chain_start (env : Env) (st : MineState) (call : MiningCall) :
    (call.start env st).state.chain = st.chain := by
  cases call <;> rfl

private theorem repeatWhile_confirmRound (env : Env) (difficulty : Int32)
    (settle : Ledger → Block → Outcome Ledger) (st : MineState) :
    repeatWhile (confirmRound env difficulty settle) (fun st => pendingIsEmpty st.pool)
      (pendingCount st.pool) st =
    repeatFor (confirmRound env difficulty settle) st.pool.blocks.length st :=
  repeatWhile_eq_repeatFor (fun st => st.pool.blocks.length) (fun st => by simp [pendingIsEmpty])
    (fun st n left => by rw [pool_confirmRound, List.length_tail, left, Nat.add_sub_cancel]) rfl

/-- The `while` loops of solo and cloud mining and the `for` loop of pool mining are
one loop over the blocks found pending. -/
theorem mine_eq (env : Env) (st : MineState) (difficulty : Int32) (call : MiningCall) :
    mine env st difficulty call =
      if call.Rejected st then ⟨false, st, false⟩
      else
        let mined := call.loop env st difficulty
        if mined.ok then
          let finished := call.finish env st.pool.blocks.length mined.state.ledger
          ⟨true, { mined.state with ledger := finished.state },
            (call.start env st).overflow || mined.overflow || finished.overflow⟩
        else ⟨false, mined.state, (call.start env st).overflow || mined.overflow⟩ := by
  have empty_iff : pendingIsEmpty st.pool = true ↔ st.pool.blocks = [] := by
    simp [pendingIsEmpty]
  cases call with
  | solo minerId =>
    simp only [mine, miningSolo, MiningCall.Rejected, empty_iff]
    by_cases empty : st.pool.blocks = []
    · rw [if_pos empty, if_pos empty]
    · rw [if_neg empty, if_neg empty]
      -- nothing comes before or after this loop
      unfold confirmPendingBlock
      rw [repeatWhile_confirmRound]
      simp only [MiningCall.start, MiningCall.finish, MiningCall.loop, MiningCall.round,
        MiningCall.settle, Bool.false_or, Bool.or_false]
      split
      next ok => exact Outcome.eq_mk ok
      next failed => exact Outcome.eq_mk (Bool.eq_false_iff.mpr failed)
  | pool minerCount =>
    simp only [mine, miningPool, MiningCall.Rejected, empty_iff]
    by_cases empty : st.pool.blocks = []
    · rw [if_pos empty, if_pos empty]
    · rw [if_neg empty, if_neg empty]
      simp only [MiningCall.start, MiningCall.finish, MiningCall.loop, MiningCall.round,
        MiningCall.settle, Bool.or_false, pendingCount]
      split
      next ok => rw [ok]
      next failed => rw [Bool.eq_false_iff.mpr failed]
  | cloud rounds rentalFee maintenanceFee =>
    simp only [mine, miningCloud, MiningCall.Rejected, empty_iff]
    -- the rounds are checked before the pool
    by_cases outside : rounds < cloudMinRounds ∨ cloudMaxRounds < rounds
    · rw [if_pos outside, if_pos (Or.inl outside)]
    · rw [if_neg outside]
      by_cases empty : st.pool.blocks = []
      · rw [if_pos empty, if_pos (Or.inr empty)]
      · rw [if_neg empty, if_neg (not_or.mpr ⟨outside, empty⟩), repeatWhile_confirmRound]
        rfl

theorem mine_of_rejected {env : Env} {st : MineState} {difficulty : Int32} {call : MiningCall}
    (rejected : call.Rejected st) : mine env st difficulty call = ⟨false, st, false⟩ := by
  rw [mine_eq, if_pos rejected]

/-- The loop decides about the chain and the pool. -/
theorem mine_of_accepted (env : Env) {st : MineState} (difficulty : Int32) {call : MiningCall}
    (accepted : ¬call.Rejected st) :
    (mine env st difficulty call).state.chain = (call.loop env st difficulty).state.chain ∧
    (mine env st difficulty call).state.pool = (call.loop env st difficulty).state.pool := by
  rw [mine_eq, if_neg accepted]
  simp only
  split <;> exact ⟨rfl, rfl⟩

section Unchecked

variable (env : Env) {call : MiningCall}
  (settles : ∀ ledger block, (call.settle env ledger block).ok = true)
include settles

/-- Where settling never fails, a loop appends at least `k` blocks exactly if its first `k`
rounds can. -/
theorem loop_appends_iff (st : MineState) (difficulty : Int32) {k : Nat}
    (few : k ≤ st.pool.blocks.length) :
    st.chain.blocks.length + k ≤ (call.loop env st difficulty).state.chain.blocks.length ↔
      EachRound (call.round env difficulty) (FrontConfirmable env difficulty) k
        (call.start env st).state := by
  have counted := repeatFor_count (call.round env difficulty) (fun st => st.chain.blocks.length)
    (fun st => (confirmRound_counts env settles difficulty st).1)
    (fun st => (confirmRound_counts env settles difficulty st).2) few (call.start env st).state
  simp only [MiningCall.chain_start] at counted
  exact counted

/-- A loop all of whose rounds can append a block appends one for each pending block. -/
theorem loop_appends_all (st : MineState) (difficulty : Int32)
    (each : EachRound (call.round env difficulty) (FrontConfirmable env difficulty)
      st.pool.blocks.length (call.start env st).state) :
    (call.loop env st difficulty).state.chain.blocks.length =
      st.chain.blocks.length + st.pool.blocks.length := by
  have least := (loop_appends_iff env settles st difficulty (Nat.le_refl _)).mpr each
  have most := repeatFor_count_le (call.round env difficulty) (fun st => st.chain.blocks.length)
    (fun st => by
      obtain ⟨goes, stops⟩ := confirmRound_counts env settles difficulty st
      by_cases confirmable : FrontConfirmable env difficulty st
      · exact (goes confirmable).2.le
      · exact (stops confirmable).2.le.trans (Nat.le_succ _))
    st.pool.blocks.length (call.start env st).state
  rw [MiningCall.chain_start] at most
  exact Nat.le_antisymm most least

theorem loop_ok_iff (st : MineState) (difficulty : Int32) :
    (call.loop env st difficulty).ok = true ↔
      EachRound (call.round env difficulty) (FrontConfirmable env difficulty)
        st.pool.blocks.length (call.start env st).state := by
  apply repeatFor_ok_iff
  intro st
  obtain ⟨goes, stops⟩ := confirmRound_counts env settles difficulty st
  constructor
  · intro ok
    by_contra unconfirmable
    have failed := (stops unconfirmable).1
    rw [MiningCall.round] at ok
    simp [ok] at failed
  · exact fun confirmable => (goes confirmable).1

end Unchecked

/-- A relation between the chain and the pool before and after, kept by every round,
holds across a call: what comes before and after the loop leaves both alone. -/
theorem mine_rel {env : Env} {difficulty : Int32} (call : MiningCall)
    (R : Blockchain → PendingPool → Blockchain → PendingPool → Prop)
    (refl : ∀ chain pool, R chain pool chain pool)
    (trans : ∀ {c p c' p' c'' p''}, R c p c' p' → R c' p' c'' p'' → R c p c'' p'')
    (step : ∀ st : MineState, R st.chain st.pool (call.round env difficulty st).state.chain
      (call.round env difficulty st).state.pool) (st : MineState) :
    R st.chain st.pool (mine env st difficulty call).state.chain
      (mine env st difficulty call).state.pool := by
  have loop := repeatFor_rel (call.round env difficulty)
    (fun before after => R before.chain before.pool after.chain after.pool)
    (fun st => refl st.chain st.pool) trans (p := fun _ => True) (fun st _ => step st)
    (eachRound_of_forall (fun _ => trivial) st.pool.blocks.length (call.start env st).state)
  rw [MiningCall.chain_start, MiningCall.pool_start] at loop
  by_cases rejected : call.Rejected st
  · rw [mine_of_rejected rejected]
    exact refl _ _
  · obtain ⟨chain, pool⟩ := mine_of_accepted env difficulty rejected
    rw [chain, pool]
    exact loop

/-- The blocks of a chain name each other's hashes. -/
def LinkedChain (blocks : List Block) : Prop :=
  HashChain.Linked Block.hash Block.previousHash genesisPrevHash blocks

/-- A mining call appends sealed blocks that meet its target, and keeps the links. -/
theorem mine_appends (env : Env) (st : MineState) (difficulty : Int32) (call : MiningCall) :
    ∃ appended, (mine env st difficulty call).state.chain.blocks = st.chain.blocks ++ appended ∧
      (∀ block ∈ appended, Sealed env block ∧ hashMeetsDifficulty block.hash difficulty = true) ∧
      (LinkedChain st.chain.blocks → LinkedChain (st.chain.blocks ++ appended)) := by
  refine mine_rel call (fun before _ after _ => ∃ appended,
    after.blocks = before.blocks ++ appended ∧
      (∀ block ∈ appended, Sealed env block ∧ hashMeetsDifficulty block.hash difficulty = true) ∧
      (LinkedChain before.blocks → LinkedChain (before.blocks ++ appended))) ?_ ?_ ?_ st
  · intro chain _
    exact ⟨[], by simp⟩
  · rintro first _ second _ third _ ⟨xs, grown, made, linked⟩ ⟨ys, grown', made', linked'⟩
    rw [grown, List.append_assoc] at grown' linked'
    refine ⟨xs ++ ys, grown', ?_, fun links => linked' (linked links)⟩
    exact List.forall_mem_append.mpr ⟨made, made'⟩
  · intro st
    have step := call.roundStep env difficulty st
    generalize call.round env difficulty st = result at step ⊢
    cases step with
    | idle | lost => exact ⟨[], by simp⟩
    | @confirmed front mined _ _ _ _ _ mining appended =>
      refine ⟨[mined], appended, by simpa using ⟨mining.isSealed, mining.meets⟩, ?_⟩
      intro links
      exact (HashChain.linked_concat _ _ _ _ _).mpr ⟨links, mining.previousHash⟩

end Attendance
