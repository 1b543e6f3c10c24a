import Attendance.MiningReport
import Attendance.Sample
import Mathlib.Data.UInt

/-!
# The report of solo mining adds up

When `mining_solo` returns true, every pending block is on the chain, the number of blocks it
prints is theirs, and the number of attempts is that of the nonces found in them. The miner has got
the mining reward for each, which is more than the total the last line gives.
-/
namespace Attendance

open CText Calls

/-- The loop over as many blocks as are pending. -/
private theorem soloRounds_ok {env : Env} {difficulty : Int32} {minerId : List Char}
    (short : minerId.length < studentIdLen) {n : Nat} {run : SoloRun}
    (size : run.st.pool.blocks.length = n)
    (ok : (repeatFor (soloRound env difficulty minerId) n run).ok = true)
    (inRange : (repeatFor (soloRound env difficulty minerId) n run).overflow = false) :
    let after := (repeatFor (soloRound env difficulty minerId) n run).state
    ∃ mined, after.st.chain.blocks = run.st.chain.blocks ++ mined ∧ mined.length = n ∧
      after.st.pool.blocks = [] ∧ after.confirmed = run.confirmed + n ∧
      after.totalAttempts = run.totalAttempts + (mined.map fun block => block.nonce + 1).sum ∧
      ∀ studentId, after.st.ledger.exactBalance studentId =
        run.st.ledger.exactBalance studentId + earned studentId mined +
          if studentId = minerId then miningReward.toInt * n else 0 := by
  induction n generalizing run with
  | zero =>
    refine ⟨[], by simp [repeatFor], rfl, List.length_eq_zero_iff.mp size, rfl, ?_, ?_⟩
    · simp [repeatFor]
    · simp [repeatFor, earned]
  | succ n ih =>
    simp only [repeatFor] at ok inRange ⊢
    split at ok
    next first =>
      rw [if_pos first] at inRange ⊢
      simp only [Bool.or_eq_false_iff] at inRange
      -- one round, and then the others from where it ends
      obtain ⟨mined, chain, confirmed, attempts, gains⟩ := soloRound_ok short first inRange.1
      have shorter : (soloRound env difficulty minerId run).state.st.pool.blocks.length = n := by
        rw [pool_soloRound, List.length_tail, size, Nat.add_sub_cancel]
      obtain ⟨later, chain', length, pool, confirmed', attempts', gains'⟩ :=
        ih shorter ok inRange.2
      refine ⟨mined :: later, ?_, by simp [length], pool, ?_, ?_, fun studentId => ?_⟩
      · rw [chain', chain, List.append_assoc, List.singleton_append]
      · rw [confirmed', confirmed]
        omega
      · rw [attempts', attempts, List.map_cons, List.sum_cons, UInt64.add_assoc]
      · rw [gains', gains, ← List.singleton_append, earned_append]
        have one : earned studentId [mined] = rewardFor studentId mined := by simp [earned]
        have twenty : (miningReward : Int32).toInt = 20 := rfl
        rw [one, twenty]
        split <;> omega
    next failed => exact absurd ok failed

/-- For every chain, pool and ledger, and a miner's id that fits its field: the counting version of
`mining_solo` does what the plain one does; and when it returns true, with no `int` overflow, the
blocks it reports are those it appended, one for each that was pending, the attempts are as many as
the nonces of these blocks say, and every balance has grown by the rewards of these blocks and, for
the miner, by twenty coins for each. What the last line prints as the total reward is the number of
blocks. -/
theorem solo_report_adds_up (env : Env) (st : MineState) (difficulty : Int32)
    (minerId : Option (List Char)) (short : (minerId.getD soloMiner).length < studentIdLen) :
    let result := miningSoloCounting env st difficulty minerId
    let after := result.state
    miningSolo env st difficulty minerId = ⟨result.ok, after.st, result.overflow⟩ ∧
    (result.ok = true → result.overflow = false → ∃ mined,
      after.st.chain.blocks = st.chain.blocks ++ mined ∧ after.st.pool.blocks = [] ∧
      after.confirmed = st.pool.blocks.length ∧ mined.length = st.pool.blocks.length ∧
      after.totalAttempts = (mined.map fun block => block.nonce + 1).sum ∧
      ∀ studentId, after.st.ledger.exactBalance studentId =
        st.ledger.exactBalance studentId + earned studentId mined +
          if studentId = minerId.getD soloMiner then miningReward.toInt * after.confirmed
          else 0) := by
  refine ⟨miningSolo_eq env st difficulty minerId, fun ok inRange => ?_⟩
  unfold miningSoloCounting at ok inRange ⊢
  split at ok
  next => cases ok
  next pending =>
    rw [if_neg pending] at inRange ⊢
    -- the `while` loop has one round for each pending block
    have loop : repeatWhile (soloRound env difficulty (minerId.getD soloMiner))
        (fun run => pendingIsEmpty run.st.pool) (pendingCount st.pool) { st } =
        repeatFor (soloRound env difficulty (minerId.getD soloMiner)) st.pool.blocks.length { st } :=
      repeatWhile_eq_repeatFor (fun run => run.st.pool.blocks.length)
        (fun run => by simp [pendingIsEmpty])
        (fun run n left => by rw [pool_soloRound, List.length_tail, left, Nat.add_sub_cancel]) rfl
    rw [loop] at ok inRange ⊢
    have size : ({ st } : SoloRun).st.pool.blocks.length = st.pool.blocks.length := rfl
    obtain ⟨mined, chain, length, pool, confirmed, attempts, gains⟩ :=
      soloRounds_ok short size ok inRange
    rw [Nat.zero_add] at confirmed
    rw [UInt64.zero_add] at attempts
    refine ⟨mined, chain, pool, confirmed, length, attempts, fun studentId => ?_⟩
    rw [gains studentId, confirmed]

/-- Two records are pending. -/
def pendingTwo : MineState :=
  (Runs.final (sessionStep Sample.env Sample.registry) (Sample.start .account)
    [.mark "ALU001".toList "PRESENT".toList, .mark "ALU002".toList "LATE".toList]).toMineState

theorem solo_report_adds_up_sample :
    ∃ mined, (miningSoloCounting Sample.env pendingTwo 1 none).state.st.chain.blocks =
        pendingTwo.chain.blocks ++ mined ∧
      (miningSoloCounting Sample.env pendingTwo 1 none).state.confirmed = 2 ∧
      (miningSoloCounting Sample.env pendingTwo 1 none).state.totalAttempts =
        (mined.map fun block => block.nonce + 1).sum ∧
      (miningSoloCounting Sample.env pendingTwo 1 none).state.st.ledger.exactBalance soloMiner =
        pendingTwo.ledger.exactBalance soloMiner + earned soloMiner mined + 40 := by
  obtain ⟨mined, chain, _, _, _, attempts, gains⟩ :=
    (solo_report_adds_up Sample.env pendingTwo 1 none (by decide)).2 (by decide +kernel)
      (by decide +kernel)
  have two : (miningSoloCounting Sample.env pendingTwo 1 none).state.confirmed = 2 := by
    decide +kernel
  have forty : (miningReward : Int32).toInt * ((2 : Nat) : Int) = 40 := by decide
  have paid := gains soloMiner
  simp only [Option.getD_none, if_true, two, forty] at paid
  exact ⟨mined, chain, two, attempts, paid⟩

end Attendance
