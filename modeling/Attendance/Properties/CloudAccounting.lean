import Attendance.CloudProfit
import Attendance.Sample

/-!
# The accounts of a cloud rental

`mining_cloud` takes its two fees from the command line and adds them up unchecked. The
accounts of a call are exact, its warnings agree and its credit is due exactly if the fees
and the profit of all rounds are within `int`.
-/
namespace Attendance

open CText MachineInt Calls

/-- The sums of the call stay in range and are exact, the warning about the whole rental is
given exactly for a loss and exactly if every round gave its own, and a call that returns true
credits `CLOUD_USER` exactly for a profit. -/
structure AccountsExactly (env : Env) (st : MineState)
    (difficulty rounds rentalFee maintenanceFee : Int32) (totals : CloudTotals) : Prop where
  inRange : totals.overflow = false
  gross : totals.grossEarnings.toInt = rounds.toInt * 20 * st.pool.blocks.length
  fees : totals.totalFees.toInt = rounds.toInt * (rentalFee.toInt + maintenanceFee.toInt)
  net : totals.netProfit.toInt = rounds.toInt * 20 * st.pool.blocks.length -
    rounds.toInt * (rentalFee.toInt + maintenanceFee.toInt)
  overall : totals.overallWarning = true ↔ rounds.toInt * 20 * st.pool.blocks.length -
    rounds.toInt * (rentalFee.toInt + maintenanceFee.toInt) < 0
  everyRound : totals.overallWarning = true ↔ ∀ warning ∈ totals.warnings, warning = true
  credited : (miningCloud env st difficulty rounds rentalFee maintenanceFee).ok = true →
    (cloudCredits env st difficulty rounds rentalFee maintenanceFee ≠ [] ↔
      0 < rounds.toInt * 20 * st.pool.blocks.length -
        rounds.toInt * (rentalFee.toInt + maintenanceFee.toInt))

section Totals

variable {blocksToMine : Nat} {rentalFee maintenanceFee : Int32} {rounds : Nat}

/-- Exact accumulators compare as one round does. -/
private theorem overallWarning_iff (few : blocksToMine ≤ maxPending) (short : rounds ≤ 5)
    (some_round : 0 < rounds) (fit : FeesFit blocksToMine rentalFee maintenanceFee rounds) :
    (cloudRounds blocksToMine rentalFee maintenanceFee rounds).overallWarning = true ↔
      exactNet blocksToMine rentalFee maintenanceFee < 0 := by
  have exact' := exactAt_cloudRounds few short fit
  have positive : (0 : Int) < rounds := Int.natCast_pos.mpr some_round
  rw [CloudTotals.overallWarning, decide_eq_true_iff, Int32.lt_iff_toInt_lt, exact'.gross,
    exact'.fees, Int.mul_lt_mul_left positive, exactNet]
  omega

private theorem overallWarning_iff_warnings (few : blocksToMine ≤ maxPending)
    (short : rounds ≤ 5) (some_round : 0 < rounds)
    (fit : FeesFit blocksToMine rentalFee maintenanceFee rounds) :
    (cloudRounds blocksToMine rentalFee maintenanceFee rounds).overallWarning = true ↔
      ∀ warning ∈ (cloudRounds blocksToMine rentalFee maintenanceFee rounds).warnings,
        warning = true := by
  rw [warnings_cloudRounds, List.forall_mem_map, overallWarning_iff few short some_round fit]
  -- each round gives its warning exactly if one round is a loss
  have each {before : Nat} (member : before ∈ List.range rounds) :=
    overallWarning_iff few (Nat.le_trans (List.mem_range.mp member) short) (Nat.succ_pos before)
      (fit.mono (List.mem_range.mp member))
  constructor
  · exact fun loss before member => (each member).mpr loss
  · intro all
    have first : 0 ∈ List.range rounds := List.mem_range.mpr some_round
    exact (each first).mp (all 0 first)

end Totals

/-- For every allowed number of rounds, every pool and all fees, the accounts of the call are
exact exactly if the sums over all rounds fit, and a profit that the call gets to credit finds
room after the rewards of the blocks. -/
theorem cloud_accounts_exactly_iff (env : Env) (st : MineState)
    (difficulty rounds rentalFee maintenanceFee : Int32) (pending : st.pool.blocks ≠ [])
    (allowed : cloudMinRounds ≤ rounds ∧ rounds ≤ cloudMaxRounds) :
    let blocksToMine := st.pool.blocks.length
    let fees := rounds.toInt * (rentalFee.toInt + maintenanceFee.toInt)
    let net := rounds.toInt * 20 * blocksToMine - fees
    AccountsExactly env st difficulty rounds rentalFee maintenanceFee
      (cloudRounds blocksToMine rentalFee maintenanceFee rounds.toInt.toNat) ↔
      InInt fees ∧ InInt net ∧
      (AllConfirmable env difficulty st → 0 < net →
        st.ledger.HasRoomAfter (paidStudents st.pool.blocks) cloudUser) := by
  intro blocksToMine fees net
  have few : blocksToMine ≤ maxPending := st.pool.fits
  have low : (1 : Int) ≤ rounds.toInt := Int32.le_iff_toInt_le.mp allowed.1
  have high : rounds.toInt ≤ 5 := Int32.le_iff_toInt_le.mp allowed.2
  have count : (rounds.toInt.toNat : Int) = rounds.toInt := Int.toNat_of_nonneg (by omega)
  -- the exact totals of all rounds are those of one round, times the rounds
  have profit := mul_exactNet blocksToMine rentalFee maintenanceFee rounds.toInt.toNat
  rw [count, ← Int.mul_assoc, exactFees] at profit
  have fits : FeesFit blocksToMine rentalFee maintenanceFee rounds.toInt.toNat ↔
      InInt fees ∧ InInt net := by
    rw [FeesFit, count, profit, exactFees]
  have accepted := not_rejected_cloud rentalFee maintenanceFee pending allowed
  have returns : (miningCloud env st difficulty rounds rentalFee maintenanceFee).ok = true ↔
      AllConfirmable env difficulty st :=
    (ok_miningCloud_iff accepted).trans (ok_cloudLoop_iff ..)
  rw [← and_assoc, ← fits]
  constructor
  · intro accounts
    refine ⟨(overflow_cloudRounds_iff few (by omega)).mp accounts.inRange, ?_⟩
    intro all gain
    have credited := (accounts.credited (returns.mpr all)).mpr gain
    rw [cloudCredits_of_allConfirmable env all] at credited
    exact (ite_ne_right_iff.mp credited).1.2
  · rintro ⟨fit, room⟩
    have exact' := exactAt_cloudRounds few (by omega) fit
    have overall := overallWarning_iff few (by omega) (by omega) fit
    have positive : 0 < rounds.toInt := by omega
    have netProfit : (cloudRounds blocksToMine rentalFee maintenanceFee
        rounds.toInt.toNat).netProfit.toInt = net := by
      rw [exact'.net, count, profit]
    refine ⟨(overflow_cloudRounds_iff few (by omega)).mpr fit, ?_, ?_, netProfit, ?_,
      overallWarning_iff_warnings few (by omega) (by omega) fit, ?_⟩
    · rw [exact'.gross, count, Int.mul_assoc]
    · rw [exact'.fees, count, exactFees]
    -- as the number of rounds is positive, all rounds make a loss if one does
    · have loss := Int.mul_lt_mul_left (b := exactNet blocksToMine rentalFee maintenanceFee)
        (c := 0) positive
      rw [overall, ← profit, ← loss, Int.mul_zero]
    · intro ok
      have all := returns.mp ok
      have gains : 0 < (cloudRounds (pendingCount st.pool) rentalFee maintenanceFee
          rounds.toInt.toNat).netProfit ↔ 0 < net := by
        rw [Int32.lt_iff_toInt_lt, Int32.toInt_zero]
        exact iff_of_eq (congrArg (0 < ·) netProfit)
      rw [cloudCredits_of_allConfirmable env all, ite_ne_right_iff, gains]
      constructor
      · exact fun credited => credited.1.1
      · exact fun gain => ⟨⟨gain, room all gain⟩, List.cons_ne_nil _ _⟩

/-- Three rounds of rental with fees of 7 for one pending block. -/
theorem cloud_accounts_exactly_iff_sample :
    let st := Sample.onePending .account
    let fees := (3 : Int32).toInt * ((5 : Int32).toInt + (2 : Int32).toInt)
    let net := (3 : Int32).toInt * 20 * st.pool.blocks.length - fees
    AccountsExactly Sample.env st 1 3 5 2
      (cloudRounds st.pool.blocks.length 5 2 (3 : Int32).toInt.toNat) ↔
      InInt fees ∧ InInt net ∧
      (AllConfirmable Sample.env 1 st → 0 < net →
        st.ledger.HasRoomAfter (paidStudents st.pool.blocks) cloudUser) :=
  cloud_accounts_exactly_iff Sample.env (Sample.onePending .account) 1 3 5 2 (by decide +kernel)
    (by decide)

/-- Five rounds at a rental fee of 500000000: the fees wrap around, and a loss is credited as
a profit. -/
theorem wrapped_fees_credited :
    let st := Sample.onePending .account
    let totals := cloudRounds st.pool.blocks.length 500000000 0 5
    st.pool.blocks.length = 1 ∧ totals.overflow = true ∧ totals.grossEarnings = 100 ∧
    totals.totalFees = -1794967296 ∧ totals.netProfit = 1794967396 ∧
    totals.warnings = [true, true, true, true, false] ∧ totals.overallWarning = false ∧
    cloudCredits Sample.env st 1 5 500000000 0 = [1794967396] ∧
    ¬AccountsExactly Sample.env st 1 5 500000000 0 totals := by
  intro st totals
  have overflows : totals.overflow = true := by decide +kernel
  refine ⟨by decide +kernel, overflows, by decide +kernel, by decide +kernel, by decide +kernel,
    by decide +kernel, by decide +kernel, by decide +kernel, ?_⟩
  intro accounts
  rw [accounts.inRange] at overflows
  cases overflows

end Attendance
