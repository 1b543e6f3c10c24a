import Attendance.Payouts
import Attendance.Room

/-!
# The profit of a cloud rental

The accumulators of `mining_cloud` after its rental rounds, in closed form, the fees for which
they are exact, and what the call credits in the end.
-/
namespace Attendance

open CText MachineInt Calls

section Totals

variable (blocksToMine : Nat) (rentalFee maintenanceFee : Int32)

/-- The fees of a round in unbounded integers. -/
def exactFees : Int := rentalFee.toInt + maintenanceFee.toInt

/-- The profit of a round in unbounded integers. -/
def exactNet : Int := 20 * (blocksToMine : Int) - exactFees rentalFee maintenanceFee

theorem mul_exactNet (rounds : Nat) :
    (rounds : Int) * exactNet blocksToMine rentalFee maintenanceFee =
      rounds * (20 * (blocksToMine : Int)) - rounds * exactFees rentalFee maintenanceFee :=
  Int.mul_sub ..

/-- After some rounds each accumulator is that many times its addend, wrapped once. -/
structure WrappedAt (rounds : Nat) (totals : CloudTotals) : Prop where
  gross : totals.grossEarnings = Int32.ofInt (rounds * (20 * (blocksToMine : Int)))
  fees : totals.totalFees = Int32.ofInt (rounds * exactFees rentalFee maintenanceFee)
  net : totals.netProfit = Int32.ofInt (rounds * exactNet blocksToMine rentalFee maintenanceFee)
  cumulativeGross : totals.cumulativeGross = totals.grossEarnings
  cumulativeFees : totals.cumulativeFees = totals.totalFees

private theorem ofInt_roundReward :
    Int32.ofInt (20 * (blocksToMine : Int)) = miningReward * Int32.ofNat blocksToMine := by
  rw [Int32.ofInt_mul, Int32.ofInt_eq_ofNat]
  rfl

private theorem ofInt_exactFees :
    Int32.ofInt (exactFees rentalFee maintenanceFee) = rentalFee + maintenanceFee := by
  rw [exactFees, Int32.ofInt_add, Int32.ofInt_toInt, Int32.ofInt_toInt]

theorem wrappedAt_cloudRounds (rounds : Nat) :
    WrappedAt blocksToMine rentalFee maintenanceFee rounds
      (cloudRounds blocksToMine rentalFee maintenanceFee rounds) := by
  induction rounds with
  | zero => constructor <;> simp [cloudRounds]
  | succ rounds ih =>
    have step (z : Int) :
        Int32.ofInt ((rounds + 1 : Nat) * z) = Int32.ofInt (rounds * z) + Int32.ofInt z := by
      rw [Int.natCast_succ, Int.add_mul, Int.one_mul, Int32.ofInt_add]
    have net : Int32.ofInt (exactNet blocksToMine rentalFee maintenanceFee) =
        miningReward * Int32.ofNat blocksToMine - (rentalFee + maintenanceFee) := by
      rw [exactNet, Int32.ofInt_sub, ofInt_roundReward, ofInt_exactFees]
    constructor
    · simp only [cloudRounds, cloudRound, ih.gross, step, ofInt_roundReward]
    · simp only [cloudRounds, cloudRound, ih.fees, step, ofInt_exactFees]
    · simp only [cloudRounds, cloudRound, ih.net, step, net]
    · simp only [cloudRounds, cloudRound, ih.cumulativeGross]
    · simp only [cloudRounds, cloudRound, ih.cumulativeFees]

/-- The fees and the profit of all rounds are within `int`. -/
def FeesFit (rounds : Nat) : Prop :=
  InInt (rounds * exactFees rentalFee maintenanceFee) ∧
    InInt (rounds * exactNet blocksToMine rentalFee maintenanceFee)

instance (rounds : Nat) : Decidable (FeesFit blocksToMine rentalFee maintenanceFee rounds) :=
  inferInstanceAs (Decidable (_ ∧ _))

/-- The accumulators have their exact values. -/
structure ExactAt (rounds : Nat) (totals : CloudTotals) : Prop where
  gross : totals.grossEarnings.toInt = rounds * (20 * (blocksToMine : Int))
  fees : totals.totalFees.toInt = rounds * exactFees rentalFee maintenanceFee
  net : totals.netProfit.toInt = rounds * exactNet blocksToMine rentalFee maintenanceFee

variable {blocksToMine rentalFee maintenanceFee}

/-- The earnings of the rounds a rental can have are within `int`. -/
private theorem inInt_gross {rounds : Nat} (few : blocksToMine ≤ maxPending)
    (short : rounds ≤ 5) : InInt (rounds * (20 * (blocksToMine : Int))) := by
  have all : InInt ((5 : Nat) * (20 * (blocksToMine : Int))) := by
    simp only [maxPending] at few
    constructor <;> omega
  exact inInt_mul_of_le all short

theorem exactAt_cloudRounds {rounds : Nat} (few : blocksToMine ≤ maxPending)
    (short : rounds ≤ 5) (fit : FeesFit blocksToMine rentalFee maintenanceFee rounds) :
    ExactAt blocksToMine rentalFee maintenanceFee rounds
      (cloudRounds blocksToMine rentalFee maintenanceFee rounds) := by
  have wrapped := wrappedAt_cloudRounds blocksToMine rentalFee maintenanceFee rounds
  refine ⟨?_, ?_, ?_⟩
  · rw [wrapped.gross, toInt_ofInt_of_inInt (inInt_gross few short)]
  · rw [wrapped.fees, toInt_ofInt_of_inInt fit.1]
  · rw [wrapped.net, toInt_ofInt_of_inInt fit.2]

theorem FeesFit.mono {rounds fewer : Nat}
    (fit : FeesFit blocksToMine rentalFee maintenanceFee rounds) (less : fewer ≤ rounds) :
    FeesFit blocksToMine rentalFee maintenanceFee fewer :=
  ⟨inInt_mul_of_le fit.1 less, inInt_mul_of_le fit.2 less⟩

/-- A round that starts from exact accumulators stays in range exactly if the fees and the
profit fit once more. -/
private theorem overflow_cloudRound_iff {rounds : Nat} {totals : CloudTotals}
    (few : blocksToMine ≤ maxPending) (short : rounds + 1 ≤ 5) (inRange : totals.overflow = false)
    (same : totals.cumulativeGross = totals.grossEarnings ∧
      totals.cumulativeFees = totals.totalFees)
    (exact' : ExactAt blocksToMine rentalFee maintenanceFee rounds totals) :
    (cloudRound blocksToMine rentalFee maintenanceFee totals).overflow = false ↔
      FeesFit blocksToMine rentalFee maintenanceFee (rounds + 1) := by
  have reward : (miningReward : Int32).toInt = 20 := rfl
  have count : (Int32.ofNat blocksToMine).toInt = blocksToMine :=
    Int32.toInt_ofNat_of_lt (by simp only [maxPending] at few; omega)
  have single : InInt (20 * (blocksToMine : Int)) := by
    simpa using inInt_gross few (show 1 ≤ 5 by decide)
  have product : mulOverflows miningReward (Int32.ofNat blocksToMine) = false := by
    rwa [mulOverflows_eq_false_iff, reward, count]
  have rewardValue :
      (miningReward * Int32.ofNat blocksToMine).toInt = 20 * (blocksToMine : Int) := by
    rw [toInt_mul_of_fits product, reward, count]
  have gross := inInt_gross few short
  have step (z : Int) : ((rounds + 1 : Nat) : Int) * z = rounds * z + z := by
    rw [Int.natCast_succ, Int.add_mul, Int.one_mul]
  rw [step] at gross
  simp only [cloudRound, inRange, product, same, Bool.false_or, Bool.or_eq_false_iff,
    addOverflows_eq_false_iff, subOverflows_eq_false_iff, rewardValue, exact'.gross, exact'.fees,
    exact'.net, FeesFit, step]
  -- in range, the fees and the profit of one round are exact as well
  have values (fees : InInt (exactFees rentalFee maintenanceFee))
      (net : InInt (exactNet blocksToMine rentalFee maintenanceFee)) :
      (rentalFee + maintenanceFee).toInt = exactFees rentalFee maintenanceFee ∧
      (miningReward * Int32.ofNat blocksToMine - (rentalFee + maintenanceFee)).toInt =
        exactNet blocksToMine rentalFee maintenanceFee := by
    have feesValue : (rentalFee + maintenanceFee).toInt = exactFees rentalFee maintenanceFee :=
      toInt_add_of_fits (addOverflows_eq_false_iff.mpr fees)
    refine ⟨feesValue, ?_⟩
    rw [exactNet, ← feesValue, ← rewardValue] at net ⊢
    exact toInt_sub_of_fits (subOverflows_eq_false_iff.mpr net)
  constructor
  · rintro ⟨⟨⟨⟨⟨⟨fees, net⟩, _⟩, total⟩, profit⟩, _⟩, _⟩
    have feesValue : (rentalFee + maintenanceFee).toInt = exactFees rentalFee maintenanceFee :=
      toInt_add_of_fits (addOverflows_eq_false_iff.mpr fees)
    rw [feesValue] at net
    rw [(values fees net).1] at total
    rw [(values fees net).2] at profit
    exact ⟨total, profit⟩
  · intro fit
    have all : FeesFit blocksToMine rentalFee maintenanceFee (rounds + 1) := by
      simpa only [FeesFit, step] using fit
    have once := all.mono (Nat.le_add_left 1 rounds)
    simp only [FeesFit, Int.natCast_one, Int.one_mul] at once
    obtain ⟨feesValue, netValue⟩ := values once.1 once.2
    rw [feesValue, netValue]
    exact ⟨⟨⟨⟨⟨⟨once.1, once.2⟩, gross⟩, fit.1⟩, fit.2⟩, gross⟩, fit.1⟩

/-- The round loop stays in range exactly if the fees and the profit of all rounds fit. -/
theorem overflow_cloudRounds_iff {rounds : Nat} (few : blocksToMine ≤ maxPending)
    (short : rounds ≤ 5) :
    (cloudRounds blocksToMine rentalFee maintenanceFee rounds).overflow = false ↔
      FeesFit blocksToMine rentalFee maintenanceFee rounds := by
  induction rounds with
  | zero => simp [cloudRounds, FeesFit, InInt]
  | succ rounds ih =>
    have before := ih (Nat.le_of_succ_le short)
    by_cases fit : FeesFit blocksToMine rentalFee maintenanceFee rounds
    · have wrapped := wrappedAt_cloudRounds blocksToMine rentalFee maintenanceFee rounds
      exact overflow_cloudRound_iff few short (before.mpr fit)
        ⟨wrapped.cumulativeGross, wrapped.cumulativeFees⟩
        (exactAt_cloudRounds few (Nat.le_of_succ_le short) fit)
    -- a round that left the range before has left it for good
    · refine iff_of_false ?_ (fun later => fit (later.mono (Nat.le_succ rounds)))
      intro inRange
      simp only [cloudRounds, cloudRound, Bool.or_eq_false_iff] at inRange
      exact fit (before.mp (by simp [inRange]))

/-- The warnings of the rounds compare the fees with the earnings up to each of them. -/
theorem warnings_cloudRounds (blocksToMine : Nat) (rentalFee maintenanceFee : Int32)
    (rounds : Nat) :
    (cloudRounds blocksToMine rentalFee maintenanceFee rounds).warnings =
      (List.range rounds).map fun before =>
        (cloudRounds blocksToMine rentalFee maintenanceFee (before + 1)).overallWarning := by
  induction rounds with
  | zero => rfl
  | succ rounds ih =>
    have wrapped := wrappedAt_cloudRounds blocksToMine rentalFee maintenanceFee rounds
    rw [List.range_succ, List.map_append, ← ih]
    simp only [cloudRounds, cloudRound, CloudTotals.overallWarning, wrapped.cumulativeGross,
      wrapped.cumulativeFees, List.map_cons, List.map_nil]
    rfl

end Totals

/-! ### The credit -/

variable (env : Env)

/-- The amounts that the last lines of `mining_cloud` credit. -/
def cloudUserCredits (ledger : Ledger) (netProfit : Int32) : List Int32 :=
  if 0 < netProfit ∧ (ledgerCreditMiner env ledger cloudUser netProfit).ok = true then [netProfit]
  else []

theorem cloudUserCredits_eq (ledger : Ledger) (netProfit : Int32) :
    cloudUserCredits env ledger netProfit =
      if 0 < netProfit ∧ ledger.HasRoomFor cloudUser then [netProfit] else [] := by
  rw [cloudUserCredits]
  by_cases positive : 0 < netProfit
  · simp only [positive, true_and, ok_ledgerCreditMiner_iff env positive]
  · simp only [positive, false_and]

theorem state_creditCloudUser (ledger : Ledger) (netProfit : Int32) :
    (creditCloudUser env ledger netProfit).state =
      Runs.final (ledgerStep env) ledger
        ((cloudUserCredits env ledger netProfit).map (.creditMiner cloudUser)) := by
  rw [creditCloudUser, cloudUserCredits]
  by_cases positive : 0 < netProfit
  · simp only [positive, if_true, true_and]
    split
    next => rfl
    -- a credit that fails leaves no trace
    next refused =>
      rw [ok_ledgerCreditMiner_iff env positive] at refused
      rw [ledgerCreditMiner_of_full env netProfit refused]
      rfl
  · simp [positive]

/-- The amounts that a cloud call credits. A loop that fails comes before any credit. -/
def cloudCredits (st : MineState) (difficulty rounds rentalFee maintenanceFee : Int32) :
    List Int32 :=
  let mined := (MiningCall.cloud rounds rentalFee maintenanceFee).loop env st difficulty
  let totals := cloudRounds (pendingCount st.pool) rentalFee maintenanceFee rounds.toInt.toNat
  if mined.ok then cloudUserCredits env mined.state.ledger totals.netProfit else []

/-- What the loop of a cloud call needs to confirm every pending block. -/
def AllConfirmable (difficulty : Int32) (st : MineState) : Prop :=
  EachRound (confirmRound env difficulty (settleUnchecked env)) (FrontConfirmable env difficulty)
    st.pool.blocks.length st

theorem ok_cloudLoop_iff (st : MineState) (difficulty rounds rentalFee maintenanceFee : Int32) :
    ((MiningCall.cloud rounds rentalFee maintenanceFee).loop env st difficulty).ok = true ↔
      AllConfirmable env difficulty st := by
  have settles : ∀ ledger block, ((MiningCall.cloud rounds rentalFee maintenanceFee).settle env
      ledger block).ok = true := settleUnchecked_ok env
  exact loop_ok_iff env settles st difficulty

/-- A call that confirms every block credits a profit, if there is room for it after the
rewards of the blocks. -/
theorem cloudCredits_of_allConfirmable {st : MineState} {difficulty : Int32}
    (all : AllConfirmable env difficulty st) (rounds rentalFee maintenanceFee : Int32) :
    let netProfit := (cloudRounds (pendingCount st.pool) rentalFee maintenanceFee
      rounds.toInt.toNat).netProfit
    cloudCredits env st difficulty rounds rentalFee maintenanceFee =
      if 0 < netProfit ∧ st.ledger.HasRoomAfter (paidStudents st.pool.blocks) cloudUser then
        [netProfit]
      else [] := by
  intro netProfit
  have ok := (ok_cloudLoop_iff env st difficulty rounds rentalFee maintenanceFee).mpr all
  have room : ((MiningCall.cloud rounds rentalFee maintenanceFee).loop env st
      difficulty).state.ledger.HasRoomFor cloudUser ↔
      st.ledger.HasRoomAfter (paidStudents st.pool.blocks) cloudUser :=
    hasRoomFor_loop env all cloudUser
  rw [cloudCredits, if_pos ok, cloudUserCredits_eq]
  simp only [room, netProfit]

/-- A cloud call leaves the ledger as its loop and these credits leave it. -/
theorem ledger_miningCloud {st : MineState} (difficulty : Int32)
    {rounds rentalFee maintenanceFee : Int32}
    (accepted : ¬(MiningCall.cloud rounds rentalFee maintenanceFee).Rejected st) :
    (miningCloud env st difficulty rounds rentalFee maintenanceFee).state.ledger =
      Runs.final (ledgerStep env)
        ((MiningCall.cloud rounds rentalFee maintenanceFee).loop env st difficulty).state.ledger
        ((cloudCredits env st difficulty rounds rentalFee maintenanceFee).map
          (.creditMiner cloudUser)) := by
  change (mine env st difficulty (.cloud rounds rentalFee maintenanceFee)).state.ledger = _
  rw [mine_eq, if_neg accepted, cloudCredits]
  simp only
  split
  · exact state_creditCloudUser env _ _
  · rfl

variable {env} in
/-- A call returns true exactly if its loop does. -/
theorem ok_miningCloud_iff {st : MineState} {difficulty rounds rentalFee maintenanceFee : Int32}
    (accepted : ¬(MiningCall.cloud rounds rentalFee maintenanceFee).Rejected st) :
    (miningCloud env st difficulty rounds rentalFee maintenanceFee).ok = true ↔
      ((MiningCall.cloud rounds rentalFee maintenanceFee).loop env st difficulty).ok = true := by
  change (mine env st difficulty (.cloud rounds rentalFee maintenanceFee)).ok = true ↔ _
  rw [mine_eq, if_neg accepted]
  simp only
  split
  next ok => simp [ok]
  next failed => simp [failed]

theorem not_rejected_cloud {st : MineState} {rounds : Int32} (rentalFee maintenanceFee : Int32)
    (pending : st.pool.blocks ≠ []) (allowed : cloudMinRounds ≤ rounds ∧ rounds ≤ cloudMaxRounds) :
    ¬(MiningCall.cloud rounds rentalFee maintenanceFee).Rejected st := by
  rintro ((low | high) | empty)
  · exact Int32.not_lt.mpr allowed.1 low
  · exact Int32.not_lt.mpr allowed.2 high
  · exact pending empty

end Attendance
