import Attendance.Foundation.Runs
import Attendance.Ledger.Operations
import Attendance.Rounds

/-!
# Payouts

Everything mining does to the ledger is a run of credits: rewards of appended blocks
and payments to miners. What credits keep, a mining call keeps.
-/
namespace Attendance

open CText Calls

/-- The call leaves the ledger as a run of credits leaves it, and overflows only if one of
them does. -/
def CreditRun (env : Env) (before : Ledger) (outcome : Outcome Ledger) : Prop :=
  ∃ ops : List LedgerOp, (∀ op ∈ ops, op.IsCredit) ∧
    outcome.state = Runs.final (ledgerStep env) before ops ∧
    (outcome.overflow = false → Runs.Guarded (ledgerStep env) (InRange env) before ops)

variable (env : Env)

variable {env} in
theorem CreditRun.idle (ledger : Ledger) (ok overflow : Bool) :
    CreditRun env ledger ⟨ok, ledger, overflow⟩ :=
  ⟨[], by simp, rfl, fun _ => trivial⟩

theorem CreditRun.single (ledger : Ledger) (op : LedgerOp) (credit : op.IsCredit) :
    CreditRun env ledger (op.call env ledger) :=
  ⟨[op], by simpa using credit, rfl, fun inRange => ⟨inRange, trivial⟩⟩

variable {env} in
theorem CreditRun.trans {ledger : Ledger} {first second : Outcome Ledger}
    (one : CreditRun env ledger first) (two : CreditRun env first.state second) (ok : Bool) :
    CreditRun env ledger ⟨ok, second.state, first.overflow || second.overflow⟩ := by
  obtain ⟨ops, credits, state, inRange⟩ := one
  obtain ⟨ops', credits', state', inRange'⟩ := two
  refine ⟨ops ++ ops', List.forall_mem_append.mpr ⟨credits, credits'⟩, ?_, ?_⟩
  · rw [Runs.final_append, ← state, ← state']
  · intro fits
    simp only [Bool.or_eq_false_iff] at fits
    rw [Runs.guarded_append, ← state]
    exact ⟨inRange fits.1, inRange' fits.2⟩

variable {env} in
theorem CreditRun.of_state {ledger : Ledger} {outcome outcome' : Outcome Ledger}
    (run : CreditRun env ledger outcome) (state : outcome'.state = outcome.state)
    (overflow : outcome'.overflow = false → outcome.overflow = false) :
    CreditRun env ledger outcome' := by
  obtain ⟨ops, credits, same, inRange⟩ := run
  exact ⟨ops, credits, state.trans same, fun fits => inRange (overflow fits)⟩

variable {env} in
/-- What every credit that stays in range keeps, a run of such credits keeps. -/
theorem CreditRun.keeps_inRange {ledger : Ledger} {outcome : Outcome Ledger}
    (run : CreditRun env ledger outcome) (fits : outcome.overflow = false) (I : Ledger → Prop)
    (step : ∀ ledger op, op.IsCredit → InRange env ledger op → I ledger →
      I (ledgerStep env ledger op))
    (initial : I ledger) : I outcome.state := by
  obtain ⟨ops, credits, state, inRange⟩ := run
  have members : Runs.Guarded (ledgerStep env) (fun _ op => op.IsCredit) ledger ops :=
    Runs.guarded_of_forall_mem (ledgerStep env) (fun op member _ => credits op member) ledger
  rw [state]
  exact Runs.guarded_invariant (ledgerStep env) I
    (fun ledger op held ok => step ledger op ok.2 ok.1 held) initial ((inRange fits).and members)

private theorem creditRun_payReward (ledger : Ledger) (block : Block) :
    CreditRun env ledger (payReward env ledger block) := by
  unfold payReward
  split
  · cases built : createRewardTransaction env block with
    | mk created tx =>
      cases created with
      | false => exact .idle ledger _ _
      | true =>
        have run := CreditRun.single env ledger (.confirm block) trivial
        rwa [LedgerOp.call, built] at run
  · exact .idle ledger _ _

private theorem creditRun_settleChecked (minerId : List Char) (ledger : Ledger) (block : Block) :
    CreditRun env ledger (settleChecked env minerId ledger block) := by
  have paid := creditRun_payReward env ledger block
  unfold settleChecked
  simp only
  split
  -- the miner is credited after the student, and only then
  · exact paid.trans (CreditRun.single env _ (.creditMiner minerId miningReward) trivial) _
  · exact paid

private theorem creditRun_settleUnchecked (ledger : Ledger) (block : Block) :
    CreditRun env ledger (settleUnchecked env ledger block) := by
  unfold settleUnchecked
  split
  · exact (CreditRun.single env ledger (.confirm block) trivial).of_state rfl id
  · exact .idle ledger _ _

theorem creditRun_settle (call : MiningCall) (ledger : Ledger) (block : Block) :
    CreditRun env ledger (call.settle env ledger block) := by
  cases call with
  | solo => exact creditRun_settleChecked env _ ledger block
  | pool | cloud => exact creditRun_settleUnchecked env ledger block

private theorem creditRun_payPoolMiners (distributable totalAttempts : Int32) (ledger : Ledger)
    (paid : Nat) (attempts : List Int32) :
    CreditRun env ledger
      (payPoolMiners env distributable totalAttempts ledger paid attempts) := by
  induction attempts generalizing ledger paid with
  | nil => exact .idle ledger _ _
  | cons attempt others ih =>
    have credited (reward : Int32) : CreditRun env ledger
        (if 0 < reward then ledgerCreditMiner env ledger (poolMiner (paid + 1)) reward
          else ⟨true, ledger, false⟩) := by
      split
      · exact CreditRun.single env ledger (.creditMiner (poolMiner (paid + 1)) reward) trivial
      · exact .idle ledger _ _
    simp only [payPoolMiners]
    -- the product that splits the reward may overflow as well
    refine ((credited _).trans (ih _ (paid + 1)) true).of_state rfl (fun fits => ?_)
    simp only [Bool.or_eq_false_iff] at fits ⊢
    exact ⟨fits.1.2, fits.2⟩

theorem creditRun_start (call : MiningCall) (st : MineState) :
    CreditRun env st.ledger
      ⟨(call.start env st).ok, (call.start env st).state.ledger, (call.start env st).overflow⟩ := by
  cases call with
  | solo | cloud => exact .idle st.ledger _ _
  | pool minerCount =>
    simp only [MiningCall.start, payPool]
    generalize poolAttempts env (st.world.calls + 1) (poolMiners minerCount) = attempts
    exact (creditRun_payPoolMiners env _ _ st.ledger 0 attempts).of_state rfl id

theorem creditRun_finish (call : MiningCall) (blocksToMine : Nat) (ledger : Ledger) :
    CreditRun env ledger (call.finish env blocksToMine ledger) := by
  cases call with
  | solo | pool => exact .idle ledger _ _
  | cloud =>
    simp only [MiningCall.finish, creditCloudUser]
    split
    · exact CreditRun.single env ledger (.creditMiner cloudUser _) trivial
    · exact .idle ledger _ _

/-- The part of an outcome that concerns the ledger. -/
def ledgerOutcome (outcome : Outcome MineState) : Outcome Ledger :=
  ⟨outcome.ok, outcome.state.ledger, outcome.overflow⟩

private theorem creditRun_round (call : MiningCall) (difficulty : Int32) (st : MineState) :
    CreditRun env st.ledger (ledgerOutcome (call.round env difficulty st)) := by
  have step := call.roundStep env difficulty st
  generalize call.round env difficulty st = result at step ⊢
  cases step with
  | idle | lost => exact .idle st.ledger _ _
  | @confirmed front mined => exact creditRun_settle env call st.ledger mined

private theorem creditRun_repeatFor (call : MiningCall) (difficulty : Int32) (n : Nat)
    (st : MineState) :
    CreditRun env st.ledger (ledgerOutcome (repeatFor (call.round env difficulty) n st)) := by
  induction n generalizing st with
  | zero => exact .idle st.ledger _ _
  | succ n ih =>
    have first := creditRun_round env call difficulty st
    simp only [repeatFor]
    split
    · exact first.trans (ih _) _
    · exact first

/-- A mining call is a run of credits on the ledger. -/
theorem creditRun_mine (call : MiningCall) (st : MineState) (difficulty : Int32) :
    CreditRun env st.ledger (ledgerOutcome (mine env st difficulty call)) := by
  by_cases rejected : call.Rejected st
  · rw [mine_of_rejected rejected]
    exact .idle st.ledger _ _
  · have started := creditRun_start env call st
    have looped := creditRun_repeatFor env call difficulty st.pool.blocks.length
      (call.start env st).state
    rw [mine_eq, if_neg rejected]
    simp only
    split
    -- a loop that succeeds is followed by the last credit
    · exact (started.trans looped true).trans (creditRun_finish env call _ _) _
    · exact started.trans looped _

end Attendance
