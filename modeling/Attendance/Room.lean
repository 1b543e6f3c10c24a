import Attendance.Rounds

/-!
# Room for credits

A credit takes an entry of the UTXO set, or a row of the account table unless its owner has
one. Whether there is room for a credit after others can be told from the ledger before them.
-/
namespace Attendance

open CText Calls

/-! ### One credit -/

/-- The entries or rows that are left. -/
def Ledger.vacancies (ledger : Ledger) : Nat :=
  match ledger.model with
  | .utxo => maxUtxos - ledger.utxoSet.entries.length
  | .account => maxStudents - ledger.accountLedger.accounts.length

/-- The id has a row, so that credits to it take no other. -/
def Ledger.Knows (ledger : Ledger) (id : List Char) : Prop :=
  ledger.model = .account ∧ id ∈ ledger.accountLedger.keys

instance (ledger : Ledger) : DecidablePred ledger.Knows :=
  fun _ => inferInstanceAs (Decidable (_ ∧ _))

theorem hasRoomFor_iff_vacancies (ledger : Ledger) (id : List Char) :
    ledger.HasRoomFor id ↔ ledger.Knows id ∨ 0 < ledger.vacancies := by
  cases model : ledger.model with
  | utxo =>
    simp only [Ledger.HasRoomFor, Ledger.Knows, Ledger.vacancies, model, reduceCtorEq, false_and,
      false_or]
    exact Nat.sub_pos_iff_lt.symm
  | account =>
    simp only [Ledger.HasRoomFor, Ledger.Knows, Ledger.vacancies, model, position_ne_none_iff,
      true_and]
    exact or_congr_right Nat.sub_pos_iff_lt.symm

/-- What a credit to the owner does to the room in a ledger. -/
def TakesPlace (before after : Ledger) (owner : List Char) : Prop :=
  after.model = before.model ∧
  match before.model with
  | .utxo => after.utxoSet.entries.length = min (before.utxoSet.entries.length + 1) maxUtxos
  | .account =>
    after.accountLedger.keys = Table.addKey maxStudents before.accountLedger.keys owner

theorem CreditStep.takesPlace {ledger : Ledger} {source owner : List Char} {amount fee : Int32}
    {txId : List Char} {outcome : Outcome Ledger}
    (step : CreditStep ledger source owner amount fee txId outcome)
    (short : owner.length < studentIdLen) : TakesPlace ledger outcome.state owner := by
  cases step with
  | added model room appended =>
    refine ⟨rfl, ?_⟩
    simp only [model, appended, List.length_append, List.length_singleton]
    omega
  | @posted accounts i model row =>
    have keys := keys_modifyRow accounts i (credits_creditAccount source owner amount fee).studentId
    refine ⟨rfl, ?_⟩
    simp only [model]
    rw [keys, ← keys_findOrCreateAccount _ short, row]
  | full full =>
    rw [hasRoomFor_iff_vacancies, not_or, Ledger.Knows, Ledger.vacancies] at full
    refine ⟨rfl, ?_⟩
    cases model : ledger.model with
    | utxo =>
      have fits := ledger.utxoSet.fits
      simp only [model] at full ⊢
      omega
    | account =>
      simp only [model] at full ⊢
      rw [Table.addKey, length_keys, if_pos (Or.inr (by omega))]

/-! ### Credits in turn -/

/-- There is a row or an entry left for a credit to `owner` after credits to the others in
turn. Others that come after a credit to `owner` itself cannot take its row. -/
def Ledger.HasRoomAfter (ledger : Ledger) (others : List (List Char)) (owner : List Char) : Prop :=
  match ledger.model with
  | .utxo => ledger.utxoSet.entries.length + others.length < maxUtxos
  | .account => owner ∈ ledger.accountLedger.keys ∨
      ledger.accountLedger.accounts.length +
        Table.newcomers ledger.accountLedger.keys (others.takeWhile (· ≠ owner)) < maxStudents

instance (ledger : Ledger) (others : List (List Char)) (owner : List Char) :
    Decidable (ledger.HasRoomAfter others owner) :=
  match ledger with
  | ⟨.utxo, _, _⟩ => inferInstanceAs (Decidable (_ < _))
  | ⟨.account, _, _⟩ => inferInstanceAs (Decidable (_ ∨ _))

theorem hasRoomAfter_nil (ledger : Ledger) (owner : List Char) :
    ledger.HasRoomAfter [] owner ↔ ledger.HasRoomFor owner := by
  cases model : ledger.model with
  | utxo => simp [Ledger.HasRoomAfter, Ledger.HasRoomFor, model]
  | account =>
    simp [Ledger.HasRoomAfter, Ledger.HasRoomFor, model, Table.newcomers, position_ne_none_iff]

private theorem hasRoomAfter_iff_foldl {ledger : Ledger} (model : ledger.model = .account)
    (others : List (List Char)) (owner : List Char) :
    ledger.HasRoomAfter others owner ↔
      owner ∈ others.foldl (Table.addKey maxStudents) ledger.accountLedger.keys ∨
      (others.foldl (Table.addKey maxStudents) ledger.accountLedger.keys).length < maxStudents := by
  rw [Table.room_foldl_addKey, length_keys]
  simp only [Ledger.HasRoomAfter, model]

/-- The first of the credits is made before the others. -/
theorem hasRoomAfter_cons {before after : Ledger} {first : List Char}
    (takes : TakesPlace before after first) (others : List (List Char)) (owner : List Char) :
    before.HasRoomAfter (first :: others) owner ↔ after.HasRoomAfter others owner := by
  obtain ⟨same, place⟩ := takes
  cases model : before.model with
  | utxo =>
    simp only [model] at same place
    simp only [Ledger.HasRoomAfter, model, same, place, List.length_cons]
    omega
  | account =>
    simp only [model] at same place
    rw [hasRoomAfter_iff_foldl model, hasRoomAfter_iff_foldl same, place, List.foldl_cons]

/-! ### The rewards of a loop -/

/-- The students that confirmed blocks pay, in order. -/
def paidStudents (blocks : List Block) : List (List Char) :=
  (blocks.filter fun block => 0 < block.tokenReward).map fun block => block.studentId.text

private theorem hasRoomAfter_settleUnchecked (env : Env) (ledger : Ledger) (front : Block)
    {mined : Block} (student : mined.studentId = front.studentId)
    (reward : mined.tokenReward = front.tokenReward)
    (rest : List Block) (owner : List Char) :
    (settleUnchecked env ledger mined).state.HasRoomAfter (paidStudents rest) owner ↔
      ledger.HasRoomAfter (paidStudents (front :: rest)) owner := by
  rw [settleUnchecked]
  by_cases positive : 0 < front.tokenReward
  · have paid : paidStudents (front :: rest) = front.studentId.text :: paidStudents rest := by
      simp [paidStudents, positive]
    have earned : 0 < mined.tokenReward := reward ▸ positive
    have takes := (creditStep_ledgerApplyConfirmedBlock ledger earned
      (outputs_createRewardTransaction env earned)).takesPlace mined.studentId.fits
    rw [student] at takes
    rw [if_pos earned, paid]
    exact (hasRoomAfter_cons takes _ owner).symm
  · have unpaid : paidStudents (front :: rest) = paidStudents rest := by
      simp [paidStudents, positive]
    rw [if_neg (reward ▸ positive), unpaid]

/-- What room a round leaves is told before it. -/
private theorem hasRoomAfter_confirmRound (env : Env) {difficulty : Int32} {st : MineState}
    (confirmable : FrontConfirmable env difficulty st) (owner : List Char) :
    let after := (confirmRound env difficulty (settleUnchecked env) st).state
    after.ledger.HasRoomAfter (paidStudents after.pool.blocks) owner ↔
      st.ledger.HasRoomAfter (paidStudents st.pool.blocks) owner := by
  obtain ⟨front, rest, queued, confirmable⟩ := confirmable
  have step := roundStep env difficulty (settleUnchecked env) st
  generalize confirmRound env difficulty (settleUnchecked env) st = result at step ⊢
  cases step with
  | idle empty => exact absurd (queued.symm.trans empty) (List.cons_ne_nil _ _)
  | lost other unconfirmable =>
    obtain ⟨rfl, _⟩ := List.cons.inj (queued.symm.trans other)
    exact absurd confirmable unconfirmable
  | @confirmed linked _ _ _ pool other _ mining _ =>
    obtain ⟨signature, nonce, _, rfl, _, _⟩ := mining
    simp only [other]
    exact hasRoomAfter_settleUnchecked env st.ledger linked rfl rfl pool.blocks owner

/-- A loop that confirms all pending blocks leaves room for a credit exactly if there is some
after the rewards of these blocks. -/
theorem hasRoomFor_loop (env : Env) {difficulty : Int32} {st : MineState}
    (each : EachRound (confirmRound env difficulty (settleUnchecked env))
      (FrontConfirmable env difficulty) st.pool.blocks.length st) (owner : List Char) :
    (repeatFor (confirmRound env difficulty (settleUnchecked env)) st.pool.blocks.length
      st).state.ledger.HasRoomFor owner ↔
    st.ledger.HasRoomAfter (paidStudents st.pool.blocks) owner := by
  generalize count : st.pool.blocks.length = n at each ⊢
  induction n generalizing st with
  | zero =>
    rw [List.length_eq_zero_iff.mp count]
    exact (hasRoomAfter_nil st.ledger owner).symm
  | succ n ih =>
    have ok := ((confirmRound_counts env (settleUnchecked_ok env) difficulty st).1 each.1).1
    have shorter : (confirmRound env difficulty (settleUnchecked env) st).state.pool.blocks.length =
        n := by
      rw [pool_confirmRound, List.length_tail, count, Nat.add_sub_cancel]
    simp only [repeatFor, if_pos ok]
    exact (ih shorter (each.2 ok)).trans (hasRoomAfter_confirmRound env each.1 owner)

end Attendance
