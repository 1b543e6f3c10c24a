import Attendance.Ledger.Operations
import Attendance.Sample

/-!
# Transfers of unspent outputs

The selection loop of `utxo_transfer` takes at most sixteen inputs, so that it reports
an insufficient balance when the first sixteen unspent entries of the sender are not
enough. A selection that is enough leads nowhere either: the reference of each input
loses its index in the 65 bytes of `utxo_ref`, `utxo_mark_spent` finds no entry for it,
and the transfer fails.
-/
namespace Attendance

open CText MachineInt Calls

/-! ### Insufficient balance -/

/-- The test of `utxo_transfer` behind the message `Insufficient balance`. -/
def ReportsInsufficient (set : UTXOSet) (sender : List Char) (amount : Int32) : Prop :=
  (selectInputs sender (amount + txFee) set.entries {}).selectedTotal < amount + txFee

instance (set : UTXOSet) (sender : List Char) (amount : Int32) :
    Decidable (ReportsInsufficient set sender amount) :=
  inferInstanceAs (Decidable (_ < _))

private theorem nonneg_unspentAmounts {set : UTXOSet}
    (positive : ∀ entry ∈ set.entries, 0 < entry.amount) (owner : List Char) :
    ∀ amount ∈ unspentAmounts set owner, 0 ≤ amount.toInt := by
  intro amount member
  simp only [unspentAmounts, List.mem_map, List.mem_filter] at member
  obtain ⟨entry, ⟨inside, _⟩, rfl⟩ := member
  exact Int32.le_iff_toInt_le.mp (Int32.le_of_lt (positive entry inside))

/-- Adding up a balance that fits in an `int` gives what the owner has. -/
private theorem utxoBalance_lt_iff {set : UTXOSet} {owner : List Char}
    (fits : InInt (exactSum (unspentAmounts set owner))) (needed : Int32) :
    utxoBalance set owner < needed ↔ exactSum (unspentAmounts set owner) < needed.toInt := by
  rw [Int32.lt_iff_toInt_lt, utxoBalance_eq, ← ofInt_exactSum, toInt_ofInt_of_inInt fits]

/-- With amounts that are positive and fit in an `int` together, an insufficient balance is
reported exactly if the first sixteen unspent entries of the sender do not cover the amount
and the fee: always when the balance does not, and only then for a sender with at most
sixteen of them. -/
theorem reports_insufficient_iff (set : UTXOSet) (sender : List Char) (amount : Int32)
    (positive : ∀ entry ∈ set.entries, 0 < entry.amount)
    (fits : InInt (exactSum (unspentAmounts set sender)))
    (inRange : addOverflows amount txFee = false) :
    (ReportsInsufficient set sender amount ↔
      exactSum ((unspentAmounts set sender).take maxTxInputs) < amount.toInt + txFee.toInt) ∧
    (utxoBalance set sender < amount + txFee → ReportsInsufficient set sender amount) ∧
    ((unspentAmounts set sender).length ≤ maxTxInputs →
      (ReportsInsufficient set sender amount ↔ utxoBalance set sender < amount + txFee)) := by
  have nonneg := nonneg_unspentAmounts positive sender
  have reports : ReportsInsufficient set sender amount ↔
      exactSum ((unspentAmounts set sender).take maxTxInputs) < (amount + txFee).toInt :=
    selectedTotal_lt_iff (amount + txFee) nonneg fits
  have below := exactSum_le_of_sublist (List.take_sublist maxTxInputs _) nonneg
  rw [reports, utxoBalance_lt_iff fits]
  refine ⟨by rw [toInt_add_of_fits inRange], ?_, ?_⟩
  · intro less
    exact Int.lt_of_le_of_lt below less
  · intro few
    rw [List.take_of_length_le few]

/-- Sixteen tokens in sixteen outputs cover a payment of 15. -/
theorem reports_insufficient_iff_sample :
    let set := (Runs.final (ledgerStep Sample.env) (ledgerInit .utxo Sample.registry).2
      (List.replicate 16 (.creditMiner "ALU001".toList 1))).utxoSet
    let sender := "ALU001".toList
    (ReportsInsufficient set sender 15 ↔
      exactSum ((unspentAmounts set sender).take maxTxInputs) <
        (15 : Int32).toInt + txFee.toInt) ∧
    (utxoBalance set sender < 15 + txFee → ReportsInsufficient set sender 15) ∧
    ((unspentAmounts set sender).length ≤ maxTxInputs →
      (ReportsInsufficient set sender 15 ↔ utxoBalance set sender < 15 + txFee)) :=
  reports_insufficient_iff _ _ 15 (by decide +kernel) (by decide +kernel) (by decide)

/-- Seventeen tokens in seventeen outputs do not cover a payment of 16. -/
theorem seventeen_outputs_reported_insufficient :
    let set := (Runs.final (ledgerStep Sample.env) (ledgerInit .utxo Sample.registry).2
      (List.replicate 17 (.creditMiner "ALU001".toList 1))).utxoSet
    let sender := "ALU001".toList
    (∀ entry ∈ set.entries, 0 < entry.amount) ∧ InInt (exactSum (unspentAmounts set sender)) ∧
    addOverflows 16 txFee = false ∧ ReportsInsufficient set sender 16 ∧
    ¬utxoBalance set sender < 16 + txFee := by
  decide +kernel

/-! ### Funded transfers -/

/-- A transfer that has everything it needs: entries as the program makes them, a sender
whose first few entries cover the amount and the fee, and room for two more entries. -/
structure Funded (set : UTXOSet) (sender recipient : List Char) (amount : Int32) : Prop where
  positive : ∀ entry ∈ set.entries, 0 < entry.amount
  hexIds : ∀ entry ∈ set.entries,
    entry.txId.text.length = 64 ∧ entry.txId.text.all isHexDigit = true
  different : sender ≠ recipient
  atLeastOne : 1 ≤ amount
  inRange : addOverflows amount txFee = false
  covered : ∃ few ≤ 10, InInt (exactSum ((unspentAmounts set sender).take few)) ∧
    amount.toInt + txFee.toInt ≤ exactSum ((unspentAmounts set sender).take few)
  room : set.entries.length + 2 ≤ maxUtxos

/-- The sender loses the amount and the fee, the recipient gains the amount, and every other
owner keeps what it has. -/
structure MovesCoins (before after : UTXOSet) (sender recipient : List Char) (amount : Int32) :
    Prop where
  paid : utxoBalance after sender = utxoBalance before sender - (amount + txFee)
  received : utxoBalance after recipient = utxoBalance before recipient + amount
  untouched : ∀ owner, owner ≠ sender → owner ≠ recipient →
    utxoBalance after owner = utxoBalance before owner

/-- The call returns true and has moved exactly the right coins. -/
def Settles (env : Env) (ledger : Ledger) (sender recipient : List Char) (amount : Int32) : Prop :=
  let result := ledgerTransfer env ledger sender recipient amount
  result.ok = true ∧
    MovesCoins ledger.utxoSet result.state.utxoSet sender recipient amount

/-- A funded transfer never settles, whatever the ledger, the sender, the recipient and the
amount. -/
theorem funded_transfer_never_settles (env : Env) (ledger : Ledger) (sender recipient : List Char)
    (amount : Int32) (model : ledger.model = .utxo)
    (funded : Funded ledger.utxoSet sender recipient amount) :
    ¬Settles env ledger sender recipient amount := by
  rintro ⟨ok, _⟩
  have positive : 0 < amount :=
    Int32.lt_of_lt_of_le (by decide : (0 : Int32) < 1) funded.atLeastOne
  have identified : ∀ entry ∈ ledger.utxoSet.entries, entry.Identified :=
    fun entry member => Or.inl (funded.hexIds entry member).1
  obtain ⟨failed, _⟩ :=
    utxoTransfer_fails env sender recipient identified positive funded.inRange
  rw [ledgerTransfer, if_neg (Int32.not_le.mpr positive), if_neg funded.different, model] at ok
  rw [Ledger.onUtxos, failed] at ok
  cases ok

private theorem funded_sample :
    Funded (ledgerCreditMiner Sample.env (ledgerInit .utxo Sample.registry).2 "ALU001".toList
      20).state.utxoSet "ALU001".toList "ALU002".toList 5 where
  positive := by decide +kernel
  hexIds := by decide +kernel
  different := by decide
  atLeastOne := by decide
  inRange := by decide
  covered := ⟨1, by decide, by decide +kernel, by decide +kernel⟩
  room := by decide +kernel

/-- A miner who was paid 20 cannot send 5. -/
theorem funded_transfer_never_settles_sample :
    let ledger := (ledgerCreditMiner Sample.env (ledgerInit .utxo Sample.registry).2
      "ALU001".toList 20).state
    ¬Settles Sample.env ledger "ALU001".toList "ALU002".toList 5 :=
  funded_transfer_never_settles Sample.env _ _ _ 5 (by decide +kernel) funded_sample

/-- The transfer of that miner is funded, and it returns false. -/
theorem funded_transfer_refused :
    let ledger := (ledgerCreditMiner Sample.env (ledgerInit .utxo Sample.registry).2
      "ALU001".toList 20).state
    ledger.model = .utxo ∧ Funded ledger.utxoSet "ALU001".toList "ALU002".toList 5 ∧
    (ledgerTransfer Sample.env ledger "ALU001".toList "ALU002".toList 5).ok = false ∧
    ¬Settles Sample.env ledger "ALU001".toList "ALU002".toList 5 := by
  intro ledger
  have refused :
      (ledgerTransfer Sample.env ledger "ALU001".toList "ALU002".toList 5).ok = false := by
    decide +kernel
  refine ⟨by decide +kernel, funded_sample, refused, ?_⟩
  rintro ⟨ok, _⟩
  rw [ok] at refused
  cases refused

end Attendance
