import Attendance.Ledger.Refinement
import Attendance.Sample

/-!
# History nodes are neither lost nor used after they are released

Whatever `calloc` answers, between `ledger_init` and `ledger_cleanup` the nodes in use are the
histories, each node in one of them, and no call touches any other. What the calls return and
what they do to balances, nonces and outputs does not depend on `calloc` at all; the model on
lists, where no node is ever missing, is what happens where there is always memory.
-/
namespace Attendance

open Heap InMemory Sample

/-- Every run from `ledger_init` on goes through. Its nodes in use are then those of the
histories, and `ledger_cleanup` releases all of them; calling it again does no harm. -/
theorem run_owns_histories (calloc : Calloc) (env : Env) (registry : StudentRegistry)
    (model : LedgerModel) (requests : List Request) :
    ∃ ledger replies cleaned,
      run calloc env registry (initialLedger model registry) requests = some (ledger, replies) ∧
      (∃ nodes, Owns ledger.accountLedger.heap
        (ledger.accountLedger.accounts.map InMemory.Account.history) nodes) ∧
      InMemory.ledgerCleanup ledger = some cleaned ∧ cleaned.accountLedger.heap = ∅ ∧
      InMemory.ledgerCleanup cleaned = some cleaned := by
  obtain ⟨ledger, replies, ran, refines, _⟩ :=
    run_initialLedger (keeps_interleaved calloc) env registry model requests
  obtain ⟨cleaned, freed, unused, again⟩ := refines.cleanup
  exact ⟨ledger, replies, cleaned, ran, refines.accounts.owned, freed, unused, again⟩

/-- Every third call of `calloc` is refused. -/
def thirdRefused : Calloc := .refusing fun call => call % 3 = 2

/-- A credit to a miner and a transfer from him, where the node of the payee is refused; then the
history of the payee, a change of the model and back, and another credit. -/
def spareRequests : List Request :=
  [.call (.creditMiner "pool".toList 20), .call (.transfer "pool".toList "ALU001".toList 5),
    .printHistory "ALU001".toList, .setModel .utxo, .setModel .account,
    .call (.creditMiner "pool".toList 20)]

theorem run_owns_histories_thirdRefused :
    ∃ ledger replies cleaned,
      run thirdRefused env registry (initialLedger .account registry) spareRequests =
        some (ledger, replies) ∧
      (∃ nodes, Owns ledger.accountLedger.heap
        (ledger.accountLedger.accounts.map InMemory.Account.history) nodes) ∧
      InMemory.ledgerCleanup ledger = some cleaned ∧ cleaned.accountLedger.heap = ∅ ∧
      InMemory.ledgerCleanup cleaned = some cleaned :=
  run_owns_histories thirdRefused env registry .account spareRequests

/-- What a run leaves and returns is what it does on lists, but for the histories: the nodes of
one on the heap and those that `calloc` refused for it are together the nodes it has on lists.
With memory for each of them nothing is different. -/
theorem run_refines_lists (calloc : Calloc) (env : Env) (registry : StudentRegistry)
    (model : LedgerModel) (requests : List Request) :
    let lists := (Attendance.ledgerInit model registry).2
    let lists' := Runs.final (Request.step env registry) lists requests
    let replies' := Runs.trace (Request.step env registry)
      (fun lists request => [Request.reply env lists request]) lists requests
    ∃ ledger replies,
      run calloc env registry (initialLedger model registry) requests = some (ledger, replies) ∧
      LedgerRefines Interleaved ledger lists' ∧
      List.Forall₂ (ReplyRefines Interleaved) replies replies' ∧
      ((∀ call live, calloc.pick call live ≠ none) →
        LedgerRefines Complete ledger lists' ∧ replies = replies') := by
  obtain ⟨ledger, replies, ran, refines, same⟩ :=
    run_initialLedger (keeps_interleaved calloc) env registry model requests
  refine ⟨ledger, replies, ran, refines, same, fun finds => ?_⟩
  obtain ⟨ledger', replies', ran', refines', same'⟩ :=
    run_initialLedger (keeps_complete finds) env registry model requests
  rw [ran] at ran'
  cases ran'
  exact ⟨refines', eq_of_replyRefines same'⟩

/-- Where the node of the payee is refused it is missing, and where none is, nothing is. -/
theorem run_refines_lists_thirdRefused :
    let lists' := Runs.final (Request.step env registry) (Attendance.ledgerInit .account registry).2
      (spareRequests.take 2)
    (∃ ledger replies,
      run thirdRefused env registry (initialLedger .account registry) (spareRequests.take 2) =
        some (ledger, replies) ∧
      ledger.accountLedger.accounts.map (·.refused.length) = [1, 0, 0] ∧
      LedgerRefines Interleaved ledger lists') ∧
    ∃ ledger replies,
      run (.refusing fun _ => false) env registry (initialLedger .account registry)
        (spareRequests.take 2) = some (ledger, replies) ∧
      LedgerRefines Complete ledger lists' := by
  constructor
  · obtain ⟨ledger, replies, ran, refines, _⟩ :=
      run_refines_lists thirdRefused env registry .account (spareRequests.take 2)
    have refused : (run thirdRefused env registry (initialLedger .account registry)
        (spareRequests.take 2)).map
        (fun last => last.1.accountLedger.accounts.map (·.refused.length)) =
      some [1, 0, 0] := by decide
    rw [ran] at refused
    exact ⟨ledger, replies, ran, Option.some.inj refused, refines⟩
  · obtain ⟨ledger, replies, ran, _, _, complete⟩ :=
      run_refines_lists (.refusing fun _ => false) env registry .account (spareRequests.take 2)
    exact ⟨ledger, replies, ran, (complete fun _ _ => by simp [Allocator.refusing]).1⟩

end Attendance
