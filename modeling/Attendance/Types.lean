import Attendance.Foundation.Calls
import Attendance.Foundation.MachineInt
import Attendance.Foundation.Text

/-!
# Shared types

The limits and records of `attendance.h`. A fixed array with a counter is the list
of its first `count` cells, with the capacity as a field. An `int` is an `Int32`,
a `time_t` an `Int64` and an `unsigned long` a `UInt64`.
-/
namespace Attendance

export Calls (Outcome)

open CText

abbrev maxStudents : Nat := 256
abbrev maxBlocks : Nat := 4096
abbrev maxPending : Nat := 256
abbrev maxUtxos : Nat := 8192
abbrev maxTxInputs : Nat := 16
abbrev maxTxOutputs : Nat := 16
abbrev studentIdLen : Nat := 20
abbrev fullNameLen : Nat := 50
abbrev courseCodeLen : Nat := 10
abbrev statusLen : Nat := 10
abbrev hashLen : Nat := 65
abbrev signatureLen : Nat := 72

abbrev rewardPresent : Int32 := 10
abbrev rewardLate : Int32 := 5
abbrev rewardAbsent : Int32 := 0
abbrev txFee : Int32 := 1
abbrev miningReward : Int32 := 20
abbrev poolFeePercent : Int32 := 2
abbrev minDifficulty : Int32 := 1
abbrev maxDifficulty : Int32 := 4
abbrev maxPoolMiners : Int32 := 8
abbrev cloudMinRounds : Int32 := 1
abbrev cloudMaxRounds : Int32 := 5

instance neZero_studentIdLen : NeZero studentIdLen := ⟨by decide⟩
instance neZero_fullNameLen : NeZero fullNameLen := ⟨by decide⟩
instance neZero_courseCodeLen : NeZero courseCodeLen := ⟨by decide⟩
instance neZero_statusLen : NeZero statusLen := ⟨by decide⟩
instance neZero_hashLen : NeZero hashLen := ⟨by decide⟩

theorem length_zeros : (List.replicate 64 '0').length < hashLen := by simp

/-- `GENESIS_PREV_HASH`. -/
def genesisPrevHash : CStr hashLen := ⟨List.replicate 64 '0', length_zeros⟩

inductive LedgerModel where
  | utxo
  | account
deriving DecidableEq

structure Student where
  studentId : CStr studentIdLen
  fullName : CStr fullNameLen
  courseCode : CStr courseCodeLen
deriving DecidableEq

/-- The bytes of a `signature` array; a shorter signature is padded with zeros. -/
structure Signature where
  bytes : List UInt8
  length_eq : bytes.length = signatureLen
deriving DecidableEq

structure Block where
  index : Int32
  timestamp : Int64
  studentId : CStr studentIdLen
  fullName : CStr fullNameLen
  courseCode : CStr courseCodeLen
  status : CStr statusLen
  tokenReward : Int32
  transactionId : CStr hashLen
  nonce : UInt64
  previousHash : CStr hashLen
  signature : Signature
  hash : CStr hashLen
deriving DecidableEq

@[ext] structure Blockchain where
  blocks : List Block
  fits : blocks.length ≤ maxBlocks
deriving DecidableEq

@[ext] structure PendingPool where
  blocks : List Block
  fits : blocks.length ≤ maxPending
deriving DecidableEq

structure TxInput where
  utxoRef : CStr hashLen
  owner : CStr studentIdLen
  amount : Int32
deriving DecidableEq

structure TxOutput where
  owner : CStr studentIdLen
  amount : Int32
deriving DecidableEq

/-- The fields up to the counters of the `inputs` and `outputs` arrays; a `memset`
to zero is the value of the defaults. -/
structure Transaction where
  txId : CStr hashLen := .empty
  inputs : List TxInput := []
  outputs : List TxOutput := []
  fee : Int32 := 0
  isReward : Bool := false
deriving DecidableEq

structure UTXO where
  txId : CStr hashLen
  outputIndex : Int32
  owner : CStr studentIdLen
  amount : Int32
  spent : Bool
deriving DecidableEq

@[ext] structure UTXOSet where
  entries : List UTXO
  fits : entries.length ≤ maxUtxos
deriving DecidableEq

structure TxHistoryNode where
  sender : CStr studentIdLen
  recipient : CStr studentIdLen
  amount : Int32
  fee : Int32
  nonce : Int32
deriving DecidableEq

structure Account where
  studentId : CStr studentIdLen
  balance : Int32 := 0
  nonce : Int32 := 0
  history : List TxHistoryNode := []
deriving DecidableEq

@[ext] structure AccountLedger where
  accounts : List Account
  fits : accounts.length ≤ maxStudents
deriving DecidableEq

/-- The arrays of a ledger after `memset`. -/
def UTXOSet.empty : UTXOSet := ⟨[], Nat.zero_le _⟩

def AccountLedger.empty : AccountLedger := ⟨[], Nat.zero_le _⟩

@[ext] structure Ledger where
  model : LedgerModel
  utxoSet : UTXOSet
  accountLedger : AccountLedger
deriving DecidableEq

structure StudentRegistry where
  students : List Student
  fits : students.length ≤ maxStudents
deriving DecidableEq

end Attendance
