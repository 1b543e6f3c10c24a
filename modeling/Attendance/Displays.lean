import Attendance.Crypto
import Attendance.Ledger.Basic

/-!
# Displays

What the commands that only show something print, line by line. Local time is a parameter.
-/
namespace Attendance

open CText

/-- What goes to the terminal: every line is followed by a newline. -/
def printed (lines : List (List Char)) : List Char := lines.flatMap (· ++ ['\n'])

/-- The lines, or the one that says that there are none. -/
def linesOr (nothing : List Char) (lines : List (List Char)) : List (List Char) :=
  if lines.isEmpty then [nothing] else lines

/-! ### The chain -/

/-- The fields of a block that hold the attendance record. -/
def recordLines (localTime : Int64 → List Char) (block : Block) : List (List Char) :=
  ["  Student ID     : ".toList ++ block.studentId.text,
    "  Name           : ".toList ++ block.fullName.text,
    "  Course         : ".toList ++ block.courseCode.text,
    "  Status         : ".toList ++ block.status.text,
    "  Timestamp      : ".toList ++ localTime block.timestamp,
    "  Token Reward   : ".toList ++ signedDecimal block.tokenReward.toInt,
    "  Transaction ID : ".toList ++
      if block.transactionId.text = [] then "(none)".toList else block.transactionId.text]

/-- The lines of a block; the last one is about its signature. -/
def blockLines (localTime : Int64 → List Char) (block : Block) (signatureOk : Bool) :
    List (List Char) :=
  [[], "Block #".toList ++ signedDecimal block.index.toInt] ++ recordLines localTime block ++
    ["  Nonce          : ".toList ++ decimal block.nonce.toNat,
      "  Hash           : ".toList ++ block.hash.text,
      "  Prev Hash      : ".toList ++ block.previousHash.text,
      "  Signature      : ".toList ++ if signatureOk then "VALID".toList else "INVALID".toList]

def blockchainPrintRecords (env : Env) (localTime : Int64 → List Char) (chain : Blockchain) :
    List (List Char) :=
  if chain.blocks.length = 0 then ["No attendance records found.".toList]
  else
    [[], "=== Confirmed Attendance Records ===".toList] ++
      chain.blocks.flatMap
        (fun block => blockLines localTime block (verifyBlockSignature env block)) ++
      [[], "====================================".toList]

/-! ### The ledger -/

def LedgerModel.name : LedgerModel → List Char
  | .utxo => "UTXO".toList
  | .account => "Account".toList

def balanceLine (ledger : Ledger) (student : Student) : List Char :=
  "  ".toList ++ student.fullName.text ++ " (".toList ++ student.studentId.text ++ "): ".toList ++
    signedDecimal (ledgerBalance ledger student.studentId.text).toInt ++ " coin(s)".toList

def ledgerPrintBalances (ledger : Ledger) (registry : StudentRegistry) : List (List Char) :=
  [[], "=== Student Token Balances (".toList ++ ledger.model.name ++ " model) ===".toList] ++
    registry.students.map (balanceLine ledger) ++
    ["=========================================".toList, []]

/-- The entries `utxos` shows. -/
def UTXOSet.unspent (set : UTXOSet) : List UTXO := set.entries.filter fun entry => !entry.spent

def utxoLine (utxo : UTXO) : List Char :=
  "  UTXO ".toList ++ (utxo.txId.text ++ ':' :: signedDecimal utxo.outputIndex.toInt ++
    " | owner=".toList ++ utxo.owner.text ++ " | amount=".toList ++
    signedDecimal utxo.amount.toInt)

def ledgerPrintUtxoSet (ledger : Ledger) : List (List Char) :=
  match ledger.model with
  | .account => ["UTXO set display is only available in UTXO model.".toList]
  | .utxo =>
    [[], "=== Full UTXO Set ===".toList] ++
      linesOr "  (no unspent outputs)".toList (ledger.utxoSet.unspent.map utxoLine) ++
      ["=====================".toList, []]

/-- What `ledger_print_history` finds. -/
inductive HistoryReport where
  | otherModel
  | noAccount
  | entries (nodes : List TxHistoryNode)

def historyReport (ledger : Ledger) (studentId : List Char) : HistoryReport :=
  match ledger.model with
  | .utxo => .otherModel
  | .account =>
    match ledger.accountLedger.find studentId with
    | none => .noAccount
    | some account => .entries account.history

def historyLine (entry : Nat) (node : TxHistoryNode) : List Char :=
  "  #".toList ++ (decimal entry ++ " sender=".toList ++ node.sender.text ++
    " recipient=".toList ++ node.recipient.text ++ " amount=".toList ++
    signedDecimal node.amount.toInt ++ " fee=".toList ++ signedDecimal node.fee.toInt ++
    " nonce=".toList ++ signedDecimal node.nonce.toInt)

/-- The lines for what was found; the entries count from 1. -/
def HistoryReport.lines (studentId : List Char) : HistoryReport → List (List Char)
  | .otherModel => ["Transaction history is only available in account model.".toList]
  | .noAccount => ["No account found for student ID ".toList ++ studentId ++ ".".toList]
  | .entries nodes =>
    [[], "=== Transaction History for ".toList ++ studentId ++ " ===".toList] ++
      linesOr "  (empty)".toList (nodes.mapIdx fun i node => historyLine (i + 1) node) ++
      ["====================================".toList, []]

def ledgerPrintHistory (ledger : Ledger) (studentId : List Char) : List (List Char) :=
  (historyReport ledger studentId).lines studentId

end Attendance
