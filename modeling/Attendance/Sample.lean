import Attendance.ChainFile

/-!
# A sample environment

A small hash, a signature scheme, a clock and a disk that never fails, and a registry
of two students, for running whole sessions. Every hash starts with one zero, so
that mining at difficulty 1 needs one attempt.
-/
namespace Attendance.Sample

open CText Images

def checksum (payload : List Char) : Nat :=
  payload.foldl (fun sum c => (sum * 257 + c.toNat + 1) % 16 ^ 62) 7

def hexDigit (value : Nat) : Char := "0123456789abcdef".toList.getD value '0'

theorem isHexDigit_hexDigit (value : Nat) : isHexDigit (hexDigit value) = true := by
  by_cases small : value < 16
  · have all : ∀ v < 16, isHexDigit (hexDigit v) = true := by decide
    exact all value small
  · have long : "0123456789abcdef".toList.length = 16 := by decide
    rw [hexDigit, List.getD_eq_getElem?_getD, List.getElem?_eq_none (by omega)]
    decide

/-- A zero, 62 digits of the checksum, and a one. -/
def digestText (sum : Nat) : List Char :=
  '0' :: (List.range 62).map (fun i => hexDigit (sum / 16 ^ i % 16)) ++ ['1']

def sha256 (payload : List Char) : HexDigest where
  text := digestText (checksum payload)
  length_eq := by simp [digestText]
  hex := by
    rw [digestText, List.all_eq_true]
    intro c member
    simp only [List.cons_append, List.mem_cons, List.mem_append, List.mem_map, List.mem_range,
      List.mem_nil_iff, or_false] at member
    rcases member with rfl | ⟨i, _, rfl⟩ | rfl
    · decide
    · exact isHexDigit_hexDigit _
    · decide

def signatureOf (payload : List Char) : List UInt8 := [UInt8.ofNat (checksum payload), 1]

def env : Env where
  sha256 := sha256
  digestSign _ payload := some (signatureOf payload)
  digestVerify signature payload := signature = signatureOf payload
  time call := 1700000000 + Int64.ofNat call
  rand call := 7919 * call
  write _ := .complete
  blockBytes _ := []

def registry : StudentRegistry :=
  ⟨[⟨.strncpy "ALU001".toList, .strncpy "John Doe".toList, .strncpy "BLK101".toList⟩,
    ⟨.strncpy "ALU002".toList, .strncpy "Jane Smith".toList, .strncpy "BLK101".toList⟩], by decide⟩

theorem signaturesVerify : SignaturesVerify env := by
  refine signaturesVerify_of_library ?_ ?_
  · rintro call payload bytes ⟨⟩
    simp [env]
  · rintro call payload bytes ⟨⟩
    exact ⟨[UInt8.ofNat (checksum payload)], 1, rfl, by decide⟩

theorem length_signatureOf (payload : List Char) :
    (signatureOf payload).length ≤ signatureLen :=
  show 2 ≤ 72 by decide

/-- What signing does to a block. -/
def sign (block : Block) : Block :=
  let bytes := signatureOf (serializeBlockForSignature block)
  { block with signature := .store bytes (length_signatureOf _) }

theorem signBlock_eq (world : World) (block : Block) :
    (signBlock env world block).2 = some (sign block) := by
  have fits := length_serializeBlockForSignature block
  simp only [signBlock, ge_iff_le, if_neg (Nat.not_le.mpr fits), env, length_signatureOf,
    dite_true, sign]

/-- Every nonce meets the lowest target. -/
theorem meets (block : Block) (nonce : UInt64) : Meets env 1 block nonce := rfl

def start (model : LedgerModel) : Session :=
  (startFresh env registry model 1).get (by cases model <;> decide +kernel)

theorem startFresh_eq (model : LedgerModel) :
    startFresh env registry model 1 = some (start model) :=
  (Option.some_get _).symm

/-- A fresh session with one record pending. -/
def onePending (model : LedgerModel) : MineState :=
  let start := (start model).toMineState
  { start with
    pool := (markAttendance env start.world start.pool start.chain registry "ALU001".toList
      "PRESENT".toList).state.2 }

/-! ### A memory layout -/

def textBytes {n : Nat} (s : CStr n) : List UInt8 :=
  s.text.map (fun c => UInt8.ofNat c.toNat) ++ List.replicate (n - s.text.length) 0

def readText (n : Nat) [NeZero n] (bytes : List UInt8) : CStr n :=
  .strncpy ((bytes.take n).takeWhile (· ≠ 0) |>.map fun byte => Char.ofNat byte.toNat)

/-- The fields of a `Block` with the padding before the aligned ones and at the end. -/
def blockBytes (block : Block) : List UInt8 :=
  littleEndian 8 block.index.toUInt32.toNat ++ littleEndian 8 block.timestamp.toUInt64.toNat ++
  textBytes block.studentId ++ textBytes block.fullName ++ textBytes block.courseCode ++
  textBytes block.status ++ [0, 0] ++ littleEndian 4 block.tokenReward.toUInt32.toNat ++
  textBytes block.transactionId ++ List.replicate 7 0 ++ littleEndian 8 block.nonce.toNat ++
  textBytes block.previousHash ++ block.signature.bytes ++ textBytes block.hash ++
  List.replicate 6 0

def layout : BlockLayout where
  size := 400
  read bytes :=
    { index := (UInt32.ofNat (ofLittleEndian (bytes.take 4))).toInt32
      timestamp := (UInt64.ofNat (ofLittleEndian ((bytes.drop 8).take 8))).toInt64
      studentId := readText studentIdLen (bytes.drop 16)
      fullName := readText fullNameLen (bytes.drop 36)
      courseCode := readText courseCodeLen (bytes.drop 86)
      status := readText statusLen (bytes.drop 96)
      tokenReward := (UInt32.ofNat (ofLittleEndian ((bytes.drop 108).take 4))).toInt32
      transactionId := readText hashLen (bytes.drop 112)
      nonce := UInt64.ofNat (ofLittleEndian ((bytes.drop 184).take 8))
      previousHash := readText hashLen (bytes.drop 192)
      signature := .store ((bytes.drop 257).take signatureLen) (List.length_take_le _ _)
      hash := readText hashLen (bytes.drop 329) }

/-- The sample environment with blocks that can be read back. The disk works, up to the call
with number 7. -/
def diskEnv (outcome : WriteOutcome) : Env :=
  { env with blockBytes, write := fun call => if call = 7 then outcome else .complete }

end Attendance.Sample
