import Attendance.Process
import Attendance.Sample

/-!
# A sample machine

A small key library over the sample hash and layout, for whole runs of the program. A key is
a byte, and its file a mark with the byte behind it.
-/
namespace Attendance.Sample

open CText

def library : KeyLibrary UInt8 UInt8 where
  generate call := some (UInt8.ofNat call + 5)
  duplicates _ := true
  publicOf key := key
  privatePem key := [1, key]
  publicPem key := [2, key]
  readPrivate file := if file.head? = some 1 then file[1]? else none
  readPublic file := if file.head? = some 2 then file[1]? else none
  write _ := .complete

theorem library_readsBack : library.ReadsBack := by
  constructor
  · rintro key (_ | _ | count) read found <;> simp_all [library]
  · rintro key (_ | _ | count) read found <;> simp_all [library]

def machine : Machine UInt8 UInt8 where
  library
  layout
  sha256
  digestSign key _ payload := some [UInt8.ofNat (checksum payload), key, 1]
  digestVerify key signature payload := signature = [UInt8.ofNat (checksum payload), key, 1]
  time call := 1700000000 + Int64.ofNat call
  rand call := 7919 * call
  write _ := .complete
  blockBytes

def blankDisk : Disk := ⟨0, none, none, none⟩

def studentsFile : List Char := "ALU001,John Doe,BLK101\nALU002,Jane Smith,BLK101\n".toList

/-- A run at difficulty 1. -/
def invocation (stdin : String) : Invocation where
  argv := ["attendance".toList, "--difficulty".toList, "1".toList]
  students := some studentsFile
  stdin := stdin.toList

/-- A run that mines a record, and one that mines another. -/
def twoRuns : List Invocation :=
  [invocation "mark ALU001 PRESENT\nmine solo\n",
    invocation "mark ALU002 LATE\nmine solo\nquit\nview\n"]

/-- A run that tampers with a block, one without a registry file, and one that goes on. -/
def tamperedRuns : List Invocation :=
  [invocation "mark ALU001 PRESENT\nmine solo\ntamper 1\nmark ALU002 LATE\n",
    { invocation "mine solo\n" with students := none },
    invocation "mark ALU002 PRESENT\nmine solo\n"]

/-- Two runs that tamper with the same block. -/
def flippedRuns : List Invocation :=
  [invocation "mark ALU001 PRESENT\nmine solo\ntamper 1\n",
    invocation "mark ALU002 LATE\nmine solo\ntamper 1\ntamper 0\n"]

end Attendance.Sample
