import Attendance.Types

/-!
# The outside world

OpenSSL, the clock, `rand` and the disk are parameters. Each call to one of them
is numbered, and the answer may depend on the number, so that a theorem about
every `Env` covers every sequence of answers.
-/
namespace Attendance

open CText

def isHexDigit (c : Char) : Bool := "0123456789abcdef".toList.contains c

/-- 32 bytes printed with `%02x`. -/
structure HexDigest where
  text : List Char
  length_eq : text.length = 64
  hex : text.all isHexDigit = true

def HexDigest.toCStr (digest : HexDigest) : CStr hashLen :=
  ⟨digest.text, by rw [digest.length_eq]; decide⟩

/-- How a rewrite of `CHAIN_FILE` ends: everything is written, `fopen` fails, or an
`fwrite` fails once a prefix of the data is in the file. What `fwrite` has accepted is taken to
get there: the result of `fclose`, which the program does not look at, is no outcome here. -/
inductive WriteOutcome where
  | complete
  | notOpened
  | cutAfter (count : Nat)
deriving DecidableEq

structure Env where
  sha256 : List Char → HexDigest
  /-- `EVP_DigestSign`, with the context set up for the private key. -/
  digestSign : Nat → List Char → Option (List UInt8)
  /-- `EVP_DigestVerify`, with the context set up for the public key. -/
  digestVerify : List UInt8 → List Char → Bool
  time : Nat → Int64
  rand : Nat → Nat
  write : Nat → WriteOutcome
  /-- The memory image of a `Block`, as `fwrite` copies it. -/
  blockBytes : Block → List UInt8

/-- The number of outside calls made so far, and the bytes of `CHAIN_FILE`. -/
structure World where
  calls : Nat
  chainFile : Option (List UInt8)

def World.next (world : World) : World := { world with calls := world.calls + 1 }

end Attendance
