import Attendance.Lines

/-!
# The buffers of the command loop

Where the formats of `main` store what they scan. `command`, `arg3` and `arg4` have 32
characters, `arg1` and `arg2` have `STUDENT_ID_LEN`. A scan that stops early has stored the
words before it stopped.
-/
namespace Attendance

open CText Scan

inductive Buffer where
  | command | arg1 | arg2 | arg3 | arg4
deriving DecidableEq

def Buffer.size : Buffer → Nat
  | .command | .arg3 | .arg4 => 32
  | .arg1 | .arg2 => studentIdLen

/-- A `%Ns` and its argument. -/
structure Conversion where
  width : Nat
  buffer : Buffer

/-- What a scan stores in which array, without the terminators. -/
def stores : List Conversion → List Char → List (Buffer × List Char)
  | [], _ => []
  | conversion :: format, input =>
    match field conversion.width input with
    | none => []
    | some (token, rest) => (conversion.buffer, token) :: stores format rest

/-- The first scan of a line, and what `tamper` scans before its index. -/
def commandFormat : List Conversion := [⟨31, .command⟩]

def markFormat : List Conversion := [⟨31, .command⟩, ⟨19, .arg1⟩, ⟨9, .arg2⟩]

/-- Of `balance` and `history`. -/
def studentFormat : List Conversion := [⟨31, .command⟩, ⟨19, .arg1⟩]

def transferFormat : List Conversion :=
  [⟨31, .command⟩, ⟨19, .arg1⟩, ⟨19, .arg2⟩, ⟨31, .arg3⟩]

def transferNonceFormat : List Conversion :=
  [⟨31, .command⟩, ⟨19, .arg1⟩, ⟨19, .arg2⟩, ⟨31, .arg3⟩, ⟨31, .arg4⟩]

/-- Of `model`, `difficulty` and `mine`. -/
def wordFormat : List Conversion := [⟨31, .command⟩, ⟨31, .arg1⟩]

def poolFormat : List Conversion := [⟨31, .command⟩, ⟨31, .arg1⟩, ⟨31, .arg2⟩]

def cloudFormat : List Conversion :=
  [⟨31, .command⟩, ⟨31, .arg1⟩, ⟨31, .arg2⟩, ⟨31, .arg3⟩, ⟨31, .arg4⟩]

/-- The branch for `mine` scans the line again for a pool and a cloud. -/
def mineScans (line : List Char) : List (List Conversion) :=
  wordFormat ::
    match fields [31, 31] line with
    | [_, mode] =>
      if mode = "solo".toList then []
      else if mode = "pool".toList then [poolFormat]
      else if mode = "cloud".toList then [cloudFormat]
      else []
    | _ => []

/-- The formats a branch of the loop applies to the line. -/
def branchScans (line : List Char) : Keyword → List (List Conversion)
  | .mark => [markFormat]
  | .balance | .history => [studentFormat]
  | .transfer => [transferFormat]
  | .transferNonce => [transferNonceFormat]
  | .model | .difficulty => [wordFormat]
  | .mine => mineScans line
  -- the index is stored in an `int`
  | .tamper => [commandFormat]
  | .quit | .help | .view | .pending | .validate | .balances | .utxos => []

/-- All formats that are applied to a trimmed line. -/
def lineScans (line : List Char) : List (List Conversion) :=
  if line = [] then []
  else
    commandFormat ::
      match field 31 line with
      | none => []
      | some (command, _) =>
        match parseKeyword command with
        | none => []
        | some keyword => branchScans line keyword

/-- Everything that is stored while the loop works on a line. -/
def lineStores (input : CStr lineLen) : List (Buffer × List Char) :=
  let line := trimInput input.text
  (lineScans line).flatMap fun format => stores format line

/-! ### The formats are those of the branches -/

theorem map_snd_stores (format : List Conversion) (input : List Char) :
    (stores format input).map Prod.snd = fields (format.map Conversion.width) input := by
  induction format generalizing input with
  | nil => rfl
  | cons conversion format ih =>
    rw [stores, List.map_cons, fields]
    cases field conversion.width input with
    | none => rfl
    | some scanned => exact congrArg (scanned.1 :: ·) (ih scanned.2)

private theorem fields_of_stores {format : List Conversion} {line other : List Char}
    (same : stores format line = stores format other) :
    fields (format.map Conversion.width) line = fields (format.map Conversion.width) other := by
  rw [← map_snd_stores, same, map_snd_stores]

/-- Apart from the index of `tamper`, what a branch stores in the buffers is all it knows of
the line. -/
theorem dispatch_eq_of_stores {line other : List Char} {keyword : Keyword}
    (strings : keyword ≠ .tamper)
    (same : (branchScans line keyword).map (stores · line) =
      (branchScans other keyword).map (stores · other)) :
    dispatch line keyword = dispatch other keyword := by
  cases keyword with
  | tamper => exact absurd rfl strings
  | mine =>
    simp only [branchScans, mineScans, List.map_cons, List.cons.injEq] at same
    obtain ⟨first, second⟩ := same
    have words : fields [31, 31] line = fields [31, 31] other := fields_of_stores first
    rw [words] at second
    rw [dispatch, dispatch, mineAction, mineAction, words]
    -- the mode decides whether there is a second scan
    split
    next mode scanned =>
      simp only [scanned] at second
      by_cases solo : mode = "solo".toList
      · rw [if_pos solo, if_pos solo]
      · by_cases pool : mode = "pool".toList
        · rw [if_neg solo, if_pos pool] at second
          have again := fields_of_stores (List.cons.inj second).1
          change fields [31, 31, 31] line = fields [31, 31, 31] other at again
          simp only [if_neg solo, if_pos pool, again]
        · by_cases cloud : mode = "cloud".toList
          · rw [if_neg solo, if_neg pool, if_pos cloud] at second
            have again := fields_of_stores (List.cons.inj second).1
            change fields [31, 31, 31, 31, 31] line = fields [31, 31, 31, 31, 31] other at again
            simp only [if_neg solo, if_neg pool, if_pos cloud, cloudAction, again]
          · simp only [if_neg solo, if_neg pool, if_neg cloud]
    next => rfl
  | mark | balance | transfer | transferNonce | history | model | difficulty =>
    have scanned := fields_of_stores (List.cons.inj same).1
    simp only [markFormat, studentFormat, transferFormat, transferNonceFormat, wordFormat,
      List.map_cons, List.map_nil] at scanned
    simp only [dispatch, scanned]
  | _ => rfl

end Attendance
