import Attendance.Keys
import Attendance.Lines
import Attendance.SavedChain

/-!
# The program from start to exit

`main` as a whole: the arguments, the registry, the keys, the chain and the ledger, the loop
over standard input, and what is left on the disk for the next run. A run that is killed at
a prompt leaves the disk as one whose input ends there.
-/
namespace Attendance

open CText

/-- OpenSSL, the system and the compiler, the same for every run. -/
structure Machine (κ π : Type) where
  library : KeyLibrary κ π
  layout : BlockLayout
  sha256 : List Char → HexDigest
  digestSign : κ → Nat → List Char → Option (List UInt8)
  digestVerify : π → List UInt8 → List Char → Bool
  time : Nat → Int64
  rand : Nat → Nat
  write : Nat → WriteOutcome
  blockBytes : Block → List UInt8

variable {κ π : Type}

/-- The outside world of a run with these keys. -/
def Machine.env (machine : Machine κ π) (keys : κ × π) : Env where
  sha256 := machine.sha256
  digestSign := machine.digestSign keys.1
  digestVerify := machine.digestVerify keys.2
  time := machine.time
  rand := machine.rand
  write := machine.write
  blockBytes := machine.blockBytes

/-- What a run is given: its arguments, the registry file and standard input. -/
structure Invocation where
  argv : List (List Char)
  students : Option (List Char)
  stdin : List Char

/-- The lines `fgets` returns, a NUL and what follows it included. -/
def Invocation.lines (invocation : Invocation) : List (CStr lineLen) :=
  (Scan.fgetsLines lineLen [] invocation.stdin).map .strncpy

/-- A run at its first prompt. -/
structure Running (κ π : Type) where
  keys : κ × π
  registry : StudentRegistry
  session : Session

/-- The disk of a run that has got to the state of `world`. -/
def Disk.withWorld (disk : Disk) (world : World) : Disk :=
  { disk with calls := world.calls, chainFile := world.chainFile }

/-- `main` once it has its keys. -/
def Machine.bootChain (machine : Machine κ π) (model : LedgerModel) (difficulty : Int32)
    (registry : StudentRegistry) (keys : κ × π) (disk : Disk) :
    Disk × Except Int32 (Running κ π) :=
  match startSession registry model difficulty
      (startChain (machine.env keys) machine.layout ⟨disk.calls, disk.chainFile⟩) with
  | (world, none) => (disk.withWorld world, .error 1)
  | (world, some session) => (disk.withWorld world, .ok ⟨keys, registry, session⟩)

/-- `main` up to its first prompt, or to the status it exits with. -/
def Machine.boot (machine : Machine κ π) (disk : Disk) (invocation : Invocation) :
    Disk × Except Int32 (Running κ π) :=
  match parseCliArgs invocation.argv with
  | none => (disk, .error 0)
  | some (model, difficulty) =>
    match loadStudentRegistry invocation.students with
    | none => (disk, .error 1)
    | some registry =>
      match cryptoInitKeys machine.library disk with
      | (true, ⟨some privateKey, some publicKey⟩, disk) =>
        machine.bootChain model difficulty registry (privateKey, publicKey) disk
      -- `crypto_cleanup` releases what was loaded or made
      | (_, _, disk) => (disk, .error 1)

/-- The states at the prompts of a run, with its keys. -/
def Machine.prompts (machine : Machine κ π) (disk : Disk) (invocation : Invocation) :
    List ((κ × π) × Session) :=
  match (machine.boot disk invocation).2 with
  | .error _ => []
  | .ok running =>
    (promptStates (machine.env running.keys) running.registry running.session
      invocation.lines).map (Prod.mk running.keys)

/-- The state at the last prompt. -/
def Machine.lastPrompt (machine : Machine κ π) (running : Running κ π)
    (invocation : Invocation) : Session :=
  Runs.final (lineStep (machine.env running.keys) running.registry) running.session
    (processed invocation.lines)

/-- The states at the first and the last prompt of a run. -/
def Machine.visit (machine : Machine κ π) (disk : Disk) (invocation : Invocation) :
    List (Session × Session) :=
  match (machine.boot disk invocation).2 with
  | .error _ => []
  | .ok running => [(running.session, machine.lastPrompt running invocation)]

/-- The exit status and the disk a run leaves. -/
def Machine.main (machine : Machine κ π) (disk : Disk) (invocation : Invocation) :
    Int32 × Disk :=
  match machine.boot disk invocation with
  | (disk, .error status) => (status, disk)
  | (disk, .ok running) => (0, disk.withWorld (machine.lastPrompt running invocation).world)

/-- The disk after a run. -/
def Machine.leaves (machine : Machine κ π) (disk : Disk) (invocation : Invocation) : Disk :=
  (machine.main disk invocation).2

/-- The run that gets to its first prompt, if it does. -/
def Machine.started (machine : Machine κ π) (disk : Disk) (invocation : Invocation) :
    List (Running κ π) :=
  match (machine.boot disk invocation).2 with
  | .error _ => []
  | .ok running => [running]

theorem boot_of_mem_started {machine : Machine κ π} {disk : Disk} {invocation : Invocation}
    {running : Running κ π} (member : running ∈ machine.started disk invocation) :
    (machine.boot disk invocation).2 = .ok running := by
  unfold Machine.started at member
  split at member
  · cases member
  next booted => rw [booted, List.mem_singleton.mp member]

/-! ### What a run can do -/

/-- Everything the start of `main` can do: leave the disk alone, fail for want of keys, fail
for want of a chain, or get to the first prompt. -/
inductive BootStep (machine : Machine κ π) (disk : Disk) (invocation : Invocation) :
    Disk × Except Int32 (Running κ π) → Prop where
  | refused (status : Int32) : BootStep machine disk invocation (disk, .error status)
  | keyless {keys : Keys κ π} {disk' : Disk}
      (failed : cryptoInitKeys machine.library disk = (false, keys, disk')) :
      BootStep machine disk invocation (disk', .error 1)
  | chainless {keys : κ × π} {disk' : Disk} {world : World}
      (unlocked : cryptoInitKeys machine.library disk =
        (true, ⟨some keys.1, some keys.2⟩, disk'))
      (failed : startChain (machine.env keys) machine.layout ⟨disk'.calls, disk'.chainFile⟩ =
        (world, none)) :
      BootStep machine disk invocation (disk'.withWorld world, .error 1)
  | running {keys : κ × π} {disk' : Disk} {world : World} {chain : Blockchain}
      {model : LedgerModel} {difficulty : Int32} {registry : StudentRegistry}
      (parsed : parseCliArgs invocation.argv = some (model, difficulty))
      (loaded : loadStudentRegistry invocation.students = some registry)
      (unlocked : cryptoInitKeys machine.library disk =
        (true, ⟨some keys.1, some keys.2⟩, disk'))
      (found : startChain (machine.env keys) machine.layout ⟨disk'.calls, disk'.chainFile⟩ =
        (world, some chain)) :
      BootStep machine disk invocation (disk'.withWorld world,
        .ok ⟨keys, registry, firstPrompt model difficulty registry world chain⟩)

theorem bootStep (machine : Machine κ π) (disk : Disk) (invocation : Invocation) :
    BootStep machine disk invocation (machine.boot disk invocation) := by
  unfold Machine.boot
  cases parsed : parseCliArgs invocation.argv with
  | none => exact .refused 0
  | some arguments =>
    cases loaded : loadStudentRegistry invocation.students with
    | none => exact .refused 1
    | some registry =>
      simp only
      match unlocked : cryptoInitKeys machine.library disk with
      | (false, keys, disk') => exact .keyless unlocked
      | (true, keys, disk') =>
        obtain ⟨privateKey, publicKey, rfl⟩ := keys_of_cryptoInitKeys machine.library unlocked
        simp only [Machine.bootChain]
        cases found : startChain (machine.env (privateKey, publicKey)) machine.layout
            ⟨disk'.calls, disk'.chainFile⟩ with
        | mk world result =>
          cases result with
          | none => exact .chainless unlocked found
          | some chain =>
            simp only [startSession_eq]
            exact .running parsed loaded unlocked found

end Attendance
