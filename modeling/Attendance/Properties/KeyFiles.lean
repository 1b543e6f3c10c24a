import Attendance.Foundation.Runs
import Attendance.SampleMachine

/-!
# All runs share one key pair

The private key is written before the public one, and both are written only where one of the
files is missing. So a public key file is never left without the private key it belongs to, and
once a run has got to its prompt no other pair takes the place of its own: where a file was cut,
later runs fail to load the keys.
-/
namespace Attendance

variable {κ π : Type}

/-- No keys have been used and there is no public key, or all that have been used are those in
the files. -/
def OneKey (machine : Machine κ π) (log : List (κ × π)) (disk : Disk) : Prop :=
  (disk.publicFile = none ∧ log = []) ∨
  ∃ key, HoldsKey machine.library key disk ∧
    ∀ keys ∈ log, keys = (key, machine.library.publicOf key)

theorem keys_of_made {library : KeyLibrary κ π} {keys : κ × π} {key : κ}
    (made : (⟨some keys.1, some keys.2⟩ : Keys κ π) = ⟨some key, some (library.publicOf key)⟩) :
    keys = (key, library.publicOf key) := by
  obtain ⟨first, second⟩ := Keys.mk.inj made
  exact Prod.ext (Option.some.inj first) (Option.some.inj second)

/-- What the start does to the key files. -/
theorem oneKey_cryptoInitKeys {machine : Machine κ π} (readsBack : machine.library.ReadsBack)
    {log : List (κ × π)} {disk disk' : Disk} {ok : Bool} {keys : Keys κ π}
    (oneKey : OneKey machine log disk)
    (unlocked : cryptoInitKeys machine.library disk = (ok, keys, disk')) :
    OneKey machine log disk' ∧ (ok = true →
      ∃ key, keys = ⟨some key, some (machine.library.publicOf key)⟩ ∧
        HoldsKey machine.library key disk' ∧
        ∀ used ∈ log, used = (key, machine.library.publicOf key)) := by
  rcases oneKey with ⟨missing, rfl⟩ | ⟨key, holds, same⟩
  · have created := cryptoInitKeys_of_no_publicFile readsBack missing
    rw [unlocked] at created
    rcases created with ⟨failed, still⟩ | ⟨key, holds, made⟩
    · refine ⟨Or.inl ⟨still, rfl⟩, fun succeeded => ?_⟩
      rw [succeeded] at failed
      cases failed
    · exact ⟨Or.inr ⟨key, holds, by simp⟩, fun _ => ⟨key, made, holds, by simp⟩⟩
  · have loaded := cryptoInitKeys_of_holdsKey holds
    rw [unlocked] at loaded
    obtain ⟨rfl, read⟩ := loaded
    exact ⟨Or.inr ⟨key, holds, same⟩, fun succeeded => ⟨key, read succeeded, holds, same⟩⟩

/-- The key files are of no concern to what happens after the keys are loaded. -/
theorem OneKey.withWorld {machine : Machine κ π} {log : List (κ × π)} {disk : Disk}
    (oneKey : OneKey machine log disk) (world : World) :
    OneKey machine log (disk.withWorld world) := by
  rcases oneKey with missing | ⟨key, holds, same⟩
  · exact Or.inl missing
  · exact Or.inr ⟨key, ⟨holds.privateFile, holds.publicFile⟩, same⟩

/-- What is logged of a run that gets to its prompt was used with its keys. -/
theorem oneKey_leaves {machine : Machine κ π} (readsBack : machine.library.ReadsBack)
    {log logged : List (κ × π)} {disk : Disk} {invocation : Invocation}
    (oneKey : OneKey machine log disk)
    (own : ∀ keys ∈ logged, ∃ running,
      (machine.boot disk invocation).2 = .ok running ∧ running.keys = keys) :
    OneKey machine (log ++ logged) (machine.leaves disk invocation) := by
  have step := bootStep machine disk invocation
  unfold Machine.leaves Machine.main
  generalize machine.boot disk invocation = booted at step own ⊢
  -- a run that ends before its prompt has no keys to log
  have unlogged {status : Int32} (stopped : booted.2 = .error status) : logged = [] := by
    rw [List.eq_nil_iff_forall_not_mem]
    intro keys member
    obtain ⟨running, started, _⟩ := own keys member
    rw [stopped] at started
    cases started
  cases step with
  | refused =>
    rw [unlogged rfl, List.append_nil]
    exact oneKey
  | keyless failed =>
    rw [unlogged rfl, List.append_nil]
    exact (oneKey_cryptoInitKeys readsBack oneKey failed).1
  | chainless unlocked =>
    rw [unlogged rfl, List.append_nil]
    exact (oneKey_cryptoInitKeys readsBack oneKey unlocked).1.withWorld _
  | @running keys disk' _ _ _ _ _ _ _ unlocked _ =>
    obtain ⟨key, made, holds, same⟩ := (oneKey_cryptoInitKeys readsBack oneKey unlocked).2 rfl
    refine Or.inr ⟨key, ⟨holds.privateFile, holds.publicFile⟩, ?_⟩
    rw [List.forall_mem_append]
    refine ⟨same, fun used member => ?_⟩
    obtain ⟨_, ⟨⟩, rfl⟩ := own used member
    exact keys_of_made made

/-- However often the program is run on a disk without a public key, with whatever arguments
and inputs, and whichever writes fail or are cut: all runs that get to their prompt have one
private key, and the public key that belongs to it. -/
theorem runs_share_keys (machine : Machine κ π) (readsBack : machine.library.ReadsBack)
    (disk : Disk) (missing : disk.publicFile = none) (invocations : List Invocation) :
    ∀ running ∈ Runs.trace machine.leaves machine.started disk invocations,
      running.keys.2 = machine.library.publicOf running.keys.1 ∧
      ∀ other ∈ Runs.trace machine.leaves machine.started disk invocations,
        other.keys = running.keys := by
  have admitted : Runs.Guarded machine.leaves (fun _ _ => True) disk invocations :=
    Runs.guarded_of_forall_mem _ (fun _ _ _ => trivial) disk
  -- as soon as one run has its keys, these are the keys in the files
  have keeps (log : List (Running κ π)) (disk : Disk) (invocation : Invocation)
      (oneKey : OneKey machine (log.map Running.keys) disk) (_ : True) :
      OneKey machine ((log ++ machine.started disk invocation).map Running.keys)
        (machine.leaves disk invocation) := by
    rw [List.map_append]
    apply oneKey_leaves readsBack oneKey
    rw [List.forall_mem_map]
    intro running member
    exact ⟨running, boot_of_mem_started member, rfl⟩
  have initial : OneKey machine (([] : List (Running κ π)).map Running.keys) disk :=
    Or.inl ⟨missing, rfl⟩
  have oneKey := Runs.logged_invariant machine.leaves machine.started
    (fun log => OneKey machine (log.map Running.keys)) keeps initial admitted
  rw [List.nil_append] at oneKey
  intro running member
  rcases oneKey with ⟨_, none⟩ | ⟨key, _, same⟩
  · rw [List.map_eq_nil_iff] at none
    rw [none] at member
    cases member
  · rw [List.forall_mem_map] at same
    rw [same running member]
    exact ⟨rfl, same⟩

open Sample

/-- Both sample runs get to their prompts, with one key pair. -/
theorem runs_share_keys_twice :
    (Runs.trace machine.leaves machine.started blankDisk twoRuns).length = 2 ∧
      ∀ running ∈ Runs.trace machine.leaves machine.started blankDisk twoRuns,
        ∀ other ∈ Runs.trace machine.leaves machine.started blankDisk twoRuns,
          other.keys = running.keys := by
  refine ⟨by decide +kernel, fun running member => ?_⟩
  exact (runs_share_keys machine library_readsBack blankDisk rfl twoRuns running member).2

end Attendance
