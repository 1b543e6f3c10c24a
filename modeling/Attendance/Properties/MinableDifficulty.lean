import Attendance.Lines
import Attendance.Sample

/-!
# Difficulties that can be mined at

`--difficulty` is clamped, but the `difficulty` command stores its value before it looks
at the limits. The session stays minable exactly as long as no line asks for a value
outside them.
-/
namespace Attendance

open CText Scan

/-- The difficulty is within the limits, and `mine_block_pow` mines at it whatever block can
be mined at all. -/
structure Minable (env : Env) (session : Session) : Prop where
  inRange : DifficultyInRange session.difficulty
  accepted : ∀ (block : Block) (nonce : UInt64), Meets env session.difficulty block nonce →
    (mineBlockPow env block session.difficulty).isSome = true

/-- If the line is a `difficulty` command, its argument is read as a number within the
limits. -/
def AsksWithinLimits (input : CStr lineLen) : Prop :=
  ∀ argument, fields [31, 31] (trimInput input.text) = [Keyword.difficulty.name, argument] →
    DifficultyInRange (atoi argument)

theorem minable_iff (env : Env) (session : Session) :
    Minable env session ↔ DifficultyInRange session.difficulty := by
  constructor
  · exact Minable.inRange
  · intro inRange
    refine ⟨inRange, ?_⟩
    intro block nonce meets
    exact (mineBlockPow_isSome_iff env block session.difficulty).mpr ⟨inRange, nonce, meets⟩

/-- The difficulty after a line is the one the line asks for, or else the one before. -/
private theorem inRange_lineStep_iff (env : Env) (registry : StudentRegistry) {session : Session}
    (inRange : DifficultyInRange session.difficulty) (input : CStr lineLen) :
    DifficultyInRange (lineStep env registry session input).difficulty ↔
      AsksWithinLimits input := by
  by_cases sets : ∃ value, lineAction input = .run (.difficulty value)
  · obtain ⟨value, run⟩ := sets
    obtain ⟨argument, scanned, rfl⟩ := (lineAction_difficulty_iff input value).mp run
    rw [lineStep, run]
    simp only [difficulty_sessionStep]
    constructor
    -- the line asks for one value only
    · intro within other again
      rw [scanned] at again
      cases again
      exact within
    · intro asks
      exact asks argument scanned
  -- a line that sets no difficulty asks for none
  · have asks : AsksWithinLimits input := by
      intro argument scanned
      exact absurd ⟨_, (lineAction_difficulty_iff input _).mpr ⟨argument, scanned, rfl⟩⟩ sets
    rw [iff_true_right asks, lineStep]
    split
    next command run =>
      rw [difficulty_sessionStep]
      split
      next value => exact absurd ⟨value, run⟩ sets
      next => exact inRange
    next => exact inRange

/-- Whatever the program is started with and whatever it reads, the difficulty can be mined
at in every state at the prompt exactly if no `difficulty` line it processes asks for a value
outside the limits. -/
theorem difficulty_stays_minable_iff (env : Env) (layout : BlockLayout)
    (registry : StudentRegistry) (world : World) (argv : List (List Char)) (model : LedgerModel)
    (difficulty : Int32) (session : Session)
    (parsed : parseCliArgs argv = some (model, difficulty))
    (started : startUp env layout registry model difficulty world = some session)
    (inputs : List (CStr lineLen)) :
    (∀ state ∈ promptStates env registry session inputs, Minable env state) ↔
      ∀ input ∈ processed inputs, AsksWithinLimits input := by
  have initial : DifficultyInRange session.difficulty := by
    rw [difficulty_startUp started]
    exact inRange_parseCliArgs parsed
  rw [forall_mem_promptStates, ← Runs.guarded_iff_forall_mem (lineStep env registry) session]
  have always : Runs.Guarded (lineStep env registry) (fun _ _ => True) session
      (processed inputs) := Runs.guarded_of_forall_mem _ (fun _ _ _ => trivial) session
  have minable := (minable_iff env session).mpr initial
  refine Runs.throughout_iff_guarded (lineStep env registry) (I := fun _ => True) ?_ ?_ trivial
    minable always
  · exact fun _ _ _ _ => trivial
  · intro session input _ _ minable
    rw [minable_iff]
    exact inRange_lineStep_iff env registry minable.inRange input

/-- The arguments `--difficulty 0`, which are clamped. -/
def lowArguments : List (List Char) :=
  ["attendance".toList, "--difficulty".toList, "0".toList]

def nineLine : CStr lineLen := ⟨"difficulty 9\n".toList, by decide⟩

theorem startUp_lowArguments :
    parseCliArgs lowArguments = some (.utxo, 1) ∧
    startUp Sample.env Sample.layout Sample.registry .utxo 1 ⟨0, none⟩ =
      some (Sample.start .utxo) :=
  ⟨by decide, by rw [startUp_fresh, Sample.startFresh_eq]⟩

theorem difficulty_stays_minable_iff_sample :
    let inputs := [⟨"difficulty 3\n".toList, by decide⟩, ⟨"mine solo\n".toList, by decide⟩,
      ⟨"quit\n".toList, by decide⟩, nineLine]
    (∀ state ∈ promptStates Sample.env Sample.registry (Sample.start .utxo) inputs,
      Minable Sample.env state) ↔
      ∀ input ∈ processed inputs, AsksWithinLimits input :=
  difficulty_stays_minable_iff Sample.env Sample.layout Sample.registry ⟨0, none⟩ lowArguments
    .utxo 1 (Sample.start .utxo) startUp_lowArguments.1 startUp_lowArguments.2 _

/-- `difficulty 9` is answered with an error message, and is the difficulty from then on. -/
theorem rejected_difficulty_stays :
    parseCliArgs lowArguments = some (.utxo, 1) ∧
    startUp Sample.env Sample.layout Sample.registry .utxo 1 ⟨0, none⟩ =
      some (Sample.start .utxo) ∧
    ¬∀ state ∈ promptStates Sample.env Sample.registry (Sample.start .utxo)
      [nineLine], Minable Sample.env state := by
  refine ⟨startUp_lowArguments.1, startUp_lowArguments.2, ?_⟩
  rw [forall_mem_promptStates]
  intro all
  have read : processed [nineLine] = [nineLine] := by decide
  rw [read] at all
  have stored := (all [nineLine] List.prefix_rfl).inRange
  have nine : lineAction nineLine = .run (.difficulty 9) := rfl
  rw [Runs.final_cons, Runs.final_nil, lineStep, nine] at stored
  simp only [difficulty_sessionStep] at stored
  exact absurd stored (by decide)

end Attendance
