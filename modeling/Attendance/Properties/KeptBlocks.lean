import Attendance.Properties.Restarts

/-!
# Blocks stay where they are

No command takes a block off the chain, moves one or puts one in between, and no restart does.
What tampering changes is the status of a block, and never that of the first.
-/
namespace Attendance

variable {κ π : Type}

/-- The statuses that the tamper demonstration writes. -/
def tamperedStatuses : List (CText.CStr statusLen) :=
  [.strncpy "PRESENT".toList, .strncpy "ABSENT".toList]

/-- Each block is found again at its position, up to its status, and the first one as it was. -/
def Kept (before after : List Block) : Prop :=
  ∀ (i : Nat) (block : Block), before[i]? = some block → ∃ later, after[i]? = some later ∧
    (later = block ∨ (i ≠ 0 ∧ ∃ status ∈ tamperedStatuses, later = { block with status }))

theorem Kept.refl (blocks : List Block) : Kept blocks blocks :=
  fun _ block there => ⟨block, there, Or.inl rfl⟩

theorem Kept.trans {before middle after : List Block} (first : Kept before middle)
    (second : Kept middle after) : Kept before after := by
  intro i block there
  obtain ⟨mid, found, changed⟩ := first i block there
  obtain ⟨later, found', changed'⟩ := second i mid found
  refine ⟨later, found', ?_⟩
  rcases changed with rfl | ⟨inner, status, written, rfl⟩
  · exact changed'
  · rcases changed' with rfl | ⟨_, status', written', rfl⟩
    · exact Or.inr ⟨inner, status, written, rfl⟩
    · exact Or.inr ⟨inner, status', written', rfl⟩

theorem Kept.of_prefix {before after : List Block} (grown : before <+: after) :
    Kept before after := by
  obtain ⟨added, rfl⟩ := grown
  intro i block there
  obtain ⟨inside, _⟩ := List.getElem?_eq_some_iff.mp there
  exact ⟨block, (List.getElem?_append_left inside).trans there, Or.inl rfl⟩

private theorem tamperedStatus_mem (status : CText.CStr statusLen) :
    tamperedStatus status ∈ tamperedStatuses := by
  unfold tamperedStatus
  split
  · exact List.mem_cons_self
  · exact List.mem_cons_of_mem _ List.mem_cons_self

theorem Kept.head {before after : List Block} (kept : Kept before after) {genesis : Block}
    (first : before.head? = some genesis) : after.head? = some genesis := by
  rw [List.head?_eq_getElem?] at first ⊢
  obtain ⟨block, there, rfl | ⟨inner, _⟩⟩ := kept 0 genesis first
  · exact there
  · exact absurd rfl inner

/-! ### One run -/

private theorem kept_tamper (env : Env) (world : World) (chain : Blockchain) (blockIndex : Int32) :
    Kept chain.blocks (blockchainTamperDemo env world chain blockIndex).state.2.blocks := by
  unfold blockchainTamperDemo
  split
  next => exact .refl chain.blocks
  next inside =>
    split
    next => exact .refl chain.blocks
    next inner =>
      intro i block there
      simp only [List.getElem?_modify, there]
      split
      next here =>
        have positive : i ≠ 0 := by
          rintro rfl
          have zero : blockIndex.toInt = (0 : Int32).toInt := by
            have above := Int32.le_iff_toInt_le.mp (Int32.not_lt.mp (not_or.mp inside).1)
            simp only [Int32.toInt_zero] at above ⊢
            omega
          exact inner (Int32.toInt_inj.mp zero)
        exact ⟨_, rfl, Or.inr ⟨positive, _, tamperedStatus_mem block.status, rfl⟩⟩
      next => exact ⟨block, rfl, Or.inl rfl⟩

theorem kept_sessionStep (env : Env) (registry : StudentRegistry) (session : Session)
    (command : Command) :
    Kept session.chain.blocks (sessionStep env registry session command).chain.blocks := by
  cases mining : command.miningCall with
  | some call =>
    rw [sessionStep_of_miningCall env registry session mining]
    refine mine_rel call (fun before _ after _ => Kept before.blocks after.blocks)
      (fun _ _ => .refl _) (fun first second => first.trans second) (fun st => ?_)
      session.toMineState
    have step := call.roundStep env session.difficulty st
    generalize call.round env session.difficulty st = result at step ⊢
    cases step with
    | idle | lost => exact .refl _
    | confirmed _ _ _ appended => exact Kept.of_prefix (appended ▸ List.prefix_append _ _)
  | none =>
    by_cases tampers : ∃ i, command = .tamper i
    · obtain ⟨i, rfl⟩ := tampers
      exact kept_tamper env session.world session.chain i
    · rw [chain_sessionStep_of_other env registry session mining (not_exists.mp tampers)]
      exact .refl _

private theorem kept_prompts (env : Env) (registry : StudentRegistry) (session : Session)
    (inputs : List (CText.CStr lineLen)) :
    (promptStates env registry session inputs).Pairwise
      (fun before after => Kept before.chain.blocks after.chain.blocks) ∧
    ∀ state ∈ promptStates env registry session inputs,
      Kept session.chain.blocks state.chain.blocks ∧ Kept state.chain.blocks
        (Runs.final (lineStep env registry) session (processed inputs)).chain.blocks := by
  rw [promptStates_eq]
  -- a line that runs no command shows the same chain again
  have step (session : Session) (input : CText.CStr lineLen) :
      Kept session.chain.blocks (lineStep env registry session input).chain.blocks := by
    unfold lineStep
    split
    · exact kept_sessionStep env registry session _
    · exact .refl _
  have admitted : Runs.Guarded (lineStep env registry) (fun _ _ => True) session
      (processed inputs) :=
    Runs.guarded_of_forall_mem _ (fun _ _ _ => trivial) session
  obtain ⟨ordered, each⟩ := Runs.states_ordered (lineStep env registry) (fun _ => True)
    (fun before after => Kept before.chain.blocks after.chain.blocks) (fun _ => .refl _)
    Kept.trans (fun session input _ _ => ⟨trivial, step session input⟩) trivial admitted
  exact ⟨ordered, fun state member => (each state member).2⟩

/-! ### All runs -/

/-- The chains that are shown at the prompts. -/
def shown (log : List ((κ × π) × Session)) : List Blockchain := log.map fun keyed => keyed.2.chain

/-- The chain that will be loaded keeps the blocks of all chains before. -/
structure LoadsKept (machine : Machine κ π) (history : List Blockchain) (disk : Disk) : Prop where
  ordered : history.Pairwise fun earlier later => Kept earlier.blocks later.blocks
  loads : history ≠ [] → ∃ chain, machine.loads disk = some chain ∧
    ∀ earlier ∈ history, Kept earlier.blocks chain.blocks

private theorem LoadsKept.of_loads {machine : Machine κ π} {history : List Blockchain}
    {disk disk' : Disk} (kept : LoadsKept machine history disk)
    (same : machine.loads disk' = machine.loads disk) : LoadsKept machine history disk' :=
  ⟨kept.ordered, fun nonempty => same.symm ▸ kept.loads nonempty⟩

theorem loadsKept_leaves {machine : Machine κ π} (neverCut : machine.NeverCut)
    {history : List Blockchain} {disk : Disk} {invocation : Invocation}
    (kept : LoadsKept machine history disk)
    (opened : invocation.Untampered ∨ ∀ call, machine.write call ≠ .notOpened)
    (roundTrips : ∀ visit ∈ machine.visit disk invocation, ∀ block ∈ visit.2.chain.blocks,
      machine.RoundTrips block) :
    LoadsKept machine (history ++ shown (machine.prompts disk invocation))
      (machine.leaves disk invocation) := by
  have step := chainStep neverCut disk invocation
  generalize machine.visit disk invocation = visits at step roundTrips
  generalize machine.prompts disk invocation = prompts at step ⊢
  generalize machine.leaves disk invocation = disk' at step ⊢
  cases step with
  | silent loads => simpa [shown] using kept.of_loads loads
  | ran running resumes _ _ _ stored =>
    have below : ∀ earlier ∈ history, Kept earlier.blocks running.session.chain.blocks := by
      intro earlier member
      obtain ⟨before, loads, each⟩ := kept.loads (List.ne_nil_of_mem member)
      cases resumes with
      | loaded resumed =>
        obtain rfl := Option.some.inj (loads.symm.trans resumed)
        exact each earlier member
      | created unread =>
        rw [unread] at loads
        cases loads
    obtain ⟨ordered, each⟩ := kept_prompts (machine.env running.keys) running.registry
      running.session invocation.lines
    simp only [shown, List.map_map]
    constructor
    case ordered =>
      rw [List.pairwise_append, List.pairwise_map]
      refine ⟨kept.ordered, ordered, fun earlier member => ?_⟩
      rw [List.forall_mem_map]
      exact fun state there => (below earlier member).trans (each state there).1
    case loads =>
      intro _
      refine ⟨_, stored opened (roundTrips _ (List.mem_singleton_self _)), ?_⟩
      rw [List.forall_mem_append, List.forall_mem_map]
      refine ⟨fun earlier member => ?_, fun state there => (each state there).2⟩
      -- the chain that is left is that of the last prompt
      have last := each _ (promptStates_eq (machine.env running.keys) running.registry
        running.session _ ▸ Runs.final_mem_states _ _ _)
      exact (below earlier member).trans last.1

/-- Through all runs. -/
theorem loadsKept_trace {machine : Machine κ π} (neverCut : machine.NeverCut)
    {history : List Blockchain} {disk : Disk} (kept : LoadsKept machine history disk)
    {invocations : List Invocation}
    (opened : (∀ invocation ∈ invocations, invocation.Untampered) ∨
      ∀ call, machine.write call ≠ .notOpened)
    (roundTrips : ∀ visit ∈ Runs.trace machine.leaves machine.visit disk invocations,
      ∀ block ∈ visit.2.chain.blocks, machine.RoundTrips block) :
    LoadsKept machine
      (history ++ shown (Runs.trace machine.leaves machine.prompts disk invocations))
      (Runs.final machine.leaves disk invocations) := by
  have guarded := guarded_runs opened roundTrips
  have keeps (log : List ((κ × π) × Session)) (disk : Disk) (invocation : Invocation)
      (kept : LoadsKept machine (history ++ shown log) disk)
      (ok : (invocation.Untampered ∨ ∀ call, machine.write call ≠ .notOpened) ∧
        ∀ visit ∈ machine.visit disk invocation, ∀ block ∈ visit.2.chain.blocks,
          machine.RoundTrips block) :
      LoadsKept machine (history ++ shown (log ++ machine.prompts disk invocation))
        (machine.leaves disk invocation) := by
    rw [shown, List.map_append, ← List.append_assoc]
    exact loadsKept_leaves neverCut kept ok.1 ok.2
  have initial : LoadsKept machine (history ++ shown ([] : List ((κ × π) × Session))) disk := by
    rwa [shown, List.map_nil, List.append_nil]
  exact Runs.logged_invariant machine.leaves machine.prompts
    (fun log disk => LoadsKept machine (history ++ shown log) disk) keeps initial guarded

theorem LoadsKept.pairwise {machine : Machine κ π} {log : List ((κ × π) × Session)} {disk : Disk}
    (kept : LoadsKept machine (shown log) disk) :
    log.Pairwise fun earlier later => Kept earlier.2.chain.blocks later.2.chain.blocks := by
  have ordered := kept.ordered
  rwa [shown, List.pairwise_map] at ordered

theorem loadsKept_nil (machine : Machine κ π) (disk : Disk) : LoadsKept machine [] disk :=
  ⟨.nil, fun nonempty => absurd rfl nonempty⟩

/-- Whatever is marked, mined and tampered with, and however often the program is started again, if
no save of the chain is cut, its blocks are read back, and nothing is tampered with or the file can
always be opened: each block that is shown at one prompt is on the chain at every later one, at its
position. It then is as it was, or has another status and is not the first block. -/
theorem runs_keep_blocks (machine : Machine κ π) (neverCut : machine.NeverCut) (disk : Disk)
    (invocations : List Invocation)
    (opened : (∀ invocation ∈ invocations, invocation.Untampered) ∨
      ∀ call, machine.write call ≠ .notOpened)
    (roundTrips : ∀ visit ∈ Runs.trace machine.leaves machine.visit disk invocations,
      ∀ block ∈ visit.2.chain.blocks, machine.RoundTrips block) :
    (Runs.trace machine.leaves machine.prompts disk invocations).Pairwise
      fun earlier later => Kept earlier.2.chain.blocks later.2.chain.blocks := by
  have kept := loadsKept_trace neverCut (loadsKept_nil machine disk) opened roundTrips
  rw [List.nil_append] at kept
  exact kept.pairwise

open Sample

/-- The second run flips the status that the first one flipped, and appends a block. -/
theorem runs_keep_blocks_tampered :
    (Runs.trace machine.leaves machine.prompts blankDisk flippedRuns).map
      (fun keyed => keyed.2.chain.blocks.length) = [1, 1, 2, 2, 2, 2, 3, 3, 3] ∧
    (Runs.trace machine.leaves machine.prompts blankDisk flippedRuns).Pairwise
      fun earlier later => Kept earlier.2.chain.blocks later.2.chain.blocks := by
  refine ⟨by decide +kernel, runs_keep_blocks machine ?_ blankDisk flippedRuns ?_ ?_⟩
  · rintro call count ⟨⟩
  · exact Or.inr fun call opened => by cases opened
  · decide +kernel

/-! ### A file that was cut -/

/-- Either there is nothing to load yet, or the first prompt had a chain that is new. -/
structure StartedOver (machine : Machine κ π) (since : Nat) (log : List ((κ × π) × Session))
    (disk : Disk) : Prop where
  unread : log = [] → machine.loads disk = none ∧ since ≤ disk.calls
  first : ∀ keyed ∈ log.head?, ∃ genesis, IsGenesis (machine.env keyed.1) genesis ∧
    keyed.2.chain.blocks = [genesis] ∧
    ∃ call, since ≤ call ∧ call ≤ keyed.2.world.calls ∧ genesis.timestamp = machine.time call

private theorem startedOver_leaves {machine : Machine κ π} (neverCut : machine.NeverCut)
    {since : Nat} {log : List ((κ × π) × Session)} {disk : Disk} {invocation : Invocation}
    (anew : StartedOver machine since log disk) :
    StartedOver machine since (log ++ machine.prompts disk invocation)
      (machine.leaves disk invocation) := by
  cases log with
  | cons keyed log =>
    refine ⟨fun empty => ?_, anew.first⟩
    simp at empty
  | nil =>
    obtain ⟨unread, waited⟩ := anew.unread rfl
    have step := chainStep neverCut disk invocation
    generalize machine.visit disk invocation = visits at step
    generalize machine.prompts disk invocation = prompts at step ⊢
    generalize machine.leaves disk invocation = disk' at step ⊢
    cases step with
    -- a start that fails leaves the file as it was
    | silent loads later => exact ⟨fun _ => ⟨loads.trans unread, Nat.le_trans waited later⟩, by simp⟩
    | ran running resumes =>
      refine ⟨fun empty => ?_, ?_⟩
      · rw [List.nil_append, List.map_eq_nil_iff, promptStates_eq] at empty
        exact absurd (Runs.final_mem_states _ _ _) (empty ▸ List.not_mem_nil)
      · rw [List.nil_append, List.head?_map, promptStates_eq, Runs.head?_states]
        rintro keyed ⟨⟩
        cases resumes with
        | loaded loads =>
          rw [unread] at loads
          cases loads
        | created _ genesis isGenesis blocks call since before time =>
          exact ⟨genesis, isGenesis, blocks, call, Nat.le_trans waited since, before, time⟩

/-- Where power fails while the chain is saved, and its file is left cut anywhere: the next run
that gets to its prompt begins a new chain, without a word, with a genesis block that shows a time
between the cut and this prompt. If no later save is cut, blocks are read back, and nothing is
tampered with or the file can always be opened, this is the first block at every prompt from then
on, and no run ever sees a block of the old chain. -/
theorem cut_file_starts_over (machine : Machine κ π) (neverCut : machine.NeverCut) (keys : κ × π)
    (old : Blockchain) (readable : ∀ block ∈ old.blocks, machine.RoundTrips block) (cut : Nat)
    (short : cut < (chainFileBytes (machine.env keys) old).length) (disk : Disk)
    (damaged : disk.chainFile = some ((chainFileBytes (machine.env keys) old).take cut))
    (invocations : List Invocation)
    (opened : (∀ invocation ∈ invocations, invocation.Untampered) ∨
      ∀ call, machine.write call ≠ .notOpened)
    (roundTrips : ∀ visit ∈ Runs.trace machine.leaves machine.visit disk invocations,
      ∀ block ∈ visit.2.chain.blocks, machine.RoundTrips block) :
    ∀ keyed ∈ (Runs.trace machine.leaves machine.prompts disk invocations).head?,
      ∃ genesis, IsGenesis (machine.env keyed.1) genesis ∧ keyed.2.chain.blocks = [genesis] ∧
        (∃ call, disk.calls ≤ call ∧ call ≤ keyed.2.world.calls ∧
          genesis.timestamp = machine.time call) ∧
        ∀ later ∈ Runs.trace machine.leaves machine.prompts disk invocations,
          later.2.chain.blocks.head? = some genesis := by
  have sized : ∀ block ∈ old.blocks, machine.layout.RoundTrips (machine.env keys) block :=
    fun block member => ⟨(readable block member).sized, (readable block member).inverse⟩
  -- a beginning of a chain file does not load
  have unread : machine.loads disk = none := load_cut sized short damaged
  have admitted : Runs.Guarded machine.leaves (fun _ _ => True) disk invocations :=
    Runs.guarded_of_forall_mem _ (fun _ _ _ => trivial) disk
  have initial : StartedOver machine disk.calls [] disk :=
    ⟨fun _ => ⟨unread, Nat.le_refl _⟩, by simp⟩
  -- the file stays unread until a run reaches its prompt, which starts the chain anew
  have anew := Runs.logged_invariant machine.leaves machine.prompts
    (StartedOver machine disk.calls) (fun _ _ _ anew _ => startedOver_leaves neverCut anew)
    initial admitted
  have kept := loadsKept_trace neverCut (loadsKept_nil machine disk) opened roundTrips
  rw [List.nil_append] at anew kept
  generalize Runs.trace machine.leaves machine.prompts disk invocations = log at anew kept ⊢
  intro keyed head
  obtain ⟨genesis, isGenesis, blocks, time⟩ := anew.first keyed head
  refine ⟨genesis, isGenesis, blocks, time, fun later member => ?_⟩
  obtain ⟨rest, rfl⟩ := List.head?_eq_some_iff.mp head
  rcases List.mem_cons.mp member with rfl | after
  · rw [blocks, List.head?_cons]
  · have ordered := (List.pairwise_cons.mp kept.pairwise).1 later after
    exact ordered.head (by rw [blocks, List.head?_cons])

/-- What the first of the sample runs saves. -/
def savedChain : Blockchain :=
  ((machine.visit blankDisk (invocation "mark ALU001 PRESENT\nmine solo\n")).head?.map
    fun visit => visit.2.chain).getD ⟨[], Nat.zero_le _⟩

/-- The disk after a crash in that run, 90 bytes into its last save. -/
def cutDisk : Disk :=
  { blankDisk with
    calls := 50
    chainFile := some ((chainFileBytes (machine.env (5, 5)) savedChain).take 90) }

theorem cut_file_starts_over_sample :
    savedChain.blocks.length = 2 ∧
    (Runs.trace machine.leaves machine.prompts cutDisk twoRuns).map
      (fun keyed => keyed.2.chain.blocks.length) = [1, 1, 2, 2, 2, 3] ∧
    ∀ keyed ∈ (Runs.trace machine.leaves machine.prompts cutDisk twoRuns).head?,
      ∃ genesis, IsGenesis (machine.env keyed.1) genesis ∧ keyed.2.chain.blocks = [genesis] ∧
        (∃ call, 50 ≤ call ∧ call ≤ keyed.2.world.calls ∧
          genesis.timestamp = machine.time call) ∧
        ∀ later ∈ Runs.trace machine.leaves machine.prompts cutDisk twoRuns,
          later.2.chain.blocks.head? = some genesis := by
  refine ⟨by decide +kernel, by decide +kernel, cut_file_starts_over machine ?_ (5, 5) savedChain
    ?_ 90 ?_ cutDisk rfl twoRuns ?_ ?_⟩
  · rintro call count ⟨⟩
  · decide +kernel
  · decide +kernel
  · exact Or.inr fun call opened => by cases opened
  · decide +kernel

end Attendance
