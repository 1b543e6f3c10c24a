import Attendance.Ledger.Operations
import Attendance.Properties.KeyFiles
import Mathlib.Data.List.Chain

/-!
# One chain through all runs

What a run leaves behind is the chain, in its file. The next run goes on with it, whatever was
tampered with; what was pending and what the ledger held is gone. Without tampering the chain
of a new installation only grows, through all runs.
-/
namespace Attendance

variable {κ π : Type}

/-- The memory image of the block can be read back. -/
structure Machine.RoundTrips (machine : Machine κ π) (block : Block) : Prop where
  sized : (machine.blockBytes block).length = machine.layout.size
  inverse : machine.layout.read (machine.blockBytes block) = block

instance (machine : Machine κ π) : DecidablePred machine.RoundTrips := fun block =>
  decidable_of_iff ((machine.blockBytes block).length = machine.layout.size ∧
      machine.layout.read (machine.blockBytes block) = block)
    ⟨fun ⟨sized, inverse⟩ => ⟨sized, inverse⟩, fun ⟨sized, inverse⟩ => ⟨sized, inverse⟩⟩

/-- No write to the chain file leaves a part of what it should have written. -/
def Machine.NeverCut (machine : Machine κ π) : Prop :=
  ∀ call count, machine.write call ≠ .cutAfter count

theorem Machine.NeverCut.env {machine : Machine κ π} (neverCut : machine.NeverCut)
    (keys : κ × π) : Attendance.NeverCut (machine.env keys) := neverCut

/-- The line runs the tamper demonstration. -/
def tampers (input : CText.CStr lineLen) : Bool :=
  match lineAction input with
  | .run (.tamper _) => true
  | _ => false

theorem ne_tamper_of_run {input : CText.CStr lineLen} {command : Command}
    (untampered : tampers input = false) (run : lineAction input = .run command) (i : Int32) :
    command ≠ .tamper i := by
  rintro rfl
  rw [tampers, run] at untampered
  cases untampered

/-- The chain a run on this disk loads. -/
def Machine.loads (machine : Machine κ π) (disk : Disk) : Option Blockchain :=
  blockchainLoad machine.layout ⟨disk.calls, disk.chainFile⟩

theorem blockchainLoad_congr (layout : BlockLayout) {world world' : World}
    (same : world'.chainFile = world.chainFile) :
    blockchainLoad layout world' = blockchainLoad layout world := by
  rw [blockchainLoad, blockchainLoad, same]

theorem Machine.loads_congr {machine : Machine κ π} {disk disk' : Disk}
    (same : disk'.chainFile = disk.chainFile) : machine.loads disk' = machine.loads disk :=
  blockchainLoad_congr machine.layout same

/-- A saved chain is loaded again. -/
theorem Machine.load_of_saved {machine : Machine κ π} {keys : κ × π} {world : World}
    {chain : Blockchain} (saved : SavedChain (machine.env keys) world chain)
    (roundTrips : ∀ block ∈ chain.blocks, machine.RoundTrips block) :
    blockchainLoad machine.layout world = some chain := by
  have readable : ∀ block ∈ chain.blocks, machine.layout.RoundTrips (machine.env keys) block :=
    fun block member => ⟨(roundTrips block member).sized, (roundTrips block member).inverse⟩
  refine load_chainFileBytes readable saved.nonempty [] ?_
  rw [saved.file, List.append_nil]

/-! ### One run -/

theorem persists_lineStep {env : Env} (neverCut : NeverCut env) (registry : StudentRegistry)
    (session : Session) (input : CText.CStr lineLen)
    (opened : tampers input = false ∨ ∀ call, env.write call ≠ .notOpened) :
    Persists env session.world session.chain (lineStep env registry session input).world
      (lineStep env registry session input).chain := by
  unfold lineStep
  split
  next command run =>
    apply persists_sessionStep neverCut
    rintro i rfl
    exact opened.elim (fun untampered => absurd rfl (ne_tamper_of_run untampered run i))
      fun all => all _
  next => exact .refl _ _

/-- From the first prompt of a run to the last. -/
theorem persists_lines {env : Env} (neverCut : NeverCut env) (registry : StudentRegistry)
    (session : Session) {inputs : List (CText.CStr lineLen)}
    (opened : (∀ input ∈ inputs, tampers input = false) ∨ ∀ call, env.write call ≠ .notOpened) :
    Persists env session.world session.chain
      (Runs.final (lineStep env registry) session inputs).world
      (Runs.final (lineStep env registry) session inputs).chain := by
  have guarded : Runs.Guarded (lineStep env registry)
      (fun _ input => tampers input = false ∨ ∀ call, env.write call ≠ .notOpened) session inputs :=
    Runs.guarded_of_forall_mem _ (fun input member _ => opened.imp_left (· input member)) session
  exact Runs.guarded_invariant (lineStep env registry)
    (fun after => Persists env session.world session.chain after.world after.chain)
    (fun after input held ok => held.trans (persists_lineStep neverCut registry after input ok))
    (.refl _ _) guarded

theorem balances_firstPrompt (model : LedgerModel) (difficulty : Int32)
    (registry : StudentRegistry) (world : World) (chain : Blockchain) (owner : List Char) :
    ledgerBalance (firstPrompt model difficulty registry world chain).ledger owner = 0 := by
  unfold ledgerBalance firstPrompt
  simp only [model_ledgerInit]
  cases model with
  | utxo => rfl
  | account =>
    obtain ⟨ids, _, table⟩ := accountLedger_ledgerInit .account registry
    simp only [table]
    exact lookups_keeps (fun ledger => ledger.balanceOf owner = 0)
      (fun ledger id _ zero => (balanceOf_findOrCreateAccount ledger id owner).trans zero) rfl

/-! ### The chain is handed on -/

/-- No line that is processed runs the tamper demonstration. -/
def Invocation.Untampered (invocation : Invocation) : Prop :=
  ∀ input ∈ processed invocation.lines, tampers input = false

instance : DecidablePred Invocation.Untampered := fun invocation =>
  inferInstanceAs (Decidable (∀ input ∈ processed invocation.lines, tampers input = false))

/-- Each run went on with the chain of the run before, without pending blocks or coins, and the
next one will load the chain of the last. -/
structure HandedOn (machine : Machine κ π) (log : List (Session × Session)) (disk : Disk) :
    Prop where
  chained : log.IsChain fun visit next => next.1.chain = visit.2.chain
  fresh : ∀ visit ∈ log, visit.1.pool.blocks = [] ∧
    ∀ owner, ledgerBalance visit.1.ledger owner = 0
  loads : ∀ visit ∈ log.getLast?, machine.loads disk = some visit.2.chain

private theorem HandedOn.of_loads {machine : Machine κ π} {log : List (Session × Session)}
    {disk disk' : Disk} (handed : HandedOn machine log disk)
    (same : machine.loads disk' = machine.loads disk) : HandedOn machine log disk' :=
  ⟨handed.chained, handed.fresh, fun visit last => same.trans (handed.loads visit last)⟩

/-- At the last prompt of a run the file holds the chain, whether or not it was written. -/
theorem load_lastPrompt {machine : Machine κ π} (neverCut : machine.NeverCut)
    {running : Running κ π} {invocation : Invocation} {world : World}
    (found : startChain (machine.env running.keys) machine.layout world =
      (running.session.world, some running.session.chain))
    (opened : invocation.Untampered ∨ ∀ call, machine.write call ≠ .notOpened)
    (roundTrips : ∀ block ∈ (machine.lastPrompt running invocation).chain.blocks,
      machine.RoundTrips block) :
    blockchainLoad machine.layout (machine.lastPrompt running invocation).world =
      some (machine.lastPrompt running invocation).chain := by
  have persists := persists_lines (neverCut.env running.keys) running.registry running.session
    opened
  rcases startChain_some found with ⟨same, loaded⟩ | ⟨_, _, saved, _⟩
  · rcases persists.file with saved | ⟨unwritten, kept⟩
    · exact Machine.load_of_saved saved roundTrips
    · rw [Machine.lastPrompt, blockchainLoad_congr machine.layout unwritten, same, loaded, kept]
  · exact Machine.load_of_saved (persists.saved saved) roundTrips

/-- Where the chain of a first prompt is from: it was loaded, or there was none and it is new. -/
inductive Resumes (machine : Machine κ π) (disk : Disk) (running : Running κ π) : Prop where
  | loaded (loads : machine.loads disk = some running.session.chain)
      (later : disk.calls ≤ running.session.world.calls)
  | created (unread : machine.loads disk = none) (genesis : Block)
      (isGenesis : IsGenesis (machine.env running.keys) genesis)
      (blocks : running.session.chain.blocks = [genesis]) (call : Nat) (since : disk.calls ≤ call)
      (before : call ≤ running.session.world.calls) (time : genesis.timestamp = machine.time call)

/-- Everything a run can do with the chain: it does not get to its prompt and leaves what can be
loaded as it was, or it gets there and leaves the chain of its last prompt. -/
inductive ChainStep (machine : Machine κ π) (disk : Disk) (invocation : Invocation) :
    List (Session × Session) → List ((κ × π) × Session) → Disk → Prop where
  | silent {disk' : Disk} (loads : machine.loads disk' = machine.loads disk)
      (later : disk.calls ≤ disk'.calls) : ChainStep machine disk invocation [] [] disk'
  | ran {disk' : Disk} (running : Running κ π) (resumes : Resumes machine disk running)
      (unmarked : running.session.pool.blocks = [])
      (unpaid : ∀ owner, ledgerBalance running.session.ledger owner = 0)
      (clock : disk'.calls = (machine.lastPrompt running invocation).world.calls)
      (stored : (invocation.Untampered ∨ ∀ call, machine.write call ≠ .notOpened) →
        (∀ block ∈ (machine.lastPrompt running invocation).chain.blocks,
          machine.RoundTrips block) →
        machine.loads disk' = some (machine.lastPrompt running invocation).chain) :
      ChainStep machine disk invocation
        [(running.session, machine.lastPrompt running invocation)]
        ((promptStates (machine.env running.keys) running.registry running.session
          invocation.lines).map (Prod.mk running.keys)) disk'

theorem chainStep {machine : Machine κ π} (neverCut : machine.NeverCut) (disk : Disk)
    (invocation : Invocation) :
    ChainStep machine disk invocation (machine.visit disk invocation)
      (machine.prompts disk invocation) (machine.leaves disk invocation) := by
  have step := bootStep machine disk invocation
  unfold Machine.visit Machine.prompts Machine.leaves Machine.main
  have file := chainFile_cryptoInitKeys machine.library disk
  have calls := calls_cryptoInitKeys machine.library disk
  generalize machine.boot disk invocation = booted at step ⊢
  cases step with
  | refused => exact .silent rfl (Nat.le_refl _)
  | keyless failed =>
    rw [failed] at file calls
    exact .silent (Machine.loads_congr file) calls
  | @chainless keys disk' world unlocked failed =>
    rw [unlocked] at file calls
    -- the genesis block was not made, or its file not opened
    obtain ⟨later, unwritten⟩ := startChain_none (neverCut.env keys) failed
    exact .silent (Machine.loads_congr (unwritten.trans file)) (Nat.le_trans calls later)
  | @running keys disk' world chain model difficulty registry _ _ unlocked found =>
    rw [unlocked] at file calls
    have same : machine.loads disk' = machine.loads disk := Machine.loads_congr file
    let running : Running κ π :=
      ⟨keys, registry, firstPrompt model difficulty registry world chain⟩
    have started : startChain (machine.env running.keys) machine.layout
        ⟨disk'.calls, disk'.chainFile⟩ = (running.session.world, some running.session.chain) :=
      found
    have resumes : Resumes machine disk running := by
      rcases startChain_some started with
        ⟨unchanged, loaded⟩ | ⟨unread, later, _, genesis, isGenesis, blocks, time⟩
      · exact .loaded (same.symm.trans loaded) (unchanged ▸ calls)
      · exact .created (same.symm.trans unread) genesis isGenesis blocks disk'.calls calls
          (Nat.le_of_lt later) time
    exact .ran running resumes rfl (balances_firstPrompt model difficulty registry world chain) rfl
      (load_lastPrompt neverCut started)

theorem handedOn_leaves {machine : Machine κ π} (neverCut : machine.NeverCut)
    {log : List (Session × Session)} {disk : Disk} {invocation : Invocation}
    (handed : HandedOn machine log disk)
    (opened : invocation.Untampered ∨ ∀ call, machine.write call ≠ .notOpened)
    (roundTrips : ∀ visit ∈ machine.visit disk invocation, ∀ block ∈ visit.2.chain.blocks,
      machine.RoundTrips block) :
    HandedOn machine (log ++ machine.visit disk invocation) (machine.leaves disk invocation) := by
  have step := chainStep neverCut disk invocation
  generalize machine.visit disk invocation = visits at step roundTrips ⊢
  generalize machine.prompts disk invocation = prompts at step
  generalize machine.leaves disk invocation = disk' at step ⊢
  cases step with
  | silent loads => simpa using handed.of_loads loads
  | ran running resumes unmarked unpaid _ stored =>
    constructor
    case chained =>
      rw [List.isChain_append]
      refine ⟨handed.chained, List.isChain_singleton _, fun visit last next first => ?_⟩
      obtain rfl := Option.some.inj first
      have before := handed.loads visit last
      cases resumes with
      | loaded loads => exact Option.some.inj (loads.symm.trans before)
      | created unread =>
        -- where a run has been there is a chain to load
        rw [unread] at before
        cases before
    case fresh =>
      rw [List.forall_mem_append, List.forall_mem_singleton]
      exact ⟨handed.fresh, unmarked, unpaid⟩
    case loads =>
      rw [List.getLast?_concat]
      rintro visit ⟨⟩
      exact stored opened (roundTrips _ (List.mem_singleton_self _))

/-- The assumptions about all runs, at each of them. -/
theorem guarded_runs {machine : Machine κ π} {disk : Disk} {invocations : List Invocation}
    (opened : (∀ invocation ∈ invocations, invocation.Untampered) ∨
      ∀ call, machine.write call ≠ .notOpened)
    (roundTrips : ∀ visit ∈ Runs.trace machine.leaves machine.visit disk invocations,
      ∀ block ∈ visit.2.chain.blocks, machine.RoundTrips block) :
    Runs.Guarded machine.leaves
      (fun disk invocation =>
        (invocation.Untampered ∨ ∀ call, machine.write call ≠ .notOpened) ∧
          ∀ visit ∈ machine.visit disk invocation, ∀ block ∈ visit.2.chain.blocks,
            machine.RoundTrips block) disk invocations :=
  (Runs.guarded_of_forall_mem _
    (fun invocation member _ => opened.imp_left (· invocation member)) disk).and
    (Runs.guarded_of_forall_mem_trace _ roundTrips)

/-- However often the program is run, if no save of the chain is cut, its blocks are read back, and
nothing is tampered with or the file can always be opened: a run that gets to its prompt starts
with the chain the run before it had at its last prompt, tampered blocks and all, whatever became
of the runs in between. It starts without the pending blocks and the coins of that run. -/
theorem runs_hand_on_chain (machine : Machine κ π) (neverCut : machine.NeverCut) (disk : Disk)
    (invocations : List Invocation)
    (opened : (∀ invocation ∈ invocations, invocation.Untampered) ∨
      ∀ call, machine.write call ≠ .notOpened)
    (roundTrips : ∀ visit ∈ Runs.trace machine.leaves machine.visit disk invocations,
      ∀ block ∈ visit.2.chain.blocks, machine.RoundTrips block) :
    ((Runs.trace machine.leaves machine.visit disk invocations).IsChain
      fun visit next => next.1.chain = visit.2.chain) ∧
    ∀ visit ∈ Runs.trace machine.leaves machine.visit disk invocations,
      visit.1.pool.blocks = [] ∧ ∀ owner, ledgerBalance visit.1.ledger owner = 0 := by
  have guarded := guarded_runs opened roundTrips
  have handed := Runs.logged_invariant machine.leaves machine.visit (HandedOn machine)
    (fun _ _ _ handed ok => handedOn_leaves neverCut handed ok.1 ok.2)
    ⟨.nil, by simp, by simp⟩ guarded
  rw [List.nil_append] at handed
  exact ⟨handed.chained, handed.fresh⟩

open Sample

/-- A block that was tampered with and records that were pending, a start without a registry, and
a run that goes on mining. -/
theorem runs_hand_on_chain_tampered :
    (Runs.trace machine.leaves machine.visit blankDisk tamperedRuns).map
      (fun visit => (visit.1.chain.blocks.length, visit.2.chain.blocks.length,
        visit.2.pool.blocks.length)) = [(1, 2, 1), (2, 3, 0)] ∧
    (Runs.trace machine.leaves machine.visit blankDisk tamperedRuns).IsChain
      fun visit next => next.1.chain = visit.2.chain := by
  refine ⟨by decide +kernel, (runs_hand_on_chain machine ?_ blankDisk tamperedRuns ?_ ?_).1⟩
  · rintro call count ⟨⟩
  · exact Or.inr fun call opened => by cases opened
  · decide +kernel

/-! ### The chain only grows -/

/-- The file holds a sound chain. -/
structure Intact (env : Env) (session : Session) : Prop where
  saved : SavedChain env session.world session.chain
  sound : SoundChain env session.chain

theorem intact_lineStep {env : Env} (neverCut : NeverCut env) (registry : StudentRegistry)
    {session : Session} {input : CText.CStr lineLen} (intact : Intact env session)
    (untampered : tampers input = false) :
    Intact env (lineStep env registry session input) ∧
      session.chain.blocks <+: (lineStep env registry session input).chain.blocks := by
  have saved := (persists_lineStep neverCut registry session input (Or.inl untampered)).saved
    intact.saved
  revert saved
  unfold lineStep
  split
  next command run =>
    intro saved
    obtain ⟨sound, grown⟩ := intact.sound.sessionStep (ne_tamper_of_run untampered run)
    exact ⟨⟨saved, sound⟩, grown⟩
  next => exact fun saved => ⟨⟨saved, intact.sound⟩, List.prefix_refl _⟩

theorem intact_prompts {env : Env} (neverCut : NeverCut env) (registry : StudentRegistry)
    {session : Session} {inputs : List (CText.CStr lineLen)} (intact : Intact env session)
    (untampered : ∀ input ∈ processed inputs, tampers input = false) :
    (promptStates env registry session inputs).Pairwise
      (fun before after => before.chain.blocks <+: after.chain.blocks) ∧
    ∀ state ∈ promptStates env registry session inputs, Intact env state ∧
      session.chain.blocks <+: state.chain.blocks ∧ state.chain.blocks <+:
        (Runs.final (lineStep env registry) session (processed inputs)).chain.blocks := by
  rw [promptStates_eq]
  exact Runs.states_ordered (lineStep env registry) (Intact env)
    (fun before after => before.chain.blocks <+: after.chain.blocks)
    (fun _ => List.prefix_refl _) List.IsPrefix.trans
    (fun _ _ held ok => intact_lineStep neverCut registry held ok) intact
    (Runs.guarded_of_forall_mem _ (fun input member _ => untampered input member) session)

/-- Either no run has got to its prompt, or all prompts had sound chains that lead up to the one
in the file. -/
inductive Grown (machine : Machine κ π) : List ((κ × π) × Session) → Disk → Prop where
  | unused {disk : Disk} (oneKey : OneKey machine [] disk) (missing : disk.chainFile = none) :
      Grown machine [] disk
  | grown {log : List ((κ × π) × Session)} {disk : Disk} (key : κ) (chain : Blockchain)
      (holds : HoldsKey machine.library key disk)
      (saved : SavedChain (machine.env (key, machine.library.publicOf key))
        ⟨disk.calls, disk.chainFile⟩ chain)
      (sound : SoundChain (machine.env (key, machine.library.publicOf key)) chain)
      (roundTrips : ∀ block ∈ chain.blocks, machine.RoundTrips block)
      (ordered : log.Pairwise
        fun earlier later => earlier.2.chain.blocks <+: later.2.chain.blocks)
      (each : ∀ keyed ∈ log, keyed.1 = (key, machine.library.publicOf key) ∧
        Intact (machine.env keyed.1) keyed.2 ∧ keyed.2.chain.blocks <+: chain.blocks) :
      Grown machine log disk

/-- The prompts of a run are added to those before. -/
private theorem grown_run {machine : Machine κ π} (neverCut : machine.NeverCut)
    {log : List ((κ × π) × Session)} {disk : Disk} {key : κ}
    (holds : HoldsKey machine.library key disk) (registry : StudentRegistry) {session : Session}
    (intact : Intact (machine.env (key, machine.library.publicOf key)) session)
    (ordered : log.Pairwise
      fun earlier later => earlier.2.chain.blocks <+: later.2.chain.blocks)
    (each : ∀ keyed ∈ log, keyed.1 = (key, machine.library.publicOf key) ∧
      Intact (machine.env keyed.1) keyed.2 ∧ keyed.2.chain.blocks <+: session.chain.blocks)
    {invocation : Invocation} (untampered : invocation.Untampered)
    (roundTrips : ∀ state ∈ promptStates (machine.env (key, machine.library.publicOf key)) registry
      session invocation.lines, ∀ block ∈ state.chain.blocks, machine.RoundTrips block) :
    Grown machine
      (log ++ (promptStates (machine.env (key, machine.library.publicOf key)) registry session
        invocation.lines).map (Prod.mk (key, machine.library.publicOf key)))
      (disk.withWorld (machine.lastPrompt
        ⟨(key, machine.library.publicOf key), registry, session⟩ invocation).world) := by
  obtain ⟨sorted, all⟩ := intact_prompts (neverCut.env _) registry intact untampered
  have last : machine.lastPrompt ⟨(key, machine.library.publicOf key), registry, session⟩
      invocation ∈ promptStates (machine.env (key, machine.library.publicOf key)) registry session
        invocation.lines := by
    rw [promptStates_eq]
    exact Runs.final_mem_states _ _ _
  obtain ⟨held, above, _⟩ := all _ last
  refine .grown key _ ⟨holds.privateFile, holds.publicFile⟩ ⟨held.saved.nonempty, held.saved.file⟩
    held.sound (roundTrips _ last) ?_ ?_
  -- the earlier prompts, then those of this run: each chain is a beginning of the next
  · rw [List.pairwise_append, List.pairwise_map]
    refine ⟨ordered, sorted, fun keyed member => ?_⟩
    rw [List.forall_mem_map]
    exact fun state there => (each keyed member).2.2.trans (all state there).2.1
  · rw [List.forall_mem_append, List.forall_mem_map]
    refine ⟨fun keyed member => ?_, fun state there => ?_⟩
    · obtain ⟨own, kept, before⟩ := each keyed member
      exact ⟨own, kept, before.trans above⟩
    · exact ⟨rfl, (all state there).1, (all state there).2.2⟩

theorem grown_leaves {machine : Machine κ π} (readsBack : machine.library.ReadsBack)
    (neverCut : machine.NeverCut) {log : List ((κ × π) × Session)} {disk : Disk}
    {invocation : Invocation} (grown : Grown machine log disk)
    (untampered : invocation.Untampered)
    (roundTrips : ∀ keyed ∈ machine.prompts disk invocation, ∀ block ∈ keyed.2.chain.blocks,
      machine.RoundTrips block) :
    Grown machine (log ++ machine.prompts disk invocation) (machine.leaves disk invocation) := by
  have step := bootStep machine disk invocation
  unfold Machine.leaves Machine.main
  unfold Machine.prompts at roundTrips ⊢
  have file := chainFile_cryptoInitKeys machine.library disk
  generalize machine.boot disk invocation = booted at step roundTrips ⊢
  cases grown with
  -- no run has reached its prompt yet
  | unused oneKey missing =>
    cases step with
    | refused => exact .unused oneKey missing
    | keyless failed =>
      rw [failed] at file
      exact .unused (oneKey_cryptoInitKeys readsBack oneKey failed).1 (file.trans missing)
    | chainless unlocked failed =>
      rw [unlocked] at file
      exact .unused ((oneKey_cryptoInitKeys readsBack oneKey unlocked).1.withWorld _)
        ((startChain_none (neverCut.env _) failed).2.trans (file.trans missing))
    | @running keys disk' _ _ _ _ _ _ _ unlocked found =>
      rw [unlocked] at file
      obtain ⟨key, made, holds, _⟩ := (oneKey_cryptoInitKeys readsBack oneKey unlocked).2 rfl
      obtain rfl := keys_of_made made
      -- there is no chain file yet, so the run starts with a new genesis block
      have unread : blockchainLoad machine.layout ⟨disk'.calls, disk'.chainFile⟩ = none := by
        rw [blockchainLoad, file.trans missing]
      rcases startChain_some found with
        ⟨_, loaded⟩ | ⟨_, _, saved, genesis, isGenesis, blocks, _⟩
      · rw [unread] at loaded
        cases loaded
      · refine grown_run neverCut holds _ ⟨saved, soundChain_genesis isGenesis blocks⟩ .nil (by simp)
          untampered ?_
        simpa only [List.forall_mem_map] using roundTrips
  | grown key chain holds saved sound readable ordered each =>
    have held := cryptoInitKeys_of_holdsKey holds
    cases step with
    | refused => simpa using Grown.grown key chain holds saved sound readable ordered each
    | keyless failed =>
      rw [failed] at held
      obtain ⟨rfl, _⟩ := held
      simpa using Grown.grown key chain holds saved sound readable ordered each
    | chainless unlocked failed =>
      rw [unlocked] at held
      obtain ⟨rfl, _⟩ := held
      -- the saved chain loads, so this start cannot fail
      rw [startChain, Machine.load_of_saved saved readable] at failed
      cases failed
    | @running keys _ _ _ _ _ _ _ _ unlocked found =>
      rw [unlocked] at held
      obtain ⟨rfl, made⟩ := held
      obtain rfl := keys_of_made (made rfl)
      -- the run starts with the chain that was saved
      rw [startChain, Machine.load_of_saved saved readable] at found
      cases found
      refine grown_run neverCut holds _ ⟨saved, sound⟩ ordered each untampered ?_
      simpa only [List.forall_mem_map] using roundTrips

/-- An installation that starts without a public key and without a chain, and is never tampered
with, where no save of the chain is cut and what is read from a file is what was written: through
all its runs, however many there are and whether or not some fail to start, one key pair is used
and the chain only grows. At every prompt the file holds the chain, its blocks are linked and have
their positions as indexes, and at the lowest difficulty validation fails only where a signature
does not verify. -/
theorem runs_grow_chain (machine : Machine κ π) (readsBack : machine.library.ReadsBack)
    (neverCut : machine.NeverCut) (disk : Disk) (unused : disk.publicFile = none)
    (missing : disk.chainFile = none) (invocations : List Invocation)
    (untampered : ∀ invocation ∈ invocations, invocation.Untampered)
    (roundTrips : ∀ keyed ∈ Runs.trace machine.leaves machine.prompts disk invocations,
      ∀ block ∈ keyed.2.chain.blocks, machine.RoundTrips block) :
    ((Runs.trace machine.leaves machine.prompts disk invocations).Pairwise fun earlier later =>
      earlier.1 = later.1 ∧ earlier.2.chain.blocks <+: later.2.chain.blocks) ∧
    ∀ keyed ∈ Runs.trace machine.leaves machine.prompts disk invocations,
      keyed.2.world.chainFile = some (chainFileBytes (machine.env keyed.1) keyed.2.chain) ∧
      LinkedChain keyed.2.chain.blocks ∧
      (∀ (i : Nat) (block : Block), keyed.2.chain.blocks[i]? = some block →
        block.index = Int32.ofNat i) ∧
      (blockchainValidate (machine.env keyed.1) keyed.2.chain minDifficulty = true ↔
        ∀ block ∈ keyed.2.chain.blocks, verifyBlockSignature (machine.env keyed.1) block = true) := by
  have admitted : Runs.Guarded machine.leaves (fun _ invocation => invocation.Untampered) disk
      invocations :=
    Runs.guarded_of_forall_mem _ (fun invocation member _ => untampered invocation member) disk
  have guarded := admitted.and (Runs.guarded_of_forall_mem_trace _ roundTrips)
  have grown := Runs.logged_invariant machine.leaves machine.prompts (Grown machine)
    (fun _ _ _ grown ok => grown_leaves readsBack neverCut grown ok.1 ok.2)
    (.unused (Or.inl ⟨unused, rfl⟩) missing) guarded
  rw [List.nil_append] at grown
  generalize Runs.trace machine.leaves machine.prompts disk invocations = log at grown ⊢
  cases grown with
  | unused => exact ⟨.nil, by simp⟩
  | grown key chain _ _ _ _ ordered each =>
    refine ⟨?_, fun keyed member => ?_⟩
    · refine ordered.imp_of_mem ?_
      intro earlier later first second grows
      exact ⟨(each earlier first).1.trans (each later second).1.symm, grows⟩
    · obtain ⟨_, intact, _⟩ := each keyed member
      exact ⟨intact.saved.file, intact.sound.linked, intact.sound.indexed,
        intact.sound.validates_iff⟩

/-- The sample runs have six prompts. -/
theorem runs_grow_chain_twice :
    (Runs.trace machine.leaves machine.prompts blankDisk twoRuns).map
      (fun keyed => keyed.2.chain.blocks.length) = [1, 1, 2, 2, 2, 3] ∧
    (Runs.trace machine.leaves machine.prompts blankDisk twoRuns).Pairwise fun earlier later =>
      earlier.1 = later.1 ∧ earlier.2.chain.blocks <+: later.2.chain.blocks := by
  refine ⟨by decide +kernel,
    (runs_grow_chain machine library_readsBack ?_ blankDisk rfl rfl twoRuns ?_ ?_).1⟩
  · rintro call count ⟨⟩
  · decide +kernel
  · decide +kernel

end Attendance
