import Attendance.Properties.Restarts
import Attendance.Records

/-!
# Blocks are in the order of time

A block shows the time at which its record was marked. The pool is a queue and the chain grows at
its end, so that as long as the clock is not set back, the blocks of the chain, and after them
those pending, are in the order of time, in every run and from one run to the next.
-/
namespace Attendance

variable {κ π : Type}

/-- The times of the confirmed blocks, and then of those pending. -/
def MineState.times (st : MineState) : List Int64 :=
  (st.chain.blocks ++ st.pool.blocks).map Block.timestamp

/-- The times do not decrease, and are not after `now`. -/
structure InOrder (now : Int64) (times : List Int64) : Prop where
  sorted : times.Pairwise (· ≤ ·)
  past : ∀ time ∈ times, time ≤ now

theorem InOrder.sublist {now : Int64} {times fewer : List Int64} (inOrder : InOrder now times)
    (part : fewer.Sublist times) : InOrder now fewer :=
  ⟨inOrder.sorted.sublist part, fun time member => inOrder.past time (part.subset member)⟩

theorem InOrder.later {now now' : Int64} {times : List Int64} (inOrder : InOrder now times)
    (later : now ≤ now') : InOrder now' times :=
  ⟨inOrder.sorted, fun time member => Int64.le_trans (inOrder.past time member) later⟩

theorem InOrder.concat {now : Int64} {times : List Int64} (inOrder : InOrder now times) :
    InOrder now (times ++ [now]) := by
  constructor
  · rw [List.pairwise_append]
    refine ⟨inOrder.sorted, List.pairwise_singleton _ _, fun time member last single => ?_⟩
    rw [List.mem_singleton.mp single]
    exact inOrder.past time member
  · rw [List.forall_mem_append, List.forall_mem_singleton]
    exact ⟨inOrder.past, Int64.le_refl now⟩

/-! ### One run -/

/-- Mining moves the front of the pool to the end of the chain, or loses it. -/
private theorem times_mine (env : Env) (st : MineState) (difficulty : Int32) (call : MiningCall) :
    (mine env st difficulty call).state.times.Sublist st.times := by
  refine mine_rel call (fun chain pool chain' pool' =>
    ((chain'.blocks ++ pool'.blocks).map Block.timestamp).Sublist
      ((chain.blocks ++ pool.blocks).map Block.timestamp)) (fun _ _ => .refl _) ?_ ?_ st
  · exact fun first second => second.trans first
  · intro st
    have step := call.roundStep env difficulty st
    generalize call.round env difficulty st = result at step ⊢
    cases step with
    | idle => exact .refl _
    | @confirmed front mined _ _ _ queued _ mining appended =>
      have time : mined.timestamp = front.timestamp :=
        congrArg AttendanceRecord.timestamp mining.record
      simp [queued, appended, time]
    | lost queued =>
      rw [queued]
      exact ((List.sublist_cons_self _ _).append_left _).map _

/-- The clock is not set back. -/
def Forward (env : Env) : Prop := ∀ earlier later, earlier ≤ later → env.time earlier ≤ env.time later

private theorem inOrder_sessionStep {env : Env} (forward : Forward env) (neverCut : NeverCut env)
    (registry : StudentRegistry) {session : Session} (command : Command)
    (opened : ∀ i, command = .tamper i → env.write session.world.calls ≠ .notOpened)
    (inOrder : InOrder (env.time session.world.calls) session.times) :
    InOrder (env.time (sessionStep env registry session command).world.calls)
      (sessionStep env registry session command).times := by
  have passes := forward _ _ (persists_sessionStep neverCut registry session command opened).later
  cases mining : command.miningCall with
  | some call =>
    refine (inOrder.later passes).sublist ?_
    rw [sessionStep_of_miningCall env registry session mining]
    exact times_mine env session.toMineState session.difficulty call
  | none =>
    cases command with
    | mineSolo | minePool | mineCloud => cases mining
    | mark studentId status =>
      simp only [sessionStep, execute] at passes ⊢
      rcases markAttendance_cases env session.world session.pool session.chain registry studentId
        status with ⟨world, pool, block, result, queued, _, _, _, time⟩ | ⟨world, result⟩
      -- the record has the time of this call, and goes behind all others
      · rw [result] at passes ⊢
        have longer := inOrder.concat.later passes
        simpa [MineState.times, queued, time] using longer
      · rw [result] at passes ⊢
        exact inOrder.later passes
    -- only a status is rewritten
    | tamper i =>
      have same : (sessionStep env registry session (.tamper i)).times = session.times := by
        simp only [MineState.times, List.map_append]
        apply congrArg (· ++ _)
        rcases blockchainTamperDemo_cases env session.world session.chain i with same | ⟨j, changed⟩
        · exact congrArg (fun chain => chain.blocks.map Block.timestamp) same
        · have kept : (session.chain.blocks.modify j tamperBlock).map Block.timestamp =
              session.chain.blocks.map Block.timestamp :=
            Table.map_key_modify (f := tamperBlock) Block.timestamp (fun _ => rfl) _ j
          exact (congrArg (List.map Block.timestamp) changed).trans kept
      rw [same]
      exact inOrder.later passes
    | transfer | transferNonce | model | difficulty =>
      obtain ⟨chain, pool⟩ := sessionStep_of_other env registry session (by rintro _ _ ⟨⟩) mining
        (by rintro _ ⟨⟩)
      rw [MineState.times, chain, pool]
      exact inOrder.later passes

/-- The blocks are in order at every prompt of a run that starts with a chain in order. -/
private theorem inOrder_prompts {env : Env} (forward : Forward env) (neverCut : NeverCut env)
    (registry : StudentRegistry) {session : Session} {inputs : List (CText.CStr lineLen)}
    (opened : (∀ input ∈ processed inputs, tampers input = false) ∨
      ∀ call, env.write call ≠ .notOpened)
    (inOrder : InOrder (env.time session.world.calls) session.times) :
    ∀ state ∈ promptStates env registry session inputs,
      InOrder (env.time state.world.calls) state.times := by
  rw [forall_mem_promptStates]
  intro pre cut
  have guarded : Runs.Guarded (lineStep env registry)
      (fun _ input => tampers input = false ∨ ∀ call, env.write call ≠ .notOpened) session
      (processed inputs) :=
    Runs.guarded_of_forall_mem _ (fun input member _ => opened.imp_left (· input member)) session
  refine Runs.guarded_invariant (lineStep env registry)
    (fun state => InOrder (env.time state.world.calls) state.times) ?_ inOrder
    (guarded.of_prefix cut)
  intro state input held ok
  unfold lineStep
  split
  next command run =>
    refine inOrder_sessionStep forward neverCut registry command ?_ held
    rintro i rfl
    exact ok.elim (fun untampered => absurd rfl (ne_tamper_of_run untampered run i))
      fun all => all _
  next => exact held

/-! ### All runs -/

/-- If a chain can be loaded, its blocks are in order. -/
def LoadsInOrder (machine : Machine κ π) (disk : Disk) : Prop :=
  ∀ chain ∈ machine.loads disk, InOrder (machine.time disk.calls) (chain.blocks.map Block.timestamp)

private theorem LoadsInOrder.of_loads {machine : Machine κ π}
    (forward : ∀ earlier later, earlier ≤ later → machine.time earlier ≤ machine.time later)
    {disk disk' : Disk} (inOrder : LoadsInOrder machine disk)
    (same : machine.loads disk' = machine.loads disk) (later : disk.calls ≤ disk'.calls) :
    LoadsInOrder machine disk' := by
  intro chain loaded
  rw [same] at loaded
  exact (inOrder chain loaded).later (forward _ _ later)

private theorem inOrder_leaves {machine : Machine κ π}
    (forward : ∀ earlier later, earlier ≤ later → machine.time earlier ≤ machine.time later)
    (neverCut : machine.NeverCut) {disk : Disk} {invocation : Invocation}
    (opened : invocation.Untampered ∨ ∀ call, machine.write call ≠ .notOpened)
    (roundTrips : ∀ visit ∈ machine.visit disk invocation, ∀ block ∈ visit.2.chain.blocks,
      machine.RoundTrips block)
    (inOrder : LoadsInOrder machine disk) :
    LoadsInOrder machine (machine.leaves disk invocation) ∧
      ∀ keyed ∈ machine.prompts disk invocation,
        InOrder (machine.time keyed.2.world.calls) keyed.2.times := by
  have step := chainStep neverCut disk invocation
  generalize machine.visit disk invocation = visits at step roundTrips
  generalize machine.prompts disk invocation = prompts at step ⊢
  generalize machine.leaves disk invocation = disk' at step ⊢
  cases step with
  | silent loads later => exact ⟨inOrder.of_loads forward loads later, by simp⟩
  | ran running resumes unmarked _ clock stored =>
    have first : InOrder (machine.time running.session.world.calls) running.session.times := by
      rw [MineState.times, unmarked, List.append_nil]
      cases resumes with
      | loaded loads later => exact (inOrder _ loads).later (forward _ _ later)
      | created _ genesis _ blocks call _ before time =>
        rw [blocks, List.map_singleton, time]
        have empty : InOrder (machine.time call) [] := ⟨.nil, by simp⟩
        exact empty.concat.later (forward _ _ before)
    have ahead : Forward (machine.env running.keys) := forward
    have all : ∀ state ∈ promptStates (machine.env running.keys) running.registry running.session
        invocation.lines, InOrder (machine.time state.world.calls) state.times :=
      inOrder_prompts ahead (neverCut.env running.keys) running.registry opened first
    refine ⟨fun loaded loads => ?_, ?_⟩
    · have last : InOrder (machine.time (machine.lastPrompt running invocation).world.calls)
          (machine.lastPrompt running invocation).times := by
        apply all
        rw [promptStates_eq]
        exact Runs.final_mem_states _ _ _
      have saved := stored opened (roundTrips _ (List.mem_singleton_self _))
      obtain rfl := Option.some.inj (loads.symm.trans saved)
      rw [clock]
      -- what was pending is not loaded again
      exact last.sublist ((List.sublist_append_left _ _).map Block.timestamp)
    · rw [List.forall_mem_map]
      exact all

/-- As long as the clock is not set back, the blocks of an installation that starts without a
chain are in the order of their times, if no save of the chain is cut, its blocks are read back,
and nothing is tampered with or the file can always be opened: at every prompt of every run, the
confirmed blocks and after them those pending, and none has a time that is still to come. Tampering
does not change that, and the blocks that were pending at the end of a run are lost to it. -/
theorem blocks_in_order (machine : Machine κ π)
    (forward : ∀ earlier later, earlier ≤ later → machine.time earlier ≤ machine.time later)
    (neverCut : machine.NeverCut) (disk : Disk) (missing : disk.chainFile = none)
    (invocations : List Invocation)
    (opened : (∀ invocation ∈ invocations, invocation.Untampered) ∨
      ∀ call, machine.write call ≠ .notOpened)
    (roundTrips : ∀ visit ∈ Runs.trace machine.leaves machine.visit disk invocations,
      ∀ block ∈ visit.2.chain.blocks, machine.RoundTrips block) :
    ∀ keyed ∈ Runs.trace machine.leaves machine.prompts disk invocations,
      keyed.2.times.Pairwise (· ≤ ·) ∧
      ∀ time ∈ keyed.2.times, time ≤ machine.time keyed.2.world.calls := by
  have guarded := guarded_runs opened roundTrips
  -- there is no file to start from
  have unread : LoadsInOrder machine disk := by
    intro chain loaded
    rw [Machine.loads, blockchainLoad, missing] at loaded
    cases loaded
  have keeps (log : List ((κ × π) × Session)) (disk : Disk) (invocation : Invocation)
      (held : LoadsInOrder machine disk ∧
        ∀ keyed ∈ log, InOrder (machine.time keyed.2.world.calls) keyed.2.times)
      (ok : (invocation.Untampered ∨ ∀ call, machine.write call ≠ .notOpened) ∧
        ∀ visit ∈ machine.visit disk invocation, ∀ block ∈ visit.2.chain.blocks,
          machine.RoundTrips block) :
      LoadsInOrder machine (machine.leaves disk invocation) ∧
        ∀ keyed ∈ log ++ machine.prompts disk invocation,
          InOrder (machine.time keyed.2.world.calls) keyed.2.times := by
    obtain ⟨next, here⟩ := inOrder_leaves forward neverCut ok.1 ok.2 held.1
    exact ⟨next, List.forall_mem_append.mpr ⟨held.2, here⟩⟩
  obtain ⟨_, ordered⟩ := Runs.logged_invariant machine.leaves machine.prompts
    (fun log disk => LoadsInOrder machine disk ∧
      ∀ keyed ∈ log, InOrder (machine.time keyed.2.world.calls) keyed.2.times)
    keeps ⟨unread, List.forall_mem_nil _⟩ guarded
  rw [List.nil_append] at ordered
  exact fun keyed member => ⟨(ordered keyed member).sorted, (ordered keyed member).past⟩

open Sample

/-- A machine whose clock stops after a thousand calls. -/
def slowMachine : Machine UInt8 UInt8 :=
  { machine with time := fun call => Int64.ofNat (1700000000 + min call 1000) }

/-- A block that was tampered with stays in its place, and a record that was pending is lost. -/
theorem blocks_in_order_tampered :
    (Runs.trace slowMachine.leaves slowMachine.prompts blankDisk tamperedRuns).map
      (fun keyed => keyed.2.times.length) = [1, 2, 2, 2, 3, 2, 3, 3] ∧
    ∀ keyed ∈ Runs.trace slowMachine.leaves slowMachine.prompts blankDisk tamperedRuns,
      keyed.2.times.Pairwise (· ≤ ·) ∧
      ∀ time ∈ keyed.2.times, time ≤ slowMachine.time keyed.2.world.calls := by
  refine ⟨by decide +kernel,
    blocks_in_order slowMachine ?_ ?_ blankDisk rfl tamperedRuns ?_ ?_⟩
  · intro earlier later before
    exact (Int64.ofNat_le_iff_le (by omega) (by omega)).mpr (by omega)
  · rintro call count ⟨⟩
  · exact Or.inr fun call opened => by cases opened
  · decide +kernel

end Attendance
