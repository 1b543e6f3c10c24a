import Attendance.Properties.KeptBlocks
import Attendance.Validation

/-!
# A lost private key

Where the private key file is missing, the next start makes a new pair and writes both files over.
The chain is loaded all the same, and is signed with a key that is gone: validation points at the
genesis block from then on, whatever is mined with the new key.
-/
namespace Attendance

variable {κ π : Type}

/-- There is no private key yet, or all keys that were used are of one pair that was made. -/
def MadeKey (machine : Machine κ π) (log : List (κ × π)) (disk : Disk) : Prop :=
  (disk.privateFile = none ∧ log = []) ∨
  ∃ call key, machine.library.generate call = some key ∧ HoldsKey machine.library key disk ∧
    ∀ keys ∈ log, keys = (key, machine.library.publicOf key)

/-- A start without a private key fails before it writes one, or leaves the pair it made. -/
private theorem cryptoInitKeys_of_no_privateFile {library : KeyLibrary κ π}
    (readsBack : library.ReadsBack) (written : ∀ call, library.write call = .complete)
    {disk : Disk} (missing : disk.privateFile = none) :
    ((cryptoInitKeys library disk).1 = false ∧
        (cryptoInitKeys library disk).2.2.privateFile = none) ∨
      ∃ key, library.generate disk.calls = some key ∧
        HoldsKey library key (cryptoInitKeys library disk).2.2 ∧
        (cryptoInitKeys library disk).2.1 = ⟨some key, some (library.publicOf key)⟩ := by
  have creates : cryptoInitKeys library disk = createKeys library disk := by
    rw [cryptoInitKeys, loadOrCreateKeys, missing]
  rw [creates, createKeys]
  cases library.generate disk.calls with
  | none => exact Or.inl ⟨rfl, missing⟩
  | some key =>
    simp only [writePemKey, written]
    split
    next =>
      have private' := readsBack.privateKey key (library.privatePem key).length
      have public' := readsBack.publicKey (library.publicOf key)
        (library.publicPem (library.publicOf key)).length
      rw [List.take_length] at private' public'
      exact Or.inr ⟨key, rfl, ⟨⟨_, rfl, private'⟩, _, rfl, public'⟩, rfl⟩
    next => exact Or.inl ⟨rfl, missing⟩

private theorem madeKey_cryptoInitKeys {machine : Machine κ π}
    (readsBack : machine.library.ReadsBack)
    (written : ∀ call, machine.library.write call = .complete) {log : List (κ × π)}
    {disk disk' : Disk} {ok : Bool} {keys : Keys κ π} (made : MadeKey machine log disk)
    (unlocked : cryptoInitKeys machine.library disk = (ok, keys, disk')) :
    MadeKey machine log disk' ∧ (ok = true → ∃ call key,
      keys = ⟨some key, some (machine.library.publicOf key)⟩ ∧
      machine.library.generate call = some key ∧ HoldsKey machine.library key disk' ∧
      ∀ used ∈ log, used = (key, machine.library.publicOf key)) := by
  rcases made with ⟨missing, rfl⟩ | ⟨call, key, fresh, holds, same⟩
  · have created := cryptoInitKeys_of_no_privateFile readsBack written missing
    rw [unlocked] at created
    rcases created with ⟨failed, still⟩ | ⟨key, fresh, holds, pair⟩
    · refine ⟨Or.inl ⟨still, rfl⟩, fun succeeded => ?_⟩
      rw [succeeded] at failed
      cases failed
    · exact ⟨Or.inr ⟨disk.calls, key, fresh, holds, by simp⟩,
        fun _ => ⟨disk.calls, key, pair, fresh, holds, by simp⟩⟩
  · have loaded := cryptoInitKeys_of_holdsKey holds
    rw [unlocked] at loaded
    obtain ⟨rfl, read⟩ := loaded
    exact ⟨Or.inr ⟨call, key, fresh, holds, same⟩,
      fun succeeded => ⟨call, key, read succeeded, fresh, holds, same⟩⟩

private theorem MadeKey.withWorld {machine : Machine κ π} {log : List (κ × π)} {disk : Disk}
    (made : MadeKey machine log disk) (world : World) :
    MadeKey machine log (disk.withWorld world) := by
  rcases made with missing | ⟨call, key, fresh, holds, same⟩
  · exact Or.inl missing
  · exact Or.inr ⟨call, key, fresh, ⟨holds.privateFile, holds.publicFile⟩, same⟩

private theorem madeKey_leaves {machine : Machine κ π} (readsBack : machine.library.ReadsBack)
    (written : ∀ call, machine.library.write call = .complete) {log : List (κ × π)} {disk : Disk}
    {invocation : Invocation} (made : MadeKey machine log disk) :
    MadeKey machine (log ++ (machine.prompts disk invocation).map Prod.fst)
      (machine.leaves disk invocation) := by
  have step := bootStep machine disk invocation
  unfold Machine.leaves Machine.main Machine.prompts
  generalize machine.boot disk invocation = booted at step ⊢
  cases step with
  | refused => simpa using made
  | keyless failed => simpa using (madeKey_cryptoInitKeys readsBack written made failed).1
  | chainless unlocked =>
    simpa using (madeKey_cryptoInitKeys readsBack written made unlocked).1.withWorld _
  | @running keys disk' world chain model difficulty registry _ _ unlocked found =>
    obtain ⟨call, key, pair, fresh, holds, same⟩ :=
      (madeKey_cryptoInitKeys readsBack written made unlocked).2 rfl
    refine Or.inr ⟨call, key, fresh, ⟨holds.privateFile, holds.publicFile⟩, ?_⟩
    rw [List.forall_mem_append, List.forall_mem_map, List.forall_mem_map]
    exact ⟨same, fun _ _ => keys_of_made pair⟩

/-- A genesis block that is whole, and signed with another key. -/
private theorem report_of_foreign_genesis {env : Env} {chain : Blockchain} {genesis : Block}
    (first : chain.blocks.head? = some genesis) (link : genesis.previousHash = genesisPrevHash)
    (hash : genesis.hash = blockHash env genesis)
    (foreign : verifyBlockSignature env genesis = false) (difficulty : Int32) :
    validationReport env chain difficulty = .invalidSignature genesis.index := by
  obtain ⟨rest, blocks⟩ := List.head?_eq_some_iff.mp first
  simp [validationReport, blocks, reportBlocks, checkBlock, computeBlockHash_eq, hash, link,
    foreign]

/-- A disk whose private key file is gone, with a chain whose genesis block has its link and its
hash but is verified by no key that can be made: however often the program is run, and whatever is
mined, the chain stays, and validation blames the signature of the genesis block at every prompt,
at any difficulty. Key files are written whole, no save of the chain is cut, what is read is what
was written, and nothing is tampered with or the chain file can always be opened. -/
theorem lost_key_blames_genesis (machine : Machine κ π) (readsBack : machine.library.ReadsBack)
    (written : ∀ call, machine.library.write call = .complete) (neverCut : machine.NeverCut)
    (disk : Disk) (lost : disk.privateFile = none) (chain : Blockchain)
    (loads : machine.loads disk = some chain) (genesis : Block)
    (first : chain.blocks.head? = some genesis) (link : genesis.previousHash = genesisPrevHash)
    (hash : ∀ keys, genesis.hash = blockHash (machine.env keys) genesis)
    (foreign : ∀ call key, machine.library.generate call = some key →
      verifyBlockSignature (machine.env (key, machine.library.publicOf key)) genesis = false)
    (invocations : List Invocation)
    (opened : (∀ invocation ∈ invocations, invocation.Untampered) ∨
      ∀ call, machine.write call ≠ .notOpened)
    (roundTrips : ∀ visit ∈ Runs.trace machine.leaves machine.visit disk invocations,
      ∀ block ∈ visit.2.chain.blocks, machine.RoundTrips block) :
    ∀ keyed ∈ Runs.trace machine.leaves machine.prompts disk invocations,
      Kept chain.blocks keyed.2.chain.blocks ∧ ∀ difficulty,
        validationReport (machine.env keyed.1) keyed.2.chain difficulty =
          .invalidSignature genesis.index ∧
        blockchainValidate (machine.env keyed.1) keyed.2.chain difficulty = false := by
  have loaded : LoadsKept machine [chain] disk := ⟨List.pairwise_singleton _ _,
    fun _ => ⟨chain, loads, by simpa using Kept.refl chain.blocks⟩⟩
  have kept := loadsKept_trace neverCut loaded opened roundTrips
  have admitted : Runs.Guarded machine.leaves (fun _ _ => True) disk invocations :=
    Runs.guarded_of_forall_mem _ (fun _ _ _ => trivial) disk
  have keeps (log : List ((κ × π) × Session)) (disk : Disk) (invocation : Invocation)
      (made : MadeKey machine (log.map Prod.fst) disk) (_ : True) :
      MadeKey machine ((log ++ machine.prompts disk invocation).map Prod.fst)
        (machine.leaves disk invocation) := by
    rw [List.map_append]
    exact madeKey_leaves readsBack written made
  have initial : MadeKey machine (([] : List ((κ × π) × Session)).map Prod.fst) disk :=
    Or.inl ⟨lost, rfl⟩
  have made := Runs.logged_invariant machine.leaves machine.prompts
    (fun log => MadeKey machine (log.map Prod.fst)) keeps initial admitted
  rw [List.nil_append] at made
  intro keyed member
  have grown : Kept chain.blocks keyed.2.chain.blocks :=
    (List.pairwise_cons.mp kept.ordered).1 _ (List.mem_map_of_mem member)
  refine ⟨grown, fun difficulty => ?_⟩
  rcases made with ⟨_, none⟩ | ⟨call, key, fresh, _, same⟩
  · rw [List.map_eq_nil_iff] at none
    rw [none] at member
    cases member
  -- the first block is never rewritten, and the key was made without it
  · have own := same _ (List.mem_map_of_mem member)
    have blamed := report_of_foreign_genesis (grown.head first) link (hash keyed.1)
      (by rw [own]; exact foreign call key fresh) difficulty
    refine ⟨blamed, ?_⟩
    rw [← Bool.not_eq_true, blockchainValidate_iff_passed, blamed]
    exact ValidationReport.noConfusion

open Sample

/-- A library that makes the same key each time. -/
def otherLibrary : KeyLibrary UInt8 UInt8 := { library with generate := fun _ => some 9 }

def otherMachine : Machine UInt8 UInt8 := { machine with library := otherLibrary }

/-- What the sample runs leave, without the private key. -/
def lostDisk : Disk :=
  { Runs.final machine.leaves blankDisk twoRuns with privateFile := none }

def lostChain : Blockchain := (machine.loads lostDisk).getD ⟨[], Nat.zero_le _⟩

def lostGenesis : Block := lostChain.blocks.headD (genesisFields 0)

theorem lost_key_blames_genesis_sample :
    (Runs.trace otherMachine.leaves otherMachine.prompts lostDisk twoRuns).map
      (fun keyed => keyed.2.chain.blocks.length) = [3, 3, 4, 4, 4, 5] ∧
    ∀ keyed ∈ Runs.trace otherMachine.leaves otherMachine.prompts lostDisk twoRuns,
      validationReport (otherMachine.env keyed.1) keyed.2.chain 1 = .invalidSignature 0 := by
  have position : lostGenesis.index = 0 := by decide +kernel
  refine ⟨by decide +kernel, fun keyed member => position ▸
    ((lost_key_blames_genesis otherMachine ⟨library_readsBack.privateKey,
      library_readsBack.publicKey⟩ (fun _ => rfl) ?_ lostDisk rfl lostChain (by decide +kernel)
      lostGenesis (by decide +kernel) (by decide +kernel) ?_ ?_ twoRuns ?_ ?_ keyed member).2
        1).1⟩
  · rintro call count ⟨⟩
  · have hash : lostGenesis.hash = blockHash (otherMachine.env (9, 9)) lostGenesis := by
      decide +kernel
    exact fun _ => hash
  · rintro call key ⟨⟩
    decide +kernel
  · exact Or.inr fun call opened => by cases opened
  · decide +kernel

end Attendance
