import Mathlib.Data.List.Infix
import Attendance.Sample
import Attendance.Session

/-!
# Validation detects tampering

A run may mark, mine, tamper and mine again on top of tampered blocks. Every block
of the chain is then an original one with its status rewritten, and the links still
hold, so that validation fails exactly if a status is not the original one or a hash
misses the target.
-/
namespace Attendance

open CText

/-- The statuses of the blocks a step appends. -/
def appendedStatuses (env : Env) (registry : StudentRegistry) (session : Session)
    (command : Command) : List (CStr statusLen) :=
  ((sessionStep env registry session command).chain.blocks.drop
    session.chain.blocks.length).map Block.status

/-- The hash payloads of all blocks in all states a run passes through. -/
def arisingPayloads (env : Env) (registry : StudentRegistry) (session : Session)
    (commands : List Command) : Set (List Char) :=
  { payload | ∃ pre, pre <+: commands ∧
    ∃ block ∈ (Runs.final (sessionStep env registry) session pre).chain.blocks,
      serializeBlockForHash block = payload }

/-- `block` is `original` with another status or the same one. -/
structure Altered (env : Env) (payloads : Set (List Char)) (original block : Block) : Prop where
  rewritten : block = { original with status := block.status }
  isSealed : Sealed env original
  arises : serializeBlockForHash original ∈ payloads

/-- The chain is a linked list of original blocks whose statuses were rewritten. -/
def Faithful (env : Env) (payloads : Set (List Char)) (log : List (CStr statusLen))
    (blocks : List Block) : Prop :=
  LinkedChain blocks ∧
  ∃ originals, originals.map Block.status = log ∧
    List.Forall₂ (Altered env payloads) originals blocks

/-- The status can be read off the hash payload of a block when the rest is known. -/
theorem status_of_serializeBlockForHash {block : Block} {status : CStr statusLen}
    (same : serializeBlockForHash { block with status } = serializeBlockForHash block) :
    status = block.status := by
  simp only [serializeBlockForHash, serializeBlockPayload, payloadFields, if_true, joinWith,
    List.cons_append, List.nil_append, List.append_cancel_left_eq, List.cons.injEq, true_and,
    List.append_cancel_right_eq] at same
  exact CStr.ext same

/-- An altered block passes its own checks exactly if its status is the original one. -/
private theorem Altered.authentic_iff {env : Env} {payloads : Set (List Char)}
    {original block : Block} (verifies : SignaturesVerify env)
    (collisionFree : Set.InjOn (sha256Hex env) payloads)
    (altered : Altered env payloads original block)
    (arises : serializeBlockForHash block ∈ payloads) :
    Authentic env block ↔ block.status = original.status := by
  obtain ⟨rewritten, isSealed, original_arises⟩ := altered
  constructor
  -- equal hashes mean equal payloads, and the payload contains the status
  · rintro ⟨hash, _⟩
    have hashes : sha256Hex env (serializeBlockForHash block) =
        sha256Hex env (serializeBlockForHash original) := by
      rw [← blockHash, ← hash, ← blockHash, ← isSealed.hash, rewritten]
    have payload := collisionFree arises original_arises hashes
    rw [rewritten] at payload
    exact status_of_serializeBlockForHash payload
  -- with its own status back the block is the original, signature included
  · intro status
    rw [status] at rewritten
    obtain rfl : block = original := rewritten
    exact ⟨isSealed.hash, verifies block isSealed.signed⟩

private theorem forall_authentic_iff {env : Env} {payloads : Set (List Char)}
    {originals blocks : List Block} (verifies : SignaturesVerify env)
    (collisionFree : Set.InjOn (sha256Hex env) payloads)
    (altered : List.Forall₂ (Altered env payloads) originals blocks)
    (arise : ∀ block ∈ blocks, serializeBlockForHash block ∈ payloads) :
    (∀ block ∈ blocks, Authentic env block) ↔
      blocks.map Block.status = originals.map Block.status := by
  induction altered with
  | nil => simp
  | cons first _ ih =>
    rw [List.forall_mem_cons] at arise
    rw [List.forall_mem_cons, List.map_cons, List.map_cons, List.cons.injEq,
      first.authentic_iff verifies collisionFree arise.1, ih arise.2]

private theorem Faithful.concat {env : Env} {payloads : Set (List Char)}
    {log : List (CStr statusLen)} {blocks appended : List Block}
    (faithful : Faithful env payloads log blocks)
    (linked : LinkedChain blocks → LinkedChain (blocks ++ appended))
    (isSealed : ∀ block ∈ appended, Sealed env block)
    (arise : ∀ block ∈ blocks ++ appended, serializeBlockForHash block ∈ payloads) :
    Faithful env payloads (log ++ appended.map Block.status) (blocks ++ appended) := by
  obtain ⟨links, originals, rfl, altered⟩ := faithful
  refine ⟨linked links, originals ++ appended, by rw [List.map_append], ?_⟩
  apply List.rel_append altered
  -- an appended block is its own original
  rw [List.forall₂_same]
  intro block member
  exact ⟨rfl, isSealed block member, arise block (List.mem_append_right blocks member)⟩

private theorem Faithful.tamper {env : Env} {payloads : Set (List Char)}
    {log : List (CStr statusLen)} {blocks : List Block}
    (faithful : Faithful env payloads log blocks) (i : Nat) :
    Faithful env payloads log (blocks.modify i tamperBlock) := by
  obtain ⟨links, originals, rfl, altered⟩ := faithful
  refine ⟨(HashChain.linked_modify _ _ tamperBlock (fun block => ⟨rfl, rfl⟩) _ _ i).mpr links,
    originals, rfl, ?_⟩
  -- the rewritten block is found along both lists
  clear links
  induction altered generalizing i with
  | nil => simp
  | @cons original block _ _ first rest ih =>
    cases i with
    | zero =>
      refine List.Forall₂.cons ⟨?_, first.isSealed, first.arises⟩ rest
      rw [tamperBlock, first.rewritten]
    | succ i => exact List.Forall₂.cons first (ih i)

theorem faithful_step (env : Env) (registry : StudentRegistry) {session : Session}
    {payloads : Set (List Char)} {log : List (CStr statusLen)} (command : Command)
    (faithful : Faithful env payloads log session.chain.blocks)
    (arise : ∀ block ∈ (sessionStep env registry session command).chain.blocks,
      serializeBlockForHash block ∈ payloads) :
    Faithful env payloads (log ++ appendedStatuses env registry session command)
      (sessionStep env registry session command).chain.blocks := by
  have kept {blocks : List Block} (same : (sessionStep env registry session command).chain.blocks =
      blocks) (length : blocks.length = session.chain.blocks.length)
      (faithful : Faithful env payloads log blocks) :
      Faithful env payloads (log ++ appendedStatuses env registry session command)
        (sessionStep env registry session command).chain.blocks := by
    simpa [appendedStatuses, same, ← length] using faithful
  cases mining : command.miningCall with
  | some call =>
    -- the blocks appended are their own originals
    obtain ⟨appended, grown, made, linked⟩ :=
      mine_appends env session.toMineState session.difficulty call
    have step := sessionStep_of_miningCall env registry session mining
    have chain : (sessionStep env registry session command).chain.blocks =
        session.chain.blocks ++ appended := by rw [step]; exact grown
    rw [chain] at arise
    simpa [appendedStatuses, chain] using
      faithful.concat linked (fun block member => (made block member).1) arise
  | none =>
    -- only the tamper demonstration changes the chain in place
    by_cases tampers : ∃ i, command = .tamper i
    · obtain ⟨i, rfl⟩ := tampers
      rcases blockchainTamperDemo_cases env session.world session.chain i with same | ⟨j, changed⟩
      · exact kept (congrArg Blockchain.blocks same) rfl faithful
      · exact kept changed (List.length_modify ..) (faithful.tamper j)
    · simp only [not_exists] at tampers
      have same := chain_sessionStep_of_other env registry session mining tampers
      exact kept (congrArg Blockchain.blocks same) rfl faithful

/-- Validation accepts the chain a run ends with exactly if every status is the one its
block was appended with and every hash but the first meets the target. -/
theorem validate_iff_untampered (env : Env) (registry : StudentRegistry) (model : LedgerModel)
    (difficulty : Int32) (session : Session)
    (started : startFresh env registry model difficulty = some session)
    (commands : List Command) (verifies : SignaturesVerify env)
    (collisionFree : Set.InjOn (sha256Hex env) (arisingPayloads env registry session commands))
    (target : Int32) (positive : 1 ≤ target) :
    let chain := (Runs.final (sessionStep env registry) session commands).chain
    blockchainValidate env chain target = true ↔
      chain.blocks.map Block.status = session.chain.blocks.map Block.status ++
        Runs.trace (sessionStep env registry) (appendedStatuses env registry) session commands ∧
      ∀ block ∈ chain.blocks.tail, List.replicate target.toInt.toNat '0' <+: block.hash.text := by
  intro chain
  obtain ⟨⟨genesis, isGenesis, blocks⟩, _, _⟩ := startFresh_some started
  have throughout : Runs.Throughout (sessionStep env registry) (fun s => ∀ block ∈ s.chain.blocks,
      serializeBlockForHash block ∈ arisingPayloads env registry session commands) session
      commands := fun pre cut block member => ⟨pre, cut, block, member, rfl⟩
  have initial : Faithful env (arisingPayloads env registry session commands)
      (session.chain.blocks.map Block.status) session.chain.blocks := by
    have arises := throughout [] List.nil_prefix genesis (by simp [blocks])
    rw [blocks]
    exact ⟨⟨isGenesis.previousHash, trivial⟩, [genesis], rfl,
      .cons ⟨rfl, isGenesis.isSealed, arises⟩ .nil⟩
  have final := Runs.logged_invariant (sessionStep env registry) (appendedStatuses env registry)
    (fun log s => Faithful env (arisingPayloads env registry session commands) log s.chain.blocks)
    (fun log s command faithful arise => faithful_step env registry command faithful arise.2)
    initial (Runs.guarded_of_throughout (sessionStep env registry) throughout)
  obtain ⟨linked, originals, statuses, altered⟩ := final
  -- the log starts with the status of genesis, so the chain cannot be empty
  have nonempty : chain.blocks ≠ [] := by
    intro empty
    rw [show (Runs.final (sessionStep env registry) session commands).chain.blocks = [] from empty,
      List.forall₂_nil_right_iff] at altered
    simp [altered, blocks] at statuses
  rw [blockchainValidate_iff, ← statuses, ← forall_authentic_iff verifies collisionFree altered
    (throughout commands (List.prefix_refl commands))]
  constructor
  · rintro ⟨_, _, authentic, meets⟩
    exact ⟨authentic, fun block member =>
      (hashMeetsDifficulty_iff block.hash positive).mp (meets block member)⟩
  · rintro ⟨authentic, meets⟩
    exact ⟨nonempty, linked, authentic, fun block member =>
      (hashMeetsDifficulty_iff block.hash positive).mpr (meets block member)⟩

/-- A session that tampers with its block and, by tampering again, restores it. -/
def tamperedTwice : List Command :=
  [.mark "ALU001".toList "PRESENT".toList, .mineSolo, .tamper 1, .tamper 1]

private theorem collisionFree_tamperedTwice :
    Set.InjOn (sha256Hex Sample.env)
      (arisingPayloads Sample.env Sample.registry (Sample.start .utxo) tamperedTwice) := by
  have distinct : ∀ left ∈ tamperedTwice.inits.flatMap (fun pre =>
        (Runs.final (sessionStep Sample.env Sample.registry) (Sample.start .utxo)
          pre).chain.blocks.map serializeBlockForHash),
      ∀ right ∈ tamperedTwice.inits.flatMap (fun pre =>
        (Runs.final (sessionStep Sample.env Sample.registry) (Sample.start .utxo)
          pre).chain.blocks.map serializeBlockForHash),
      sha256Hex Sample.env left = sha256Hex Sample.env right → left = right := by
    decide +kernel
  rintro left ⟨pre, cut, block, member, rfl⟩ right ⟨pre', cut', block', member', rfl⟩
  refine distinct _ ?_ _ ?_
  · exact List.mem_flatMap.mpr ⟨pre, (List.mem_inits _ _).mpr cut, List.mem_map_of_mem member⟩
  · exact List.mem_flatMap.mpr ⟨pre', (List.mem_inits _ _).mpr cut', List.mem_map_of_mem member'⟩

theorem validate_iff_untampered_sample :
    let chain := (Runs.final (sessionStep Sample.env Sample.registry) (Sample.start .utxo)
      tamperedTwice).chain
    blockchainValidate Sample.env chain 1 = true ↔
      chain.blocks.map Block.status = (Sample.start .utxo).chain.blocks.map Block.status ++
        Runs.trace (sessionStep Sample.env Sample.registry)
          (appendedStatuses Sample.env Sample.registry) (Sample.start .utxo) tamperedTwice ∧
      ∀ block ∈ chain.blocks.tail,
        List.replicate (1 : Int32).toInt.toNat '0' <+: block.hash.text :=
  validate_iff_untampered Sample.env Sample.registry .utxo 1 (Sample.start .utxo)
    (Sample.startFresh_eq .utxo) tamperedTwice Sample.signaturesVerify collisionFree_tamperedTwice
    1 (by decide)

end Attendance
