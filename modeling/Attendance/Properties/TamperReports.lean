import Attendance.Properties.TamperEvidence
import Attendance.Validation

/-!
# Validation points at the first block that was tampered with

In a run that marks, mines and tampers in any order, the one line that validation prints is
determined by the statuses and the target: it is about the first block that shows another status
than it was appended with, or that misses the target, and says which of the two it is.
-/
namespace Attendance

open CText

/-- The hash of an altered block is right exactly if its status is the original one. -/
private theorem Altered.hash_iff {env : Env} {payloads : Set (List Char)}
    {original block : Block} (collisionFree : Set.InjOn (sha256Hex env) payloads)
    (altered : Altered env payloads original block)
    (arises : serializeBlockForHash block ∈ payloads) :
    blockHash env block = block.hash ↔ block.status = original.status := by
  obtain ⟨rewritten, isSealed, original_arises⟩ := altered
  constructor
  · intro hash
    have hashes : sha256Hex env (serializeBlockForHash block) =
        sha256Hex env (serializeBlockForHash original) := by
      rw [← blockHash, hash, ← blockHash, ← isSealed.hash, rewritten]
    have payload := collisionFree arises original_arises hashes
    rw [rewritten] at payload
    exact status_of_serializeBlockForHash payload
  · intro status
    rw [status] at rewritten
    obtain rfl : block = original := rewritten
    exact isSealed.hash.symm

/-- The index of no block is changed by tampering. -/
theorem indexed_sessionStep (env : Env) (registry : StudentRegistry) {session : Session}
    (command : Command) (nonempty : session.chain.blocks ≠ [])
    (indexed : Indexed session.chain.blocks) :
    (sessionStep env registry session command).chain.blocks ≠ [] ∧
      Indexed (sessionStep env registry session command).chain.blocks := by
  cases mining : command.miningCall with
  | some call =>
    rw [sessionStep_of_miningCall env registry session mining]
    refine mine_rel call (fun before _ after _ => before.blocks ≠ [] ∧ Indexed before.blocks →
      after.blocks ≠ [] ∧ Indexed after.blocks) (fun _ _ held => held) ?_ ?_
      session.toMineState ⟨nonempty, indexed⟩
    · exact fun first second held => second (first held)
    · intro st held
      have step := call.roundStep env session.difficulty st
      generalize call.round env session.difficulty st = result at step ⊢
      cases step with
      | idle | lost => exact held
      | confirmed _ _ mining appended =>
        rw [appended]
        exact ⟨by simp, held.2.concat held.1 mining⟩
  | none =>
    by_cases tampers : ∃ i, command = .tamper i
    · obtain ⟨i, rfl⟩ := tampers
      rcases blockchainTamperDemo_cases env session.world session.chain i with same | ⟨j, changed⟩
      · exact (congrArg Blockchain.blocks same) ▸ ⟨nonempty, indexed⟩
      -- a rewritten status leaves the number of the block as it is
      · refine changed ▸ ⟨?_, indexed.modify j fun _ => rfl⟩
        rwa [← List.length_pos_iff, List.length_modify, List.length_pos_iff]
    · simp only [not_exists] at tampers
      rw [chain_sessionStep_of_other env registry session mining tampers]
      exact ⟨nonempty, indexed⟩

/-- What validation reports of a chain whose hashes can only be wrong where a status was
rewritten. -/
private theorem report_of_faithful {env : Env} {payloads : Set (List Char)}
    {statuses : List (CStr statusLen)} {chain : Blockchain} (verifies : SignaturesVerify env)
    (collisionFree : Set.InjOn (sha256Hex env) payloads)
    (faithful : Faithful env payloads statuses chain.blocks)
    (arise : ∀ block ∈ chain.blocks, serializeBlockForHash block ∈ payloads)
    (nonempty : chain.blocks ≠ []) (indexed : Indexed chain.blocks) (target : Int32) :
    (validationReport env chain target = .passed chain.blocks.length ∧
      chain.blocks.map Block.status = statuses ∧
      ∀ block ∈ chain.blocks.tail, hashMeetsDifficulty block.hash target = true) ∨
    ∃ front block rest, chain.blocks = front ++ block :: rest ∧
      front.map Block.status = statuses.take front.length ∧
      (∀ earlier ∈ front.tail, hashMeetsDifficulty earlier.hash target = true) ∧
      ((statuses[front.length]? ≠ some block.status ∧
          validationReport env chain target = .hashMismatch (Int32.ofNat front.length)) ∨
        (statuses[front.length]? = some block.status ∧ front ≠ [] ∧
          hashMeetsDifficulty block.hash target = false ∧
          validationReport env chain target =
            .targetMissed (Int32.ofNat front.length) target)) := by
  obtain ⟨linked, originals, rfl, altered⟩ := faithful
  have statuses_of {originals blocks : List Block}
      (altered : List.Forall₂ (Altered env payloads) originals blocks)
      (arise : ∀ block ∈ blocks, serializeBlockForHash block ∈ payloads)
      (authentic : ∀ block ∈ blocks, Authentic env block) :
      blocks.map Block.status = originals.map Block.status := by
    induction altered with
    | nil => rfl
    | cons first _ ih =>
      rw [List.forall_mem_cons] at arise authentic
      rw [List.map_cons, List.map_cons, ih arise.2 authentic.2,
        (first.hash_iff collisionFree arise.1).mp authentic.1.1.symm]
  have length : chain.blocks.length ≠ 0 := by simpa using nonempty
  rw [validationReport, if_neg length]
  rcases reportBlocks_cases env target chain.blocks.length none chain.blocks with
    ⟨valid, passed⟩ | ⟨front, block, rest, blocks, valid, report⟩
  · left
    obtain ⟨_, authentic, meets⟩ := (validateBlocks_iff env target none chain.blocks).mp valid
    exact ⟨passed, statuses_of altered arise authentic, meets⟩
  · right
    obtain ⟨_, authentic, meets⟩ := (validateBlocks_iff env target none front).mp valid
    generalize reportBlocks env target chain.blocks.length none chain.blocks = given at report ⊢
    rw [blocks] at altered arise linked
    -- the originals of the blocks in front of the failing one, and its own
    have before := List.forall₂_take_append originals front (block :: rest) altered
    have after := List.forall₂_drop_append originals front (block :: rest) altered
    rw [List.forall₂_cons_right_iff] at after
    obtain ⟨original, later, here, _, split⟩ := after
    have position : (originals.map Block.status)[front.length]? = some original.status := by
      have there := congrArg List.head? split
      rw [List.head?_drop] at there
      rw [List.getElem?_map, there]
      rfl
    have index : block.index = Int32.ofNat front.length :=
      indexed front.length block (by rw [blocks]; simp)
    have hash := here.hash_iff collisionFree (arise block (by simp))
    refine ⟨front, block, rest, blocks, ?_, meets, ?_⟩
    · rw [← List.map_take]
      exact statuses_of before (fun block member => arise block (List.mem_append_left _ member))
        authentic
    · unfold checkBlock at report
      simp only [computeBlockHash_eq] at report
      split at report
      next wrong =>
        obtain rfl := Option.some.inj report
        refine Or.inl ⟨?_, congrArg ValidationReport.hashMismatch index⟩
        rw [position, Ne, Option.some_inj]
        exact fun same => wrong (hash.mpr same.symm)
      next right =>
        have same := hash.mp (not_not.mp right)
        split at report
        next misses =>
          obtain rfl := Option.some.inj report
          simp only [Bool.and_eq_true, Bool.not_eq_true'] at misses
          refine Or.inr ⟨by rw [position, same], ?_, misses.2, by rw [index]⟩
          rintro rfl
          exact absurd misses.1 (by simp)
        -- an intact block has its link and its signature
        · rw [List.append_cons] at linked
          have link := (HashChain.linked_concat Block.hash Block.previousHash genesisPrevHash front
            block).mp linked.of_append
          rw [HashChain.tip_eq_getLast] at link
          rw [Option.or_none, if_neg (not_not.mpr link.2)] at report
          have authentic' : verifyBlockSignature env block = true := by
            apply verifies
            have own := here.rewritten
            rw [same] at own
            rw [own]
            exact here.isSealed.signed
          simp [authentic'] at report

/-- In every run from a fresh start, whatever is marked, mined and tampered with and in whatever
order, where all signatures made verify and no two payloads of the run have one hash: validation
reports that all blocks are verified, and then no status is another than at first and all targets
are met; or it reports the first block for which this is not so, by its position, and a rewritten
status as a hash mismatch. -/
theorem report_blames_first (env : Env) (registry : StudentRegistry) (model : LedgerModel)
    (difficulty : Int32) (session : Session)
    (started : startFresh env registry model difficulty = some session)
    (commands : List Command) (verifies : SignaturesVerify env)
    (collisionFree : Set.InjOn (sha256Hex env) (arisingPayloads env registry session commands))
    (target : Int32) :
    let chain := (Runs.final (sessionStep env registry) session commands).chain
    let statuses := session.chain.blocks.map Block.status ++
      Runs.trace (sessionStep env registry) (appendedStatuses env registry) session commands
    (validationReport env chain target = .passed chain.blocks.length ∧
      chain.blocks.map Block.status = statuses ∧
      ∀ block ∈ chain.blocks.tail, hashMeetsDifficulty block.hash target = true) ∨
    ∃ front block rest, chain.blocks = front ++ block :: rest ∧
      front.map Block.status = statuses.take front.length ∧
      (∀ earlier ∈ front.tail, hashMeetsDifficulty earlier.hash target = true) ∧
      ((statuses[front.length]? ≠ some block.status ∧
          validationReport env chain target = .hashMismatch (Int32.ofNat front.length)) ∨
        (statuses[front.length]? = some block.status ∧ front ≠ [] ∧
          hashMeetsDifficulty block.hash target = false ∧
          validationReport env chain target =
            .targetMissed (Int32.ofNat front.length) target)) := by
  intro chain statuses
  obtain ⟨⟨genesis, isGenesis, blocks⟩, _, _⟩ := startFresh_some started
  -- every payload on the chain at a prompt arises in the run, as this prompt is one of it
  have throughout : Runs.Throughout (sessionStep env registry) (fun s => ∀ block ∈ s.chain.blocks,
      serializeBlockForHash block ∈ arisingPayloads env registry session commands) session
      commands := fun pre cut block member => ⟨pre, cut, block, member, rfl⟩
  have initial : Faithful env (arisingPayloads env registry session commands)
      (session.chain.blocks.map Block.status) session.chain.blocks := by
    have arises := throughout [] List.nil_prefix genesis (by simp [blocks])
    rw [blocks]
    exact ⟨⟨isGenesis.previousHash, trivial⟩, [genesis], rfl,
      .cons ⟨rfl, isGenesis.isSealed, arises⟩ .nil⟩
  -- along the run: what was appended is still there but for its status, numbered by position
  obtain ⟨faithful, nonempty, indexed⟩ := Runs.logged_invariant (sessionStep env registry)
    (appendedStatuses env registry)
    (fun log s => Faithful env (arisingPayloads env registry session commands) log s.chain.blocks ∧
      s.chain.blocks ≠ [] ∧ Indexed s.chain.blocks)
    (fun log s command held arise => ⟨faithful_step env registry command held.1 arise.2,
      indexed_sessionStep env registry command held.2.1 held.2.2⟩)
    ⟨initial, by simp [blocks], blocks ▸ indexed_singleton isGenesis.index⟩
    (Runs.guarded_of_throughout (sessionStep env registry) throughout)
  exact report_of_faithful verifies collisionFree faithful
    (throughout commands (List.prefix_refl commands)) nonempty indexed target

/-- Two records are mined, and the later one is tampered with. -/
def tamperedSecond : List Command :=
  [.mark "ALU001".toList "PRESENT".toList, .mark "ALU002".toList "LATE".toList, .mineSolo,
    .tamper 2]

private theorem collisionFree_tamperedSecond :
    Set.InjOn (sha256Hex Sample.env)
      (arisingPayloads Sample.env Sample.registry (Sample.start .utxo) tamperedSecond) := by
  have distinct : ∀ left ∈ tamperedSecond.inits.flatMap (fun pre =>
        (Runs.final (sessionStep Sample.env Sample.registry) (Sample.start .utxo)
          pre).chain.blocks.map serializeBlockForHash),
      ∀ right ∈ tamperedSecond.inits.flatMap (fun pre =>
        (Runs.final (sessionStep Sample.env Sample.registry) (Sample.start .utxo)
          pre).chain.blocks.map serializeBlockForHash),
      sha256Hex Sample.env left = sha256Hex Sample.env right → left = right := by
    decide +kernel
  rintro left ⟨pre, cut, block, member, rfl⟩ right ⟨pre', cut', block', member', rfl⟩
  refine distinct _ ?_ _ ?_
  · exact List.mem_flatMap.mpr ⟨pre, (List.mem_inits _ _).mpr cut, List.mem_map_of_mem member⟩
  · exact List.mem_flatMap.mpr ⟨pre', (List.mem_inits _ _).mpr cut', List.mem_map_of_mem member'⟩

theorem report_blames_first_sample :
    ∃ i, validationReport Sample.env (Runs.final (sessionStep Sample.env Sample.registry)
      (Sample.start .utxo) tamperedSecond).chain 1 = .hashMismatch i := by
  rcases report_blames_first Sample.env Sample.registry .utxo 1 (Sample.start .utxo)
    (Sample.startFresh_eq .utxo) tamperedSecond Sample.signaturesVerify
    collisionFree_tamperedSecond 1 with
    ⟨_, same, _⟩ | ⟨front, block, rest, blocks, _, _, ⟨_, blamed⟩ | ⟨_, _, misses, _⟩⟩
  · exact absurd same (by decide +kernel)
  · exact ⟨_, blamed⟩
  · have meets : ∀ block ∈ (Runs.final (sessionStep Sample.env Sample.registry)
        (Sample.start .utxo) tamperedSecond).chain.blocks,
        hashMeetsDifficulty block.hash 1 = true := by
      decide +kernel
    rw [meets block (by rw [blocks]; simp)] at misses
    cases misses

-- what the user reads of it
example : (validationReport Sample.env (Runs.final (sessionStep Sample.env Sample.registry)
    (Sample.start .utxo) tamperedSecond).chain 1).line =
    "Block 2: hash mismatch (possible tampering).".toList := by
  decide +kernel

end Attendance
