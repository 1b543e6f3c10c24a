import Attendance.Displays
import Attendance.Properties.TamperEvidence

/-!
# `view` tells the blocks that were tampered with

Validation stops at the first block that fails a check. `view` checks the signature of every
block, and the signature covers the status: in a run that marks, mines and tampers in any order
it is shown as valid for the blocks whose status is the original one, and for no other.
-/
namespace Attendance

open CText

/-- The signature payloads of all blocks in all states a run passes through. -/
def signedPayloads (env : Env) (registry : StudentRegistry) (session : Session)
    (commands : List Command) : Set (List Char) :=
  { payload | ∃ pre, pre <+: commands ∧
    ∃ block ∈ (Runs.final (sessionStep env registry) session pre).chain.blocks,
      serializeBlockForSignature block = payload }

/-- No signature is accepted for two of the payloads. -/
def SignaturesBind (env : Env) (payloads : Set (List Char)) : Prop :=
  ∀ signature, ∀ left ∈ payloads, ∀ right ∈ payloads, env.digestVerify signature left = true →
    env.digestVerify signature right = true → left = right

theorem serializeBlockForSignature_of_forHash {left right : Block}
    (same : serializeBlockForHash left = serializeBlockForHash right) :
    serializeBlockForSignature left = serializeBlockForSignature right := by
  rw [serializeBlockForHash_eq, serializeBlockForHash_eq] at same
  exact (split_last (notMem_decimal rfl _) (notMem_decimal rfl _) same).1

/-- The status can be read off the signature payload of a block when the rest is known. -/
private theorem status_of_serializeBlockForSignature {block : Block} {status : CStr statusLen}
    (same : serializeBlockForSignature { block with status } = serializeBlockForSignature block) :
    status = block.status := by
  apply status_of_serializeBlockForHash
  rw [serializeBlockForHash_eq, serializeBlockForHash_eq, same]

/-- The library has accepted the signature for the payload. -/
private theorem digestVerify_of_verifyBlockSignature {env : Env} {block : Block}
    (verifies : verifyBlockSignature env block = true) :
    env.digestVerify (block.signature.bytes.take
      (signatureLength block.signature.bytes signatureLen))
      (serializeBlockForSignature block) = true := by
  simp only [verifyBlockSignature] at verifies
  split at verifies
  · cases verifies
  split at verifies
  · cases verifies
  · exact verifies

/-- The signature of an altered block is accepted exactly if its status is the original one. -/
private theorem Altered.verify_iff {env : Env} {hashed payloads : Set (List Char)}
    {original block : Block} (verifies : SignaturesVerify env) (binds : SignaturesBind env payloads)
    (altered : Altered env hashed original block)
    (arises : serializeBlockForSignature block ∈ payloads)
    (arises' : serializeBlockForSignature original ∈ payloads) :
    verifyBlockSignature env block = decide (block.status = original.status) := by
  have own := verifies original altered.isSealed.signed
  by_cases same : block.status = original.status
  · have restored := altered.rewritten
    rw [same] at restored
    rw [decide_eq_true same, restored]
    exact own
  · rw [decide_eq_false same, Bool.eq_false_iff]
    intro accepted
    -- the signature is still the one of the original
    have signature : block.signature = original.signature := by rw [altered.rewritten]
    have first := digestVerify_of_verifyBlockSignature accepted
    rw [signature] at first
    have payload := binds _ _ arises _ arises' first (digestVerify_of_verifyBlockSignature own)
    rw [altered.rewritten] at payload
    exact same (status_of_serializeBlockForSignature payload)

private theorem flatMap_blockLines {env : Env} {hashed payloads : Set (List Char)}
    {originals blocks : List Block} (localTime : Int64 → List Char)
    (verifies : SignaturesVerify env) (binds : SignaturesBind env payloads)
    (altered : List.Forall₂ (Altered env hashed) originals blocks)
    (arise : ∀ block ∈ blocks, serializeBlockForSignature block ∈ payloads)
    (arise' : ∀ payload ∈ hashed, ∀ block, serializeBlockForHash block = payload →
      serializeBlockForSignature block ∈ payloads) :
    blocks.flatMap (fun block => blockLines localTime block (verifyBlockSignature env block)) =
      (blocks.zip (originals.map Block.status)).flatMap
        (fun shown => blockLines localTime shown.1 (decide (shown.1.status = shown.2))) := by
  induction altered with
  | nil => rfl
  | cons first _ ih =>
    rw [List.forall_mem_cons] at arise
    rw [List.map_cons, List.zip_cons_cons, List.flatMap_cons, List.flatMap_cons, ih arise.2,
      first.verify_iff verifies binds arise.1 (arise' _ first.arises _ rfl)]

/-- In every run from a fresh start, whatever is marked, mined and tampered with and in whatever
order, where all signatures made verify, and none verifies for another payload of the run: `view`
shows all blocks, and of each that its signature is valid exactly if its status is the one it was
appended with. -/
theorem view_tells_tampered (env : Env) (localTime : Int64 → List Char)
    (registry : StudentRegistry) (model : LedgerModel) (difficulty : Int32) (session : Session)
    (started : startFresh env registry model difficulty = some session) (commands : List Command)
    (verifies : SignaturesVerify env)
    (binds : SignaturesBind env (signedPayloads env registry session commands)) :
    let chain := (Runs.final (sessionStep env registry) session commands).chain
    let statuses := session.chain.blocks.map Block.status ++
      Runs.trace (sessionStep env registry) (appendedStatuses env registry) session commands
    statuses.length = chain.blocks.length ∧
    blockchainPrintRecords env localTime chain =
      [[], "=== Confirmed Attendance Records ===".toList] ++
        (chain.blocks.zip statuses).flatMap
          (fun shown => blockLines localTime shown.1 (decide (shown.1.status = shown.2))) ++
        [[], "====================================".toList] := by
  intro chain statuses
  obtain ⟨⟨genesis, isGenesis, blocks⟩, _, _⟩ := startFresh_some started
  have throughout : Runs.Throughout (sessionStep env registry) (fun s => ∀ block ∈ s.chain.blocks,
      serializeBlockForHash block ∈ arisingPayloads env registry session commands) session
      commands := fun pre cut block member => ⟨pre, cut, block, member, rfl⟩
  have initial : Faithful env (arisingPayloads env registry session commands)
      (session.chain.blocks.map Block.status) session.chain.blocks := by
    have arises := throughout [] List.nil_prefix genesis (by simp [blocks])
    rw [blocks]
    exact ⟨⟨isGenesis.previousHash, trivial⟩, [genesis], rfl,
      .cons ⟨rfl, isGenesis.isSealed, arises⟩ .nil⟩
  have final := Runs.logged_invariant (sessionStep env registry) (appendedStatuses env registry)
    (fun log s => Faithful env (arisingPayloads env registry session commands) log s.chain.blocks)
    (fun log s command faithful arise => faithful_step env registry command faithful arise.2)
    initial (Runs.guarded_of_throughout (sessionStep env registry) throughout)
  obtain ⟨_, originals, logged, altered⟩ := final
  have here : ∀ block ∈ chain.blocks,
      serializeBlockForSignature block ∈ signedPayloads env registry session commands :=
    fun block member => ⟨commands, List.prefix_refl commands, block, member, rfl⟩
  have original_arises : ∀ payload ∈ arisingPayloads env registry session commands, ∀ block,
      serializeBlockForHash block = payload →
      serializeBlockForSignature block ∈ signedPayloads env registry session commands := by
    rintro payload ⟨pre, cut, shown, member, rfl⟩ block payload
    exact ⟨pre, cut, shown, member, (serializeBlockForSignature_of_forHash payload).symm⟩
  have same : statuses = originals.map Block.status := logged.symm
  have length : statuses.length = chain.blocks.length := by
    rw [same, List.length_map]
    exact altered.length_eq
  -- the first status is that of the genesis block
  have nonempty : chain.blocks.length ≠ 0 := by
    rw [← length]
    simp [statuses, blocks]
  refine ⟨length, ?_⟩
  rw [blockchainPrintRecords, if_neg nonempty, same]
  congr 2
  exact flatMap_blockLines localTime verifies binds altered here original_arises

/-- Of two records that are mined, one is restored and the other stays altered. -/
def tamperedBoth : List Command :=
  [.mark "ALU001".toList "PRESENT".toList, .mark "ALU002".toList "PRESENT".toList, .mineSolo,
    .tamper 1, .tamper 2, .tamper 1]

private theorem signaturesBind_tamperedBoth :
    SignaturesBind Sample.env
      (signedPayloads Sample.env Sample.registry (Sample.start .utxo) tamperedBoth) := by
  have distinct : ∀ left ∈ tamperedBoth.inits.flatMap (fun pre =>
        (Runs.final (sessionStep Sample.env Sample.registry) (Sample.start .utxo)
          pre).chain.blocks.map serializeBlockForSignature),
      ∀ right ∈ tamperedBoth.inits.flatMap (fun pre =>
        (Runs.final (sessionStep Sample.env Sample.registry) (Sample.start .utxo)
          pre).chain.blocks.map serializeBlockForSignature),
      Sample.signatureOf left = Sample.signatureOf right → left = right := by
    decide +kernel
  rintro signature left ⟨pre, cut, block, member, rfl⟩ right ⟨pre', cut', block', member', rfl⟩
    first second
  refine distinct _ ?_ _ ?_ ((of_decide_eq_true first).symm.trans (of_decide_eq_true second))
  · exact List.mem_flatMap.mpr ⟨pre, (List.mem_inits _ _).mpr cut, List.mem_map_of_mem member⟩
  · exact List.mem_flatMap.mpr ⟨pre', (List.mem_inits _ _).mpr cut', List.mem_map_of_mem member'⟩

theorem view_tells_tampered_sample :
    let chain := (Runs.final (sessionStep Sample.env Sample.registry) (Sample.start .utxo)
      tamperedBoth).chain
    let statuses := (Sample.start .utxo).chain.blocks.map Block.status ++
      Runs.trace (sessionStep Sample.env Sample.registry)
        (appendedStatuses Sample.env Sample.registry) (Sample.start .utxo) tamperedBoth
    (chain.blocks.zip statuses).map (fun shown => decide (shown.1.status = shown.2)) =
      [true, true, false] ∧
    blockchainPrintRecords Sample.env (fun _ => []) chain =
      [[], "=== Confirmed Attendance Records ===".toList] ++
        (chain.blocks.zip statuses).flatMap
          (fun shown => blockLines (fun _ => []) shown.1 (decide (shown.1.status = shown.2))) ++
        [[], "====================================".toList] :=
  ⟨by decide +kernel, (view_tells_tampered Sample.env (fun _ => []) Sample.registry .utxo 1
    (Sample.start .utxo) (Sample.startFresh_eq .utxo) tamperedBoth Sample.signaturesVerify
    signaturesBind_tamperedBoth).2⟩

end Attendance
