import Attendance.Sample

/-!
# The tip commits to the history

Two validated chains that end in the same hash have the same payloads throughout.
The previous hash and the nonce stand at the end of a payload and contain no `|`,
so they can be read off it whatever the names before them contain.
-/
namespace Attendance

open CText

/-- The texts the blocks of a chain are hashed from. -/
def hashPayloads (chain : Blockchain) : Set (List Char) :=
  { payload | ∃ block ∈ chain.blocks, serializeBlockForHash block = payload }

private theorem bar_notMem_previousHash {env : Env} {chain : Blockchain} {block : Block}
    (linked : HashChain.Linked Block.hash Block.previousHash genesisPrevHash chain.blocks)
    (authentic : ∀ block ∈ chain.blocks, Authentic env block) (member : block ∈ chain.blocks) :
    '|' ∉ block.previousHash.text := by
  rcases HashChain.prev_of_linked Block.hash Block.previousHash linked member with
    first | ⟨earlier, hearlier, link⟩
  · rw [first]
    exact bar_notMem_genesisPrevHash
  · rw [link, (authentic earlier hearlier).1]
    exact bar_notMem_sha256Hex env _

/-- Validated chains with the same last hash have the same length, and their blocks
agree in hash, previous hash, nonce and hash payload at every position. -/
theorem validated_tip_commits (env : Env) (left right : Blockchain)
    (leftDifficulty rightDifficulty : Int32)
    (collisionFree : Set.InjOn (sha256Hex env) (hashPayloads left ∪ hashPayloads right))
    (noGenesis : ∀ payload ∈ hashPayloads left ∪ hashPayloads right,
      sha256Hex env payload ≠ genesisPrevHash)
    (leftValid : blockchainValidate env left leftDifficulty = true)
    (rightValid : blockchainValidate env right rightDifficulty = true)
    (tips : (blockchainTip left).map Block.hash = (blockchainTip right).map Block.hash) :
    left.blocks.length = right.blocks.length ∧
    ∀ (i : Nat) (b c : Block), left.blocks[i]? = some b → right.blocks[i]? = some c →
      b.hash = c.hash ∧ b.previousHash = c.previousHash ∧ b.nonce = c.nonce ∧
      serializeBlockForHash b = serializeBlockForHash c := by
  obtain ⟨_, leftLinked, leftAuthentic, _⟩ := (blockchainValidate_iff _ _ _).mp leftValid
  obtain ⟨_, rightLinked, rightAuthentic, _⟩ := (blockchainValidate_iff _ _ _).mp rightValid
  have inLeft {b : Block} (hb : b ∈ left.blocks) :
      serializeBlockForHash b ∈ hashPayloads left ∪ hashPayloads right := Or.inl ⟨b, hb, rfl⟩
  have inRight {c : Block} (hc : c ∈ right.blocks) :
      serializeBlockForHash c ∈ hashPayloads left ∪ hashPayloads right := Or.inr ⟨c, hc, rfl⟩
  -- the hypothesis of the library theorem: a hash determines the hash before it
  have commits : ∀ b ∈ left.blocks, ∀ c ∈ right.blocks, b.hash = c.hash →
      b.previousHash = c.previousHash ∧
        (b.nonce = c.nonce ∧ serializeBlockForHash b = serializeBlockForHash c) := by
    intro b hb c hc hashes
    rw [(leftAuthentic b hb).1, (rightAuthentic c hc).1] at hashes
    -- equal hashes are hashes of one payload
    have payloads := collisionFree (inLeft hb) (inRight hc) hashes
    obtain ⟨previous, nonce⟩ := tail_of_serializeBlockForHash
      (bar_notMem_previousHash leftLinked leftAuthentic hb)
      (bar_notMem_previousHash rightLinked rightAuthentic hc) payloads
    exact ⟨previous, nonce, payloads⟩
  have history := HashChain.history_of_tip Block.hash Block.previousHash commits
    (fun b hb => (leftAuthentic b hb).1 ▸ noGenesis _ (inLeft hb))
    (fun c hc => (rightAuthentic c hc).1 ▸ noGenesis _ (inRight hc))
    leftLinked rightLinked
    (by
      rw [HashChain.tip_eq_getLast, HashChain.tip_eq_getLast]
      exact congrArg (Option.getD · genesisPrevHash) tips)
  refine ⟨history.length_eq, ?_⟩
  intro i b c hb hc
  obtain ⟨hi, rfl⟩ := List.getElem?_eq_some_iff.mp hb
  obtain ⟨hj, rfl⟩ := List.getElem?_eq_some_iff.mp hc
  exact (List.forall₂_iff_get.mp history).2 i hi hj

/-- A genesis block and a block for the given student behind it. -/
def twoBlocks (studentId fullName : List Char) : Blockchain :=
  let genesis := sealed (genesisFields 0)
  let next := sealed { genesisFields 0 with
    index := 1, previousHash := genesis.hash
    studentId := .strncpy studentId, fullName := .strncpy fullName }
  ⟨[genesis, next], by simp [maxBlocks]⟩
where
  /-- The block signed and hashed. -/
  sealed (block : Block) : Block :=
    { Sample.sign block with hash := blockHash Sample.env (Sample.sign block) }

/-- Two different chains that print the same payloads, because a name contains `|`. -/
def barInName : Blockchain := twoBlocks "A".toList "B|C".toList

def barInId : Blockchain := twoBlocks "A|B".toList "C".toList

private theorem hashPayloads_eq {chain : Blockchain} {payloads : List (List Char)}
    (printed : chain.blocks.map serializeBlockForHash = payloads) :
    hashPayloads chain = { payload | payload ∈ payloads } := by
  ext payload
  rw [← printed]
  exact List.mem_map.symm

theorem validated_tip_commits_sample :
    barInName ≠ barInId ∧ barInName.blocks.length = 2 ∧
    barInName.blocks.length = barInId.blocks.length ∧
    ∀ (i : Nat) (b c : Block), barInName.blocks[i]? = some b → barInId.blocks[i]? = some c →
      b.hash = c.hash ∧ b.previousHash = c.previousHash ∧ b.nonce = c.nonce ∧
      serializeBlockForHash b = serializeBlockForHash c := by
  -- both chains are hashed from the same two texts
  have same : barInId.blocks.map serializeBlockForHash =
      barInName.blocks.map serializeBlockForHash := by decide +kernel
  have distinct : ∀ payload ∈ barInName.blocks.map serializeBlockForHash,
      ∀ payload' ∈ barInName.blocks.map serializeBlockForHash,
      sha256Hex Sample.env payload = sha256Hex Sample.env payload' → payload = payload' := by
    decide +kernel
  have started : ∀ payload ∈ barInName.blocks.map serializeBlockForHash,
      sha256Hex Sample.env payload ≠ genesisPrevHash := by decide +kernel
  refine ⟨by decide +kernel, rfl, validated_tip_commits Sample.env barInName barInId 1 1 ?_ ?_
    (by decide +kernel) (by decide +kernel) (by decide +kernel)⟩
  · rw [hashPayloads_eq rfl, hashPayloads_eq same, Set.union_self]
    exact fun payload member payload' member' => distinct payload member payload' member'
  · rw [hashPayloads_eq rfl, hashPayloads_eq same, Set.union_self]
    exact started

end Attendance
