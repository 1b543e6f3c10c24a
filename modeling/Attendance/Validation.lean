import Attendance.Rounds

/-!
# What validation reports

`blockchain_validate` prints one line: about the first check that fails at the first block that
fails one, or about the whole chain.
-/
namespace Attendance

open CText

inductive ValidationReport where
  | emptyChain
  | hashFailed (index : Int32)
  | hashMismatch (index : Int32)
  | targetMissed (index difficulty : Int32)
  | genesisLink
  | brokenLink (index previous : Int32)
  | invalidSignature (index : Int32)
  | passed (count : Nat)
deriving DecidableEq

def ValidationReport.line : ValidationReport → List Char
  | .emptyChain => "ERROR: Blockchain is empty.".toList
  | .hashFailed index =>
    "Block ".toList ++ signedDecimal index.toInt ++ ": hash computation failed.".toList
  | .hashMismatch index =>
    "Block ".toList ++ signedDecimal index.toInt ++
      ": hash mismatch (possible tampering).".toList
  | .targetMissed index difficulty =>
    "Block ".toList ++ signedDecimal index.toInt ++ ": hash does not meet difficulty ".toList ++
      signedDecimal difficulty.toInt ++ ".".toList
  | .genesisLink => "Genesis block: invalid previous_hash.".toList
  | .brokenLink index previous =>
    "Block ".toList ++ signedDecimal index.toInt ++
      ": previous_hash does not link to block ".toList ++ signedDecimal previous.toInt ++
      ".".toList
  | .invalidSignature index =>
    "Block ".toList ++ signedDecimal index.toInt ++ ": invalid digital signature.".toList
  | .passed count =>
    "Chain validation PASSED (".toList ++ decimal count ++ " block(s) verified).".toList

/-- The checks of one block, in the order of the source. -/
def checkBlock (env : Env) (difficulty : Int32) (previous : Option Block) (block : Block) :
    Option ValidationReport :=
  match computeBlockHash env block with
  | none => some (.hashFailed block.index)
  | some expectedHash =>
    if expectedHash ≠ block.hash then some (.hashMismatch block.index)
    else if previous.isSome && !hashMeetsDifficulty block.hash difficulty then
      some (.targetMissed block.index difficulty)
    else if block.previousHash ≠ (previous.map Block.hash).getD genesisPrevHash then
      match previous with
      | none => some .genesisLink
      | some previous => some (.brokenLink block.index previous.index)
    else if !verifyBlockSignature env block then some (.invalidSignature block.index)
    else none

/-- The loop; `count` is what is reported at its end. -/
def reportBlocks (env : Env) (difficulty : Int32) (count : Nat) (previous : Option Block) :
    List Block → ValidationReport
  | [] => .passed count
  | block :: rest =>
    match checkBlock env difficulty previous block with
    | some report => report
    | none => reportBlocks env difficulty count (some block) rest

def validationReport (env : Env) (chain : Blockchain) (difficulty : Int32) : ValidationReport :=
  if chain.blocks.length = 0 then .emptyChain
  else reportBlocks env difficulty chain.blocks.length none chain.blocks

/-! ### Reports and results -/

theorem checkBlock_ne_passed {env : Env} {difficulty : Int32} {previous : Option Block}
    {block : Block} {count : Nat} :
    checkBlock env difficulty previous block ≠ some (.passed count) := by
  unfold checkBlock
  repeat' split
  all_goals simp

/-- The loop goes on with the next block exactly if all checks of this one pass. -/
theorem validateBlocks_cons (env : Env) (difficulty : Int32) (previous : Option Block)
    (block : Block) (rest : List Block) :
    validateBlocks env difficulty previous (block :: rest) =
      ((checkBlock env difficulty previous block).isNone &&
        validateBlocks env difficulty (some block) rest) := by
  rw [validateBlocks]
  unfold checkBlock
  cases computeBlockHash env block with
  | none => rfl
  | some expectedHash =>
    simp only
    split
    · rfl
    split
    · rfl
    split
    · cases previous <;> rfl
    split
    · rfl
    · rfl

/-- The report is about the whole chain, or about the first block that fails a check. -/
theorem reportBlocks_cases (env : Env) (difficulty : Int32) (count : Nat)
    (previous : Option Block) (blocks : List Block) :
    (validateBlocks env difficulty previous blocks = true ∧
      reportBlocks env difficulty count previous blocks = .passed count) ∨
    ∃ front block rest, blocks = front ++ block :: rest ∧
      validateBlocks env difficulty previous front = true ∧
      checkBlock env difficulty (front.getLast?.or previous) block =
        some (reportBlocks env difficulty count previous blocks) := by
  induction blocks generalizing previous with
  | nil => exact Or.inl ⟨rfl, rfl⟩
  | cons block rest ih =>
    rw [reportBlocks, validateBlocks_cons]
    cases checked : checkBlock env difficulty previous block with
    | some report => exact Or.inr ⟨[], block, rest, rfl, rfl, checked⟩
    | none =>
      rcases ih (some block) with ⟨valid, passed⟩ | ⟨front, failing, later, rfl, valid, report⟩
      · exact Or.inl ⟨by simpa using valid, passed⟩
      -- what the loop knows of the blocks behind it is the last one
      · refine Or.inr ⟨block :: front, failing, later, rfl, ?_, ?_⟩
        · rw [validateBlocks_cons, checked]
          exact valid
        · rw [List.getLast?_cons]
          cases last : front.getLast? with
          | none => simpa [last] using report
          | some tip => simpa [last] using report

private theorem validateBlocks_iff_passed (env : Env) (difficulty : Int32) (count : Nat)
    (previous : Option Block) (blocks : List Block) :
    validateBlocks env difficulty previous blocks = true ↔
      reportBlocks env difficulty count previous blocks = .passed count := by
  induction blocks generalizing previous with
  | nil => exact iff_of_true rfl rfl
  | cons block rest ih =>
    rw [reportBlocks, validateBlocks_cons]
    cases checked : checkBlock env difficulty previous block with
    | some report =>
      refine iff_of_false (by simp) ?_
      rintro rfl
      exact checkBlock_ne_passed checked
    | none => simpa using ih (some block)

/-- `blockchain_validate` returns true exactly if the report says so. -/
theorem blockchainValidate_iff_passed (env : Env) (chain : Blockchain) (difficulty : Int32) :
    blockchainValidate env chain difficulty = true ↔
      validationReport env chain difficulty = .passed chain.blocks.length := by
  unfold blockchainValidate validationReport
  split
  · simp
  · exact validateBlocks_iff_passed env difficulty chain.blocks.length none chain.blocks

/-! ### Positions -/

/-- Every block has its position as its index. -/
def Indexed (blocks : List Block) : Prop :=
  ∀ (i : Nat) (block : Block), blocks[i]? = some block → block.index = Int32.ofNat i

theorem indexed_singleton {block : Block} (index : block.index = 0) : Indexed [block] := by
  intro i other there
  rw [List.getElem?_singleton] at there
  split at there
  next first =>
    cases there
    rw [index, first]
    rfl
  next => cases there

/-- The index of a mined block is counted on from the tip. -/
theorem Indexed.concat {env : Env} {difficulty : Int32} {st : MineState} {front mined : Block}
    (indexed : Indexed st.chain.blocks) (nonempty : st.chain.blocks ≠ [])
    (mining : MinedFrom env difficulty st front mined) :
    Indexed (st.chain.blocks ++ [mined]) := by
  intro i block there
  rcases Nat.lt_trichotomy i st.chain.blocks.length with inside | rfl | outside
  · rw [List.getElem?_append_left inside] at there
    exact indexed i block there
  · rw [List.getElem?_concat_length, Option.some_inj] at there
    have last := List.getLast?_eq_some_getLast nonempty
    have position := indexed (st.chain.blocks.length - 1) _
      (List.getLast?_eq_getElem?.symm.trans last)
    have positive := List.length_pos_iff.mpr nonempty
    rw [← there, mining.index last, position, ← Nat.sub_add_cancel positive]
    exact (Int32.ofNat_add _ 1).symm
  · rw [List.getElem?_eq_none (by simp; omega)] at there
    cases there

theorem Indexed.modify {blocks : List Block} (indexed : Indexed blocks) (i : Nat)
    {f : Block → Block} (keeps : ∀ block, (f block).index = block.index) :
    Indexed (blocks.modify i f) := by
  intro j block there
  rw [List.getElem?_modify] at there
  split at there
  · obtain ⟨before, position, rfl⟩ := Option.map_eq_some_iff.mp there
    rw [keeps]
    exact indexed j before position
  · simpa using indexed j block (by simpa using there)

end Attendance
