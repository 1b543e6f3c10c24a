import Attendance.Environment

/-!
# Hashing and signing

`crypto.c`: the two payloads of a block, its SHA-256 hash, and the signature that is
stored without its length.
-/
namespace Attendance

open CText

/-- The fields printed in both payloads, in order. -/
def payloadFields (block : Block) : List (List Char) :=
  [signedDecimal block.index.toInt, signedDecimal block.timestamp.toInt, block.studentId.text,
    block.fullName.text, block.courseCode.text, block.status.text,
    signedDecimal block.tokenReward.toInt, block.transactionId.text, block.previousHash.text]

def serializeBlockPayload (block : Block) (includeNonce : Bool) : List Char :=
  if includeNonce then
    joinWith '|' (payloadFields block ++ [decimal block.nonce.toNat])
  else
    joinWith '|' (payloadFields block)

def serializeBlockForHash (block : Block) : List Char := serializeBlockPayload block true

def serializeBlockForSignature (block : Block) : List Char := serializeBlockPayload block false

/-- `sizeof(payload)` in `compute_block_hash`, `sign_block` and `verify_block_signature`. -/
abbrev payloadSize : Nat := 768

theorem serializeBlockForSignature_eq (block : Block) :
    serializeBlockForSignature block =
      joinWith '|' [signedDecimal block.index.toInt, signedDecimal block.timestamp.toInt,
        block.studentId.text, block.fullName.text, block.courseCode.text, block.status.text,
        signedDecimal block.tokenReward.toInt, block.transactionId.text] ++
      '|' :: block.previousHash.text :=
  joinWith_append_singleton '|' [_, _, _, _, _, _, _, _] (List.cons_ne_nil _ _)
    block.previousHash.text

theorem serializeBlockForHash_eq (block : Block) :
    serializeBlockForHash block =
      serializeBlockForSignature block ++ '|' :: decimal block.nonce.toNat :=
  joinWith_append_singleton '|' (payloadFields block) (by simp [payloadFields]) _

/-- The end of a hash payload is its previous hash and its nonce. -/
theorem tail_of_serializeBlockForHash {left right : Block}
    (avoids : '|' ∉ left.previousHash.text) (avoids' : '|' ∉ right.previousHash.text)
    (same : serializeBlockForHash left = serializeBlockForHash right) :
    left.previousHash = right.previousHash ∧ left.nonce = right.nonce := by
  rw [serializeBlockForHash_eq, serializeBlockForHash_eq] at same
  -- the nonce is behind the last bar, the previous hash behind the last but one
  obtain ⟨front, nonce⟩ := split_last (notMem_decimal rfl _) (notMem_decimal rfl _) same
  rw [serializeBlockForSignature_eq, serializeBlockForSignature_eq] at front
  have previous := (split_last avoids avoids' front).2
  exact ⟨CStr.ext previous, UInt64.toNat_inj.mp (decimal_injective nonce)⟩

theorem length_signedDecimal_int32 (x : Int32) : (signedDecimal x.toInt).length ≤ 11 := by
  have low := x.le_toInt
  have high := x.toInt_lt
  exact length_signedDecimal_le (e := 10) (by omega) (by omega)

private theorem length_signedDecimal_int64 (x : Int64) : (signedDecimal x.toInt).length ≤ 20 := by
  have low := x.le_toInt
  have high := x.toInt_lt
  exact length_signedDecimal_le (e := 19) (by omega) (by omega)

/-- The fields of a block never fill the payload buffer. -/
theorem length_serializeBlockForHash (block : Block) :
    (serializeBlockForHash block).length < payloadSize := by
  have index := length_signedDecimal_int32 block.index
  have timestamp := length_signedDecimal_int64 block.timestamp
  have studentId : block.studentId.text.length < 20 := block.studentId.fits
  have fullName : block.fullName.text.length < 50 := block.fullName.fits
  have courseCode : block.courseCode.text.length < 10 := block.courseCode.fits
  have status : block.status.text.length < 10 := block.status.fits
  have tokenReward := length_signedDecimal_int32 block.tokenReward
  have transactionId : block.transactionId.text.length < 65 := block.transactionId.fits
  have previousHash : block.previousHash.text.length < 65 := block.previousHash.fits
  have nonce : (decimal block.nonce.toNat).length ≤ 20 :=
    length_decimal_le (by omega) (Nat.lt_trans block.nonce.toNat_lt (by decide))
  -- the ten fields have at most 276 characters, with nine bars between them
  simp only [serializeBlockForHash_eq, serializeBlockForSignature_eq, joinWith, List.length_append,
    List.length_cons, payloadSize]
  omega

theorem length_serializeBlockForSignature (block : Block) :
    (serializeBlockForSignature block).length < payloadSize := by
  have whole := length_serializeBlockForHash block
  rw [serializeBlockForHash_eq, List.length_append] at whole
  omega

def sha256Hex (env : Env) (payload : List Char) : CStr hashLen := (env.sha256 payload).toCStr

theorem length_sha256Hex (env : Env) (payload : List Char) :
    (sha256Hex env payload).text.length = 64 := (env.sha256 payload).length_eq

theorem bar_notMem_sha256Hex (env : Env) (payload : List Char) :
    '|' ∉ (sha256Hex env payload).text := by
  intro member
  have hex := List.all_eq_true.mp (env.sha256 payload).hex '|' member
  revert hex
  decide

theorem bar_notMem_genesisPrevHash : '|' ∉ genesisPrevHash.text := by decide

def computeBlockHash (env : Env) (block : Block) : Option (CStr hashLen) :=
  let payload := serializeBlockForHash block
  if payload.length ≥ payloadSize then none else some (sha256Hex env payload)

/-- The hash `compute_block_hash` returns: the buffer never makes it fail. -/
def blockHash (env : Env) (block : Block) : CStr hashLen :=
  sha256Hex env (serializeBlockForHash block)

theorem computeBlockHash_eq (env : Env) (block : Block) :
    computeBlockHash env block = some (blockHash env block) :=
  if_neg (by have := length_serializeBlockForHash block; omega)

/-- `memcpy` of the signature over a cleared array. -/
def Signature.store (bytes : List UInt8) (short : bytes.length ≤ signatureLen) : Signature :=
  ⟨bytes ++ List.replicate (signatureLen - bytes.length) 0, by
    rw [List.length_append, List.length_replicate]; omega⟩

/-- The block with its new signature; `none` is the C function returning false. -/
def signBlock (env : Env) (world : World) (block : Block) : World × Option Block :=
  let payload := serializeBlockForSignature block
  if payload.length ≥ payloadSize then (world, none)
  else
    match env.digestSign world.calls payload with
    | none => (world.next, none)
    | some bytes =>
      -- a longer signature does not fit the array and is refused
      if short : bytes.length ≤ signatureLen then
        (world.next, some { block with signature := Signature.store bytes short })
      else (world.next, none)

@[simp] theorem signBlock_world (env : Env) (world : World) (block : Block) :
    (signBlock env world block).1 = world.next := by
  have fits := length_serializeBlockForSignature block
  simp only [signBlock, ge_iff_le, if_neg (Nat.not_le.mpr fits)]
  split
  · rfl
  · split <;> rfl

/-- Signing changes nothing but the signature. -/
theorem signBlock_some {env : Env} {world : World} {block signed : Block}
    (returned : (signBlock env world block).2 = some signed) :
    signed = { block with signature := signed.signature } := by
  have fits := length_serializeBlockForSignature block
  simp only [signBlock, ge_iff_le, if_neg (Nat.not_le.mpr fits)] at returned
  split at returned
  · cases returned
  · split at returned
    · cases returned
      rfl
    · cases returned

/-- The block carries a signature that `sign_block` made for this payload. -/
def Signed (env : Env) (block : Block) : Prop :=
  ∃ world source signed, (signBlock env world source).2 = some signed ∧
    signed.signature = block.signature ∧
    serializeBlockForSignature source = serializeBlockForSignature block

/-- The loop of `signature_length`: `i` moves down over trailing zero bytes. -/
def signatureLength (signature : List UInt8) : Nat → Nat
  | 0 => 0
  | i + 1 => if signature[i]? = some 0 then signatureLength signature i else i + 1

def verifyBlockSignature (env : Env) (block : Block) : Bool :=
  let sigLen := signatureLength block.signature.bytes signatureLen
  let payload := serializeBlockForSignature block
  -- an empty signature is refused before the library is asked
  if sigLen = 0 then false
  else if payload.length ≥ payloadSize then false
  else env.digestVerify (block.signature.bytes.take sigLen) payload

/-- `verify_block_signature` accepts what `sign_block` produced for the same payload. -/
def SignaturesVerify (env : Env) : Prop :=
  ∀ block, Signed env block → verifyBlockSignature env block = true

private theorem signatureLength_append_zeros (bytes : List UInt8) (zeros : Nat) :
    signatureLength (bytes ++ List.replicate zeros 0) (bytes.length + zeros) =
      signatureLength (bytes ++ List.replicate zeros 0) bytes.length := by
  have drops (extra : Nat) (few : extra ≤ zeros) :
      signatureLength (bytes ++ List.replicate zeros 0) (bytes.length + extra) =
        signatureLength (bytes ++ List.replicate zeros 0) bytes.length := by
    induction extra with
    | zero => rfl
    | succ extra ih =>
      have zero : (bytes ++ List.replicate zeros (0 : UInt8))[bytes.length + extra]? = some 0 := by
        rw [List.getElem?_append_right (Nat.le_add_right _ _), Nat.add_sub_cancel_left,
          List.getElem?_replicate, if_pos (by omega)]
      -- each step back passes one more of the padding zeros
      rw [← Nat.add_assoc, signatureLength, if_pos zero, ih (by omega)]
  exact drops zeros le_rfl

private theorem signatureLength_le (signature : List UInt8) (i : Nat) :
    signatureLength signature i ≤ i := by
  induction i with
  | zero => exact Nat.le_refl 0
  | succ i ih =>
    rw [signatureLength]
    split
    · exact Nat.le_succ_of_le ih
    · exact Nat.le_refl _

/-- A signature is found again in the array exactly if it does not end in a zero byte. -/
theorem signatureLength_store_iff {bytes : List UInt8} (short : bytes.length ≤ signatureLen) :
    signatureLength (Signature.store bytes short).bytes signatureLen = bytes.length ↔
      bytes.getLast? ≠ some 0 := by
  have padded := signatureLength_append_zeros bytes (signatureLen - bytes.length)
  rw [Nat.add_sub_cancel' short] at padded
  rw [Signature.store, padded]
  generalize signatureLen - bytes.length = zeros
  rcases List.eq_nil_or_concat bytes with rfl | ⟨front, last, rfl⟩
  · simp [signatureLength]
  · have there : (front.concat last ++ List.replicate zeros (0 : UInt8))[front.length]? =
        some last := by
      rw [List.concat_eq_append, List.getElem?_append_left (by simp), List.getElem?_concat_length]
    rw [List.length_concat, signatureLength, there, List.concat_eq_append, List.getLast?_concat]
    split
    -- the search runs on past the end of the signature
    next zero =>
      have before := signatureLength_le
        (front ++ [last] ++ List.replicate zeros (0 : UInt8)) front.length
      exact iff_of_false (by omega) (not_not.mpr zero)
    next nonzero => exact iff_of_true rfl nonzero

/-- `sign_block` stores what the library returns. -/
theorem signature_signBlock {env : Env} {world : World} {block signed : Block} {bytes : List UInt8}
    (signs : env.digestSign world.calls (serializeBlockForSignature block) = some bytes)
    (returned : (signBlock env world block).2 = some signed) :
    ∃ short, signed = { block with signature := .store bytes short } := by
  have fits := length_serializeBlockForSignature block
  simp only [signBlock, ge_iff_le, if_neg (Nat.not_le.mpr fits), signs] at returned
  split at returned
  next short =>
    cases returned
    exact ⟨short, rfl⟩
  next => cases returned

/-- A stored signature that does not end in a zero byte reaches the library as it was. -/
theorem verifyBlockSignature_of_store (env : Env) {block : Block} {bytes : List UInt8}
    {short : bytes.length ≤ signatureLen} (stored : block.signature = .store bytes short)
    (nonempty : bytes ≠ []) (nonzero : bytes.getLast? ≠ some 0) :
    verifyBlockSignature env block = env.digestVerify bytes (serializeBlockForSignature block) := by
  have fits := length_serializeBlockForSignature block
  have positive : bytes.length ≠ 0 := by simpa using nonempty
  rw [verifyBlockSignature, stored]
  simp only [(signatureLength_store_iff short).mpr nonzero, if_neg positive, ge_iff_le,
    if_neg (Nat.not_le.mpr fits)]
  rw [Signature.store, List.take_left]

/-- Where the library verifies what it signed, and no signature ends in a zero byte,
so do `sign_block` and `verify_block_signature`. -/
theorem signaturesVerify_of_library {env : Env}
    (verifies : ∀ call payload bytes, env.digestSign call payload = some bytes →
      env.digestVerify bytes payload = true)
    (ends : ∀ call payload bytes, env.digestSign call payload = some bytes →
      ∃ front last, bytes = front ++ [last] ∧ last ≠ 0) : SignaturesVerify env := by
  rintro block ⟨world, source, signed, returned, signature, payload⟩
  cases signs : env.digestSign world.calls (serializeBlockForSignature source) with
  | none =>
    have fits := length_serializeBlockForSignature source
    simp [signBlock, Nat.not_le.mpr fits, signs] at returned
  | some bytes =>
    obtain ⟨short, rfl⟩ := signature_signBlock signs returned
    obtain ⟨front, last, rfl, nonzero⟩ := ends _ _ _ signs
    have stored : block.signature = .store (front ++ [last]) short := signature.symm
    -- the padding is cut off again, and the library sees what it produced
    rw [verifyBlockSignature_of_store env stored (by simp) (by simpa using nonzero), ← payload]
    exact verifies _ _ _ signs

end Attendance
