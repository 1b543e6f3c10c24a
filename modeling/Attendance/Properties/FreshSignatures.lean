import Attendance.Sample

/-!
# Fresh signatures

A signature is stored without its length, in an array filled up with zeros, and
`signature_length` takes all zeros at the end for filling. A signature whose own last byte
is zero loses it.
-/
namespace Attendance

/-! ### Signatures in DER form -/

/-- The content of a DER integer that is positive, the highest byte first: no sign bit, and
no more leading zeros than it takes to say so. -/
def IsDerPositive : List UInt8 → Prop
  | [] => False
  | [byte] => 0 < byte ∧ byte < 0x80
  | high :: next :: _ => high < 0x80 ∧ (high = 0 → 0x80 ≤ next)

instance decidablePredIsDerPositive : DecidablePred IsDerPositive
  | [] => inferInstanceAs (Decidable False)
  | [_] => inferInstanceAs (Decidable (_ ∧ _))
  | _ :: _ :: _ => inferInstanceAs (Decidable (_ ∧ _))

def derInteger (content : List UInt8) : List UInt8 :=
  0x02 :: UInt8.ofNat content.length :: content

/-- An ECDSA signature in DER form that fits a `signature` array: a sequence of the two
integers `r` and `s`. -/
structure DerSignature where
  r : List UInt8
  s : List UInt8
  positive_r : IsDerPositive r
  positive_s : IsDerPositive s
  fits : 6 + r.length + s.length ≤ signatureLen

def DerSignature.bytes (signature : DerSignature) : List UInt8 :=
  let body := derInteger signature.r ++ derInteger signature.s
  0x30 :: UInt8.ofNat body.length :: body

theorem DerSignature.length_bytes (signature : DerSignature) :
    signature.bytes.length = 6 + signature.r.length + signature.s.length := by
  simp only [bytes, derInteger, List.length_cons, List.length_append]
  omega

theorem DerSignature.bytes_ne_nil (signature : DerSignature) : signature.bytes ≠ [] :=
  List.cons_ne_nil _ _

/-- A signature ends with the lowest byte of `s`. -/
theorem DerSignature.getLast?_bytes (signature : DerSignature) :
    signature.bytes.getLast? = signature.s.getLast? := by
  have nonempty : signature.s ≠ [] := by
    intro empty
    have positive := signature.positive_s
    rw [empty] at positive
    exact positive
  obtain ⟨front, last, split⟩ := List.eq_nil_or_concat signature.s |>.resolve_left nonempty
  have shape : signature.bytes = 0x30 :: UInt8.ofNat
      (derInteger signature.r ++ derInteger signature.s).length ::
      (derInteger signature.r ++ 0x02 :: UInt8.ofNat signature.s.length :: front) ++ [last] := by
    simp only [bytes, derInteger, split, List.concat_eq_append, List.cons_append,
      List.append_assoc]
  rw [shape, split, List.concat_eq_append, List.getLast?_concat, List.getLast?_concat]

/-! ### Signing and verifying -/

/-- The block carries these bytes as its signature: their length is found again, and the
block verifies, also once mining has changed its nonce and its hash. -/
structure VerifiesFresh (env : Env) (signed : Block) (bytes : List UInt8) : Prop where
  recovered : signatureLength signed.signature.bytes signatureLen = bytes.length
  verifies : verifyBlockSignature env signed = true
  mined : ∀ nonce hash, verifyBlockSignature env { signed with nonce, hash } = true

/-- Whatever block is signed, and whatever signature the library returns and accepts, the
block verifies exactly if the signature does not end in a zero byte. -/
theorem fresh_signature_verifies_iff (env : Env) (world : World) (block signed : Block)
    (signature : DerSignature)
    (signs : env.digestSign world.calls (serializeBlockForSignature block) = some signature.bytes)
    (accepts : env.digestVerify signature.bytes (serializeBlockForSignature block) = true)
    (returned : (signBlock env world block).2 = some signed) :
    VerifiesFresh env signed signature.bytes ↔ signature.s.getLast? ≠ some 0 := by
  obtain ⟨short, rfl⟩ := signature_signBlock signs returned
  rw [← signature.getLast?_bytes]
  constructor
  · intro fresh
    exact (signatureLength_store_iff short).mp fresh.recovered
  · intro nonzero
    -- the payload leaves out all that signing and mining change
    have verifies {other : Block} (stored : other.signature = .store signature.bytes short)
        (payload : serializeBlockForSignature other = serializeBlockForSignature block) :
        verifyBlockSignature env other = true := by
      rw [verifyBlockSignature_of_store env stored signature.bytes_ne_nil nonzero, payload]
      exact accepts
    exact ⟨(signatureLength_store_iff short).mpr nonzero, verifies rfl rfl,
      fun _ _ => verifies rfl rfl⟩

/-- A signature with the given lowest byte of `s`. -/
def sampleSignature (lowest : UInt8) : DerSignature where
  r := List.replicate 32 0x11
  s := 0x22 :: List.replicate 30 0x22 ++ [lowest]
  positive_r := by decide
  positive_s := by simp [List.replicate_succ, IsDerPositive]
  fits := by simp [signatureLen]

/-- A library that always returns this signature and accepts no other. -/
def signatureEnv (signature : DerSignature) : Env :=
  { Sample.env with
    digestSign := fun _ _ => some signature.bytes
    digestVerify := fun bytes _ => bytes = signature.bytes }

/-- The genesis block with the signature stored in it. -/
def signedGenesis (signature : DerSignature) : Block :=
  { genesisFields 0 with
    signature := .store signature.bytes (signature.length_bytes.trans_le signature.fits) }

theorem signBlock_signatureEnv (signature : DerSignature) :
    (signBlock (signatureEnv signature) ⟨0, none⟩ (genesisFields 0)).2 =
      some (signedGenesis signature) := by
  have fits := length_serializeBlockForSignature (genesisFields 0)
  have short := signature.length_bytes.trans_le signature.fits
  simp only [signBlock, ge_iff_le, if_neg (Nat.not_le.mpr fits), signatureEnv, short, dite_true,
    signedGenesis]

theorem fresh_signature_verifies_iff_sample :
    VerifiesFresh (signatureEnv (sampleSignature 7)) (signedGenesis (sampleSignature 7))
      (sampleSignature 7).bytes ↔ (sampleSignature 7).s.getLast? ≠ some 0 :=
  fresh_signature_verifies_iff _ ⟨0, none⟩ (genesisFields 0) _ _ rfl (by simp [signatureEnv])
    (signBlock_signatureEnv _)

/-- The last byte of this signature is taken for filling, and the library is given one byte
too few. -/
theorem zero_ended_signature_rejected :
    let env := signatureEnv (sampleSignature 0)
    let payload := serializeBlockForSignature (genesisFields 0)
    env.digestSign 0 payload = some (sampleSignature 0).bytes ∧
    env.digestVerify (sampleSignature 0).bytes payload = true ∧
    (signBlock env ⟨0, none⟩ (genesisFields 0)).2 = some (signedGenesis (sampleSignature 0)) ∧
    signatureLength (signedGenesis (sampleSignature 0)).signature.bytes signatureLen = 69 ∧
    (sampleSignature 0).bytes.length = 70 ∧
    verifyBlockSignature env (signedGenesis (sampleSignature 0)) = false ∧
    ¬VerifiesFresh env (signedGenesis (sampleSignature 0)) (sampleSignature 0).bytes := by
  refine ⟨rfl, by simp [signatureEnv], signBlock_signatureEnv _, by decide, by decide,
    by decide, ?_⟩
  intro fresh
  exact absurd fresh.recovered (by decide)

end Attendance
