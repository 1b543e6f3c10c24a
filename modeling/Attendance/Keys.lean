import Attendance.Types

/-!
# Key files

The start of `crypto.c`: the key pair is loaded from its two files, or a new pair is made and
written to them. OpenSSL and the disk are parameters; each call to one of them is numbered.
-/
namespace Attendance

/-- How a rewrite of a key file ends: everything is written, `fopen` fails, or the file is left
with a part of the text. What `fclose` could not write goes unnoticed. -/
inductive KeyWrite where
  | complete
  | notOpened
  | cutAfter (count : Nat) (noticed : Bool)
deriving DecidableEq

/-- Private keys `κ` and public keys `π`, in OpenSSL and in PEM files. -/
structure KeyLibrary (κ π : Type) where
  /-- `EVP_EC_gen`. -/
  generate : Nat → Option κ
  /-- `EVP_PKEY_dup` finds memory. -/
  duplicates : Nat → Bool
  /-- The half of a key that verifies, all that is used of the duplicate. -/
  publicOf : κ → π
  privatePem : κ → List UInt8
  publicPem : π → List UInt8
  readPrivate : List UInt8 → Option κ
  readPublic : List UInt8 → Option π
  write : Nat → KeyWrite

/-- The number of outside calls made so far, and the files the program writes. -/
structure Disk where
  calls : Nat
  privateFile : Option (List UInt8)
  publicFile : Option (List UInt8)
  chainFile : Option (List UInt8)

def Disk.next (disk : Disk) : Disk := { disk with calls := disk.calls + 1 }

/-- The static variables; `NULL` is `none`. -/
structure Keys (κ π : Type) where
  privateKey : Option κ
  publicKey : Option π

variable {κ π : Type} (library : KeyLibrary κ π)

/-- `write_pem_key` of one file, with its contents before. -/
def writePemKey (calls : Nat) (pem : List UInt8) (file : Option (List UInt8)) :
    Bool × Option (List UInt8) :=
  match library.write calls with
  | .complete => (true, some pem)
  | .notOpened => (false, file)
  | .cutAfter count noticed => (!noticed, some (pem.take count))

/-- The second half of `load_or_create_keys`, where one of the files is missing. -/
def createKeys (disk : Disk) : Bool × Keys κ π × Disk :=
  match library.generate disk.calls with
  | none => (false, ⟨none, none⟩, disk.next)
  | some privateKey =>
    if library.duplicates disk.next.calls then
      let publicKey := library.publicOf privateKey
      let keys : Keys κ π := ⟨some privateKey, some publicKey⟩
      let disk := disk.next.next
      match writePemKey library disk.calls (library.privatePem privateKey) disk.privateFile with
      | (false, privateFile) => (false, keys, { disk.next with privateFile })
      | (true, privateFile) =>
        let disk := { disk.next with privateFile }
        let written :=
          writePemKey library disk.calls (library.publicPem publicKey) disk.publicFile
        (written.1, keys, { disk.next with publicFile := written.2 })
    else (false, ⟨some privateKey, none⟩, disk.next.next)

def loadOrCreateKeys (disk : Disk) : Bool × Keys κ π × Disk :=
  match disk.privateFile, disk.publicFile with
  | some privateFile, some publicFile =>
    let keys : Keys κ π := ⟨library.readPrivate privateFile, library.readPublic publicFile⟩
    -- files that cannot be read are left alone
    (keys.privateKey.isSome && keys.publicKey.isSome, keys, disk)
  | _, _ => createKeys library disk

def cryptoInitKeys (disk : Disk) : Bool × Keys κ π × Disk := loadOrCreateKeys library disk

/-! ### What a start can do -/

/-- A start that succeeds sets both keys. -/
theorem keys_of_cryptoInitKeys {disk disk' : Disk} {keys : Keys κ π}
    (unlocked : cryptoInitKeys library disk = (true, keys, disk')) :
    ∃ privateKey publicKey, keys = ⟨some privateKey, some publicKey⟩ := by
  unfold cryptoInitKeys loadOrCreateKeys createKeys at unlocked
  split at unlocked
  next privateFile publicFile _ _ =>
    simp only [Prod.mk.injEq, Bool.and_eq_true] at unlocked
    obtain ⟨⟨first, second⟩, rfl, _⟩ := unlocked
    obtain ⟨privateKey, first⟩ := Option.isSome_iff_exists.mp first
    obtain ⟨publicKey, second⟩ := Option.isSome_iff_exists.mp second
    exact ⟨privateKey, publicKey, by rw [first, second]⟩
  next =>
    split at unlocked
    · cases unlocked
    next privateKey _ =>
      split at unlocked
      · simp only at unlocked
        split at unlocked
        · cases unlocked
        · simp only [Prod.mk.injEq] at unlocked
          exact ⟨privateKey, _, unlocked.2.1.symm⟩
      · cases unlocked

/-- A file that was cut gives the key that was written, if it gives any. -/
structure KeyLibrary.ReadsBack : Prop where
  privateKey : ∀ key count, ∀ read ∈ library.readPrivate ((library.privatePem key).take count),
    read = key
  publicKey : ∀ key count, ∀ read ∈ library.readPublic ((library.publicPem key).take count),
    read = key

/-- Both files are there, and no other key can be read from them. -/
structure HoldsKey (key : κ) (disk : Disk) : Prop where
  privateFile : ∃ bytes, disk.privateFile = some bytes ∧
    ∀ read ∈ library.readPrivate bytes, read = key
  publicFile : ∃ bytes, disk.publicFile = some bytes ∧
    ∀ read ∈ library.readPublic bytes, read = library.publicOf key

variable {library} {disk : Disk}

/-- A file is left alone by a write that fails, or holds what was written up to somewhere. -/
private theorem writePemKey_cases (calls : Nat) (pem : List UInt8) (file : Option (List UInt8)) :
    writePemKey library calls pem file = (false, file) ∨
    ∃ ok count, writePemKey library calls pem file = (ok, some (pem.take count)) := by
  unfold writePemKey
  split
  next => exact Or.inr ⟨true, pem.length, by rw [List.take_length]⟩
  next => exact Or.inl rfl
  next count noticed _ => exact Or.inr ⟨!noticed, count, rfl⟩

/-- A start with both files changes nothing, and gives their keys if it succeeds. -/
theorem cryptoInitKeys_of_holdsKey {key : κ} (holds : HoldsKey library key disk) :
    (cryptoInitKeys library disk).2.2 = disk ∧
    ((cryptoInitKeys library disk).1 = true →
      (cryptoInitKeys library disk).2.1 = ⟨some key, some (library.publicOf key)⟩) := by
  obtain ⟨⟨bytes, privateFile, privateKey⟩, bytes', publicFile, publicKey⟩ := holds
  rw [cryptoInitKeys, loadOrCreateKeys, privateFile, publicFile]
  refine ⟨rfl, fun started => ?_⟩
  cases first : library.readPrivate bytes with
  | none => simp [first] at started
  | some read =>
    cases second : library.readPublic bytes' with
    | none => simp [second] at started
    | some read' =>
      simp only [first, second, privateKey read first, publicKey read' second]

theorem chainFile_cryptoInitKeys (library : KeyLibrary κ π) (disk : Disk) :
    (cryptoInitKeys library disk).2.2.chainFile = disk.chainFile := by
  unfold cryptoInitKeys loadOrCreateKeys createKeys
  split
  · rfl
  · split
    · rfl
    · split
      · simp only
        split <;> rfl
      · rfl

theorem calls_cryptoInitKeys (library : KeyLibrary κ π) (disk : Disk) :
    disk.calls ≤ (cryptoInitKeys library disk).2.2.calls := by
  unfold cryptoInitKeys loadOrCreateKeys createKeys
  split
  · exact Nat.le_refl _
  · split
    · exact Nat.le_succ _
    · split
      · simp only
        split <;> simp only [Disk.next] <;> omega
      · simp only [Disk.next]
        omega

/-- A start without a public file leaves it that way and fails, or leaves two files for the
key it made. -/
theorem cryptoInitKeys_of_no_publicFile (readsBack : library.ReadsBack)
    (missing : disk.publicFile = none) :
    ((cryptoInitKeys library disk).1 = false ∧
        (cryptoInitKeys library disk).2.2.publicFile = none) ∨
      ∃ key, HoldsKey library key (cryptoInitKeys library disk).2.2 ∧
        (cryptoInitKeys library disk).2.1 = ⟨some key, some (library.publicOf key)⟩ := by
  -- whatever the private key file holds, without a public key file a new pair is made
  have creates : cryptoInitKeys library disk = createKeys library disk := by
    rw [cryptoInitKeys, loadOrCreateKeys, missing]
    cases disk.privateFile <;> rfl
  rw [creates, createKeys]
  cases library.generate disk.calls with
  | none => exact Or.inl ⟨rfl, missing⟩
  | some key =>
    simp only
    split
    next =>
      rcases writePemKey_cases disk.next.next.calls (library.privatePem key)
          disk.next.next.privateFile with private' | ⟨ok, count, private'⟩
      · rw [private']
        exact Or.inl ⟨rfl, missing⟩
      · rw [private']
        cases ok with
        | false => exact Or.inl ⟨rfl, missing⟩
        | true =>
          -- the public key is written only after the private key
          have unwritten : disk.next.next.publicFile = none := missing
          simp only
          rcases writePemKey_cases disk.next.next.next.calls
              (library.publicPem (library.publicOf key)) disk.next.next.publicFile with
            public' | ⟨ok', count', public'⟩
          · simp only [Disk.next] at public' unwritten ⊢
            rw [public']
            exact Or.inl ⟨rfl, unwritten⟩
          · simp only [Disk.next] at public' ⊢
            rw [public']
            refine Or.inr ⟨key, ⟨⟨_, rfl, ?_⟩, _, rfl, ?_⟩, rfl⟩
            · exact readsBack.privateKey key count
            · exact readsBack.publicKey _ count'
    next => exact Or.inl ⟨rfl, missing⟩

end Attendance
