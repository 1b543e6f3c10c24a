import Attendance.Transactions

/-!
# The set of unspent outputs

The half of `ledger.c` that works on a `UTXOSet`.
-/
namespace Attendance

open CText MachineInt

def utxoAdd (set : UTXOSet) (txId : List Char) (outputIndex : Int32) (owner : List Char)
    (amount : Int32) : Bool × UTXOSet :=
  if room : set.entries.length < maxUtxos then
    (true, ⟨set.entries ++ [⟨.strncpy txId, outputIndex, .strncpy owner, amount, false⟩],
      by simpa [Nat.succ_le_iff] using room⟩)
  else (false, set)

/-- The amounts `utxo_balance` adds up. -/
def unspentAmounts (set : UTXOSet) (owner : List Char) : List Int32 :=
  (set.entries.filter (fun entry => !entry.spent && entry.owner.text = owner)).map UTXO.amount

def utxoBalance (set : UTXOSet) (owner : List Char) : Int32 :=
  (unspentAmounts set owner).foldl (fun total amount => total + amount) 0

/-- The loop that adds the outputs of a transaction, from index `i` on. It stops at
the first output that finds the set full and keeps those added before. -/
def addOutputs (set : UTXOSet) (txId : List Char) (i : Nat) : List TxOutput → Bool × UTXOSet
  | [] => (true, set)
  | output :: outputs =>
    match utxoAdd set txId (Int32.ofNat i) output.owner.text output.amount with
    | (false, set) => (false, set)
    | (true, set) => addOutputs set txId (i + 1) outputs

def utxoApplyReward (set : UTXOSet) (tx : Transaction) : Bool × UTXOSet :=
  if tx.outputs.length = 0 then (true, set) else addOutputs set tx.txId.text 0 tx.outputs

theorem utxoBalance_eq (set : UTXOSet) (owner : List Char) :
    utxoBalance set owner = (unspentAmounts set owner).sum :=
  List.sum_eq_foldl.symm

theorem unspentAmounts_concat {set longer : UTXOSet} {entry : UTXO}
    (appended : longer.entries = set.entries ++ [entry]) (unspent : entry.spent = false)
    (owner : List Char) :
    unspentAmounts longer owner =
      unspentAmounts set owner ++ if owner = entry.owner.text then [entry.amount] else [] := by
  by_cases same : entry.owner.text = owner
  · simp [unspentAmounts, appended, unspent, same]
  · simp [unspentAmounts, appended, unspent, same, Ne.symm same]

/-- The entry made from output `i` of a transaction. -/
def outputEntry (txId : List Char) (i : Nat) (output : TxOutput) : UTXO :=
  ⟨.strncpy txId, Int32.ofNat i, output.owner, output.amount, false⟩

/-- A transaction with one output adds one entry, or nothing when the set is full. -/
theorem utxoApplyReward_single (set : UTXOSet) {tx : Transaction} {output : TxOutput}
    (outputs : tx.outputs = [output]) :
    (set.entries.length < maxUtxos ∧ ∃ longer : UTXOSet,
      longer.entries = set.entries ++ [outputEntry tx.txId.text 0 output] ∧
      utxoApplyReward set tx = (true, longer)) ∨
    (set.entries.length = maxUtxos ∧ utxoApplyReward set tx = (false, set)) := by
  by_cases room : set.entries.length < maxUtxos
  · left
    exact ⟨room, ⟨_, by simpa [Nat.succ_le_iff] using room⟩, rfl, by
      simp [utxoApplyReward, outputs, addOutputs, utxoAdd, room, outputEntry]⟩
  · right
    have full := set.fits
    refine ⟨by omega, ?_⟩
    simp [utxoApplyReward, outputs, addOutputs, utxoAdd, room]

/-- `snprintf(ref, sizeof(ref), "%s:%d", tx_id, output_index)`. -/
def entryRef (entry : UTXO) : CStr (hashLen + 16) :=
  .strncpy (entry.txId.text ++ ':' :: signedDecimal entry.outputIndex.toInt)

/-- Marks the first unspent entry with the given reference. -/
def markFirst (utxoRef : List Char) : List UTXO → Bool × List UTXO
  | [] => (false, [])
  | entry :: entries =>
    if !entry.spent && (entryRef entry).text = utxoRef then
      (true, { entry with spent := true } :: entries)
    else
      let rest := markFirst utxoRef entries
      (rest.1, entry :: rest.2)

theorem length_markFirst (utxoRef : List Char) (entries : List UTXO) :
    (markFirst utxoRef entries).2.length = entries.length := by
  induction entries with
  | nil => rfl
  | cons entry entries ih => grind [markFirst]

def utxoMarkSpent (set : UTXOSet) (utxoRef : List Char) : Bool × UTXOSet :=
  ((markFirst utxoRef set.entries).1,
    ⟨(markFirst utxoRef set.entries).2, by rw [length_markFirst]; exact set.fits⟩)

/-- The loop that marks the inputs of a transfer; it stops at the first failure. -/
def markInputs (set : UTXOSet) : List TxInput → Bool × UTXOSet
  | [] => (true, set)
  | input :: inputs =>
    match utxoMarkSpent set input.utxoRef.text with
    | (false, set) => (false, set)
    | (true, set) => markInputs set inputs

/-- What the selection loop of `utxo_transfer` has gathered. -/
structure Selection where
  inputs : List TxInput := []
  selectedTotal : Int32 := 0
  overflow : Bool := false

/-- One more input. The reference is copied into its 65-byte field. -/
def Selection.add (selection : Selection) (sender : List Char) (entry : UTXO) : Selection where
  inputs := selection.inputs ++ [⟨.strncpy (entryRef entry).text, .strncpy sender, entry.amount⟩]
  selectedTotal := selection.selectedTotal + entry.amount
  overflow := selection.overflow || addOverflows selection.selectedTotal entry.amount

/-- The loop of `utxo_transfer` over the remaining entries. -/
def selectInputs (sender : List Char) (needed : Int32) : List UTXO → Selection → Selection
  | [], selection => selection
  | entry :: entries, selection =>
    if entry.spent || entry.owner.text ≠ sender then selectInputs sender needed entries selection
    -- one more input than fits ends the search
    else if selection.inputs.length ≥ maxTxInputs then selection
    else
      let selected := selection.add sender entry
      if needed ≤ selected.selectedTotal then selected
      else selectInputs sender needed entries selected

/-- The payment and, where inputs exceed what is needed, the change. -/
def transferOutputs (sender recipient : List Char) (amount selectedTotal needed : Int32) :
    List TxOutput :=
  if needed < selectedTotal then
    [⟨.strncpy recipient, amount⟩, ⟨.strncpy sender, selectedTotal - needed⟩]
  else [⟨.strncpy recipient, amount⟩]

/-- The `output_count >= MAX_TX_OUTPUTS` check of the source never fires: it is made
with one output in place. -/
def utxoTransfer (env : Env) (set : UTXOSet) (sender recipient : List Char) (amount : Int32) :
    Outcome UTXOSet :=
  let needed := amount + txFee
  let selection := selectInputs sender needed set.entries {}
  let overflow := addOverflows amount txFee || selection.overflow
  -- sixteen inputs may be too few for a sender who owns enough
  if selection.selectedTotal < needed then ⟨false, set, overflow⟩
  else
    let overflow := overflow || (decide (needed < selection.selectedTotal) &&
      subOverflows selection.selectedTotal needed)
    let tx : Transaction :=
      { inputs := selection.inputs
        outputs := transferOutputs sender recipient amount selection.selectedTotal needed
        fee := txFee }
    match computeTransactionId env tx with
    | none => ⟨false, set, overflow⟩
    | some txId =>
      match markInputs set tx.inputs with
      -- the inputs before the one that is not found stay spent
      | (false, set) => ⟨false, set, overflow⟩
      | (true, set) =>
        match addOutputs set txId.text 0 tx.outputs with
        | (added, set) => ⟨added, set, overflow⟩

/-! ### What the selection covers -/

/-- The amounts of the unspent entries of an owner, in order. -/
def ownedAmounts (entries : List UTXO) (owner : List Char) : List Int32 :=
  (entries.filter (fun entry => !entry.spent && entry.owner.text = owner)).map UTXO.amount

theorem unspentAmounts_eq (set : UTXOSet) (owner : List Char) :
    unspentAmounts set owner = ownedAmounts set.entries owner := rfl

/-- What the loop does with an entry: it passes over it, or it takes it while there is room. -/
theorem selectInputs_cons (sender : List Char) (needed : Int32) (entry : UTXO)
    (entries : List UTXO) (selection : Selection) :
    (ownedAmounts (entry :: entries) sender = ownedAmounts entries sender ∧
      selectInputs sender needed (entry :: entries) selection =
        selectInputs sender needed entries selection) ∨
    (ownedAmounts (entry :: entries) sender = entry.amount :: ownedAmounts entries sender ∧
      selectInputs sender needed (entry :: entries) selection =
        if selection.inputs.length ≥ maxTxInputs then selection
        else if needed ≤ (selection.add sender entry).selectedTotal then selection.add sender entry
        else selectInputs sender needed entries (selection.add sender entry)) := by
  rw [selectInputs]
  by_cases skipped : entry.spent || entry.owner.text ≠ sender
  · left
    rw [if_pos skipped, ownedAmounts, List.filter_cons_of_neg]
    · exact ⟨rfl, rfl⟩
    · simpa [or_iff_not_imp_left] using skipped
  · right
    rw [if_neg skipped, ownedAmounts, List.filter_cons_of_pos]
    · exact ⟨rfl, rfl⟩
    · simpa using skipped

/-- The induction over the loop has one case: an unspent entry of the sender is added. -/
theorem selectInputs_keeps {I : Selection → Prop} {sender : List Char} (needed : Int32)
    {entries : List UTXO} {selection : Selection} (initial : I selection)
    (added : ∀ selection, ∀ entry ∈ entries, entry.spent = false → entry.owner.text = sender →
      selection.inputs.length < maxTxInputs → I selection → I (selection.add sender entry)) :
    I (selectInputs sender needed entries selection) := by
  induction entries generalizing selection with
  | nil => exact initial
  | cons entry entries ih =>
    have later (selection : Selection) (other : UTXO) (member : other ∈ entries) :=
      added selection other (List.mem_cons_of_mem entry member)
    rw [selectInputs]
    split
    · exact ih initial later
    next taken =>
      simp only [ne_eq, Bool.or_eq_true, decide_eq_true_eq, not_or, Bool.not_eq_true,
        not_not] at taken
      split
      · exact initial
      next room =>
        have next := added selection entry List.mem_cons_self taken.1 taken.2
          (Nat.not_le.mp room) initial
        simp only
        split
        · exact next
        · exact ih next later

/-- The selection takes the first unspent entries of the sender, without overflow when they
fit in an `int` together. It stops short of what is needed only at the end of the set or
when all inputs are used. -/
theorem selectInputs_spec (sender : List Char) (needed : Int32) {entries : List UTXO}
    (selection : Selection) (few : selection.inputs.length ≤ maxTxInputs)
    (start : 0 ≤ selection.selectedTotal.toInt)
    (nonneg : ∀ amount ∈ ownedAmounts entries sender, 0 ≤ amount.toInt)
    (fits : InInt (selection.selectedTotal.toInt + exactSum (ownedAmounts entries sender))) :
    let room := maxTxInputs - selection.inputs.length
    let result := selectInputs sender needed entries selection
    ∃ taken ≤ room,
      result.selectedTotal.toInt = selection.selectedTotal.toInt +
        exactSum ((ownedAmounts entries sender).take taken) ∧
      result.overflow = selection.overflow ∧
      (result.selectedTotal < needed →
        (ownedAmounts entries sender).take taken = (ownedAmounts entries sender).take room) := by
  induction entries generalizing selection with
  | nil => exact ⟨0, Nat.zero_le _, by simp [selectInputs, ownedAmounts]⟩
  | cons entry entries ih =>
    rcases selectInputs_cons sender needed entry entries selection with
      ⟨same, passes⟩ | ⟨first, takes⟩
    · rw [same] at nonneg fits ⊢
      rw [passes]
      exact ih selection few start nonneg fits
    · rw [first] at nonneg fits ⊢
      rw [takes]
      rw [List.forall_mem_cons] at nonneg
      by_cases full : selection.inputs.length ≥ maxTxInputs
      · have room : maxTxInputs - selection.inputs.length = 0 := by omega
        rw [if_pos full]
        exact ⟨0, Nat.zero_le _, by simp [room]⟩
      · have value := nonneg.1
        have rest := exactSum_nonneg nonneg.2
        rw [exactSum_cons] at fits
        have inRange : addOverflows selection.selectedTotal entry.amount = false := by
          apply addOverflows_eq_false_iff.mpr
          obtain ⟨low, high⟩ := fits
          constructor <;> omega
        have total : (selection.add sender entry).selectedTotal.toInt =
            selection.selectedTotal.toInt + entry.amount.toInt := toInt_add_of_fits inRange
        have used : (selection.add sender entry).inputs.length = selection.inputs.length + 1 :=
          List.length_append
        have overflow : (selection.add sender entry).overflow = selection.overflow := by
          rw [Selection.add, inRange, Bool.or_false]
        obtain ⟨room, one⟩ : ∃ room, maxTxInputs - selection.inputs.length = room + 1 :=
          ⟨maxTxInputs - selection.inputs.length - 1, by omega⟩
        rw [if_neg full, one]
        split
        -- the entry that covers what is needed is the last one taken
        next covered =>
          refine ⟨1, by omega, by simp [total], overflow, ?_⟩
          intro less
          exact absurd (Int32.lt_of_lt_of_le less covered) Int32.lt_irrefl
        next =>
          have few' : (selection.add sender entry).inputs.length ≤ maxTxInputs := by omega
          have start' : 0 ≤ (selection.add sender entry).selectedTotal.toInt := by omega
          obtain ⟨taken, within, sum, same, stopped⟩ :=
            ih (selection.add sender entry) few' start' nonneg.2 (by rwa [total, Int.add_assoc])
          have left : maxTxInputs - (selection.add sender entry).inputs.length = room := by omega
          rw [left] at within stopped
          refine ⟨taken + 1, by omega, ?_, same.trans overflow, ?_⟩
          · rw [sum, total, List.take_succ_cons, exactSum_cons, Int.add_assoc]
          · intro less
            rw [List.take_succ_cons, List.take_succ_cons, stopped less]

/-- The selection of a transfer falls short of what is needed exactly if the first sixteen
unspent entries of the sender do. -/
theorem selectedTotal_lt_iff {set : UTXOSet} {sender : List Char} (needed : Int32)
    (nonneg : ∀ amount ∈ unspentAmounts set sender, 0 ≤ amount.toInt)
    (fits : InInt (exactSum (unspentAmounts set sender))) :
    (selectInputs sender needed set.entries {}).selectedTotal < needed ↔
      exactSum ((unspentAmounts set sender).take maxTxInputs) < needed.toInt := by
  rw [unspentAmounts_eq] at *
  obtain ⟨taken, within, sum, _, stopped⟩ := selectInputs_spec sender needed {}
    (Nat.zero_le _) (Int.le_refl 0) nonneg (by simpa using fits)
  simp only [Int32.toInt_zero, Int.zero_add, List.length_nil, Nat.sub_zero] at within sum stopped
  rw [Int32.lt_iff_toInt_lt, sum]
  constructor
  · intro less
    rwa [← stopped (by rwa [Int32.lt_iff_toInt_lt, sum])]
  · intro less
    have fewer : ((ownedAmounts set.entries sender).take taken).Sublist
        ((ownedAmounts set.entries sender).take maxTxInputs) :=
      (List.take_sublist_take_left within)
    have below := exactSum_le_of_sublist fewer
      (fun amount member => nonneg amount (List.mem_of_mem_take member))
    omega

/-! ### Why transfers fail

The 65-byte `utxo_ref` of an input cuts off the index behind an id of 64 characters,
so that no entry matches it. -/

/-- An entry has an id of 64 characters, or neither an id nor an amount. -/
def UTXO.Identified (entry : UTXO) : Prop :=
  entry.txId.text.length = 64 ∨ entry.txId.text = [] ∧ entry.amount = 0

/-- Nothing has changed, except that worthless entries may have been spent. -/
def SpentWorthless (before after : List UTXO) : Prop :=
  List.Forall₂ (fun old new => new = old ∨ old.amount = 0 ∧ new = { old with spent := true })
    before after

theorem SpentWorthless.refl (entries : List UTXO) : SpentWorthless entries entries :=
  List.forall₂_same.mpr fun _ _ => Or.inl rfl

theorem SpentWorthless.trans {first second third : List UTXO}
    (one : SpentWorthless first second) (two : SpentWorthless second third) :
    SpentWorthless first third := by
  induction one generalizing third with
  | nil =>
    cases two
    exact .nil
  | cons head _ ih =>
    cases two with
    | cons head' tail' =>
      refine .cons ?_ (ih tail')
      rcases head with rfl | ⟨worthless, rfl⟩
      · exact head'
      · rcases head' with rfl | ⟨_, rfl⟩ <;> exact Or.inr ⟨worthless, rfl⟩

/-- What does not depend on the mark holds of all entries after as before. -/
theorem SpentWorthless.forall_mem {before after : List UTXO} {p : UTXO → Prop}
    (spent : SpentWorthless before after)
    (keeps : ∀ entry, p entry → p { entry with spent := true })
    (all : ∀ entry ∈ before, p entry) : ∀ entry ∈ after, p entry := by
  induction spent with
  | nil => simp
  | cons head _ ih =>
    rw [List.forall_mem_cons] at all ⊢
    refine ⟨?_, ih all.2⟩
    rcases head with rfl | ⟨_, rfl⟩
    · exact all.1
    · exact keeps _ all.1

theorem SpentWorthless.identified {before after : List UTXO}
    (spent : SpentWorthless before after) (identified : ∀ entry ∈ before, entry.Identified) :
    ∀ entry ∈ after, entry.Identified :=
  spent.forall_mem (fun _ => id) identified

theorem length_entryRef (entry : UTXO) :
    (entryRef entry).text.length =
      entry.txId.text.length + 1 + (signedDecimal entry.outputIndex.toInt).length := by
  have id : entry.txId.text.length < 65 := entry.txId.fits
  have digits := length_signedDecimal_int32 entry.outputIndex
  rw [entryRef, CStr.text_strncpy]
  · simp only [List.length_append, List.length_cons]
    omega
  · simp only [List.length_append, List.length_cons, hashLen]
    omega

/-- An input of an entry with an id of 64 characters refers to it by the id alone. -/
theorem length_strncpy_entryRef {entry : UTXO} (long : entry.txId.text.length = 64) :
    (CStr.strncpy (entryRef entry).text : CStr hashLen).text.length = 64 := by
  have length := length_entryRef entry
  simp only [CStr.strncpy, List.length_take, hashLen]
  omega

/-- A reference of at most 64 characters does not match an entry with an id. -/
private theorem worthless_of_entryRef {entry : UTXO} {utxoRef : List Char}
    (identified : entry.Identified) (short : utxoRef.length ≤ 64)
    (matches' : (entryRef entry).text = utxoRef) : entry.amount = 0 ∧ utxoRef.length < 64 := by
  have length := length_entryRef entry
  have digits := length_signedDecimal_int32 entry.outputIndex
  have positive := length_signedDecimal_pos entry.outputIndex.toInt
  rw [matches'] at length
  -- behind an id of 64 characters the reference has at least two more
  rcases identified with long | ⟨empty, worthless⟩
  · omega
  · rw [empty, List.length_nil] at length
    exact ⟨worthless, by omega⟩

private theorem markFirst_spentWorthless {entries : List UTXO} {utxoRef : List Char}
    (identified : ∀ entry ∈ entries, entry.Identified) (short : utxoRef.length ≤ 64) :
    SpentWorthless entries (markFirst utxoRef entries).2 ∧
    (utxoRef.length = 64 → (markFirst utxoRef entries).1 = false) := by
  induction entries with
  | nil => exact ⟨.nil, fun _ => rfl⟩
  | cons entry entries ih =>
    rw [List.forall_mem_cons] at identified
    rw [markFirst]
    split
    next found =>
      simp only [Bool.and_eq_true, decide_eq_true_eq] at found
      obtain ⟨worthless, shorter⟩ := worthless_of_entryRef identified.1 short found.2
      exact ⟨.cons (Or.inr ⟨worthless, rfl⟩) (SpentWorthless.refl entries), fun long => by omega⟩
    next =>
      obtain ⟨rest, fails⟩ := ih identified.2
      exact ⟨.cons (Or.inl rfl) rest, fails⟩

private theorem markInputs_spentWorthless {set : UTXOSet} (inputs : List TxInput)
    (identified : ∀ entry ∈ set.entries, entry.Identified) :
    SpentWorthless set.entries (markInputs set inputs).2.entries ∧
    ((∃ input ∈ inputs, input.utxoRef.text.length = 64) → (markInputs set inputs).1 = false) := by
  induction inputs generalizing set with
  | nil => exact ⟨.refl _, by simp⟩
  | cons input inputs ih =>
    have short : input.utxoRef.text.length ≤ 64 := Nat.le_of_lt_succ input.utxoRef.fits
    obtain ⟨spent, fails⟩ := markFirst_spentWorthless identified short
    rw [markInputs]
    cases marked : utxoMarkSpent set input.utxoRef.text with
    | mk ok set' =>
      have state : (markFirst input.utxoRef.text set.entries).2 = set'.entries :=
        congrArg (fun result => result.2.entries) marked
      have result : (markFirst input.utxoRef.text set.entries).1 = ok :=
        congrArg Prod.fst marked
      rw [state] at spent
      rw [result] at fails
      cases ok with
      | false => exact ⟨spent, fun _ => rfl⟩
      | true =>
        obtain ⟨rest, restFails⟩ := ih (spent.identified identified)
        refine ⟨spent.trans rest, ?_⟩
        rintro ⟨candidate, member, long⟩
        -- one input that is not found fails the transfer
        rcases List.mem_cons.mp member with rfl | later
        · cases fails long
        · exact restFails ⟨candidate, later, long⟩

/-- What is gathered is worth nothing, or contains an input no entry will match. -/
private theorem selectInputs_long (sender : List Char) (needed : Int32) {entries : List UTXO}
    {selection : Selection} (identified : ∀ entry ∈ entries, entry.Identified)
    (gathered : (∃ input ∈ selection.inputs, input.utxoRef.text.length = 64) ∨
      selection.selectedTotal = 0) :
    (∃ input ∈ (selectInputs sender needed entries selection).inputs,
      input.utxoRef.text.length = 64) ∨
    (selectInputs sender needed entries selection).selectedTotal = 0 := by
  refine selectInputs_keeps (I := fun selection =>
    (∃ input ∈ selection.inputs, input.utxoRef.text.length = 64) ∨
      selection.selectedTotal = 0) needed gathered ?_
  intro selection entry member _ _ _ gathered
  -- a new input is long when its entry has an id, and worthless otherwise
  rcases gathered with ⟨input, taken, long⟩ | worthless
  · exact Or.inl ⟨input, List.mem_append_left _ taken, long⟩
  · rcases identified entry member with long | ⟨_, nothing⟩
    · exact Or.inl ⟨_, List.mem_append_right _ List.mem_cons_self, length_strncpy_entryRef long⟩
    · right
      rw [Selection.add, worthless, nothing, add_zero]

theorem fits_of_utxoTransfer {env : Env} {set : UTXOSet} {sender recipient : List Char}
    {amount : Int32} (inRange : (utxoTransfer env set sender recipient amount).overflow = false) :
    addOverflows amount txFee = false := by
  revert inRange
  simp only [utxoTransfer]
  split
  · simp +contextual
  · split
    · simp +contextual
    · split <;> simp +contextual

/-- A transfer fails, and spends at most worthless entries. -/
theorem utxoTransfer_fails (env : Env) {set : UTXOSet} (sender recipient : List Char)
    {amount : Int32} (identified : ∀ entry ∈ set.entries, entry.Identified)
    (positive : 0 < amount) (fits : addOverflows amount txFee = false) :
    (utxoTransfer env set sender recipient amount).ok = false ∧
    SpentWorthless set.entries (utxoTransfer env set sender recipient amount).state.entries := by
  have needed : 0 < (amount + txFee).toInt := by
    rw [toInt_add_of_fits fits]
    have one : (txFee : Int32).toInt = 1 := rfl
    have value : (0 : Int) < amount.toInt := Int32.lt_iff_toInt_lt.mp positive
    omega
  simp only [utxoTransfer]
  split
  · exact ⟨rfl, SpentWorthless.refl _⟩
  next covered =>
    split
    · exact ⟨rfl, SpentWorthless.refl _⟩
    next txId _ =>
      have gathered := selectInputs_long sender (amount + txFee) identified
        (Or.inr rfl : _ ∨ ({} : Selection).selectedTotal = 0)
      generalize selectInputs sender (amount + txFee) set.entries {} = selection at *
      -- the inputs cover a positive amount, so one of them has an id
      have long : ∃ input ∈ selection.inputs, input.utxoRef.text.length = 64 := by
        refine gathered.resolve_right (fun nothing => covered ?_)
        rw [nothing, Int32.lt_iff_toInt_lt]
        exact needed
      obtain ⟨spent, fails⟩ := markInputs_spentWorthless selection.inputs identified
      have failed := fails long
      cases marked : markInputs set selection.inputs with
      | mk ok set' =>
        rw [marked] at spent failed
        obtain rfl : ok = false := failed
        exact ⟨rfl, spent⟩

/-! ### Sets of whole ids

Where every entry has its id, as rewards give it, the first input of a transfer is not found
again, so that nothing is spent. Only a selection without inputs gets further, and it covers
nothing but a sum that wrapped around. -/

/-- Every entry has an id of 64 characters. -/
def UTXOSet.Whole (set : UTXOSet) : Prop :=
  ∀ entry ∈ set.entries, entry.txId.text.length = 64

private theorem markFirst_of_whole {entries : List UTXO} {utxoRef : List Char}
    (whole : ∀ entry ∈ entries, entry.txId.text.length = 64) (short : utxoRef.length ≤ 64) :
    markFirst utxoRef entries = (false, entries) := by
  induction entries with
  | nil => rfl
  | cons entry entries ih =>
    rw [List.forall_mem_cons] at whole
    have longer : (entryRef entry).text ≠ utxoRef := by
      intro same
      have length := length_entryRef entry
      rw [same] at length
      omega
    simp [markFirst, longer, ih whole.2]

private theorem markInputs_of_whole {set : UTXOSet} (whole : set.Whole) {inputs : List TxInput}
    (some_input : inputs ≠ []) : markInputs set inputs = (false, set) := by
  cases inputs with
  | nil => exact absurd rfl some_input
  | cons input inputs =>
    have short : input.utxoRef.text.length ≤ 64 := Nat.le_of_lt_succ input.utxoRef.fits
    have nothing := markFirst_of_whole whole short
    have marked : utxoMarkSpent set input.utxoRef.text = (false, set) := by
      simp [utxoMarkSpent, nothing]
    rw [markInputs, marked]

/-- The selection only grows. -/
private theorem inputs_selectInputs (sender : List Char) (needed : Int32) (entries : List UTXO)
    (selection : Selection) :
    selection.inputs <+: (selectInputs sender needed entries selection).inputs := by
  induction entries generalizing selection with
  | nil => exact List.prefix_rfl
  | cons entry entries ih =>
    have grown : selection.inputs <+: (selection.add sender entry).inputs :=
      List.prefix_append _ _
    rcases selectInputs_cons sender needed entry entries selection with ⟨_, passes⟩ | ⟨_, takes⟩
    · rw [passes]
      exact ih selection
    · rw [takes]
      split_ifs
      · exact List.prefix_rfl
      · exact grown
      · exact grown.trans (ih _)

/-- Nothing is selected for a sender who owns nothing, and for nobody else. -/
private theorem selectInputs_empty (sender : List Char) (needed : Int32) (entries : List UTXO) :
    (ownedAmounts entries sender = [] → selectInputs sender needed entries {} = {}) ∧
    (ownedAmounts entries sender ≠ [] → (selectInputs sender needed entries {}).inputs ≠ []) := by
  induction entries with
  | nil => exact ⟨fun _ => rfl, fun owned => absurd rfl owned⟩
  | cons entry entries ih =>
    rcases selectInputs_cons sender needed entry entries {} with ⟨same, passes⟩ | ⟨owned, takes⟩
    · rw [same, passes]
      exact ih
    · refine ⟨fun nothing => ?_, fun _ none_taken => ?_⟩
      · rw [owned] at nothing
        cases nothing
      · rw [takes, if_neg (by simp)] at none_taken
        have taken : (Selection.add {} sender entry).inputs ≠ [] := List.cons_ne_nil _ _
        split at none_taken
        · exact taken none_taken
        · have more := inputs_selectInputs sender needed entries (Selection.add {} sender entry)
          rw [none_taken] at more
          exact taken (List.prefix_nil.mp more)

/-- Without any input of the sender the two outputs of a sum that wrapped around are added,
as far as there is room. -/
theorem utxoTransfer_of_whole (env : Env) {set : UTXOSet} (whole : set.Whole)
    (sender recipient : List Char) (amount : Int32) :
    let result := utxoTransfer env set sender recipient amount
    (result.ok = false ∧ result.state = set ∧
      (unspentAmounts set sender ≠ [] ∨ 0 < amount + txFee)) ∨
    (unspentAmounts set sender = [] ∧ ¬0 < amount + txFee ∧ ∃ txId : CStr hashLen,
      txId.text.length = 64 ∧
      let outputs := transferOutputs sender recipient amount 0 (amount + txFee)
      result.ok = (addOutputs set txId.text 0 outputs).1 ∧
        result.state = (addOutputs set txId.text 0 outputs).2) := by
  intro result
  obtain ⟨nothing, something⟩ := selectInputs_empty sender (amount + txFee) set.entries
  simp only [result, utxoTransfer]
  by_cases owned : unspentAmounts set sender = []
  · rw [nothing owned]
    by_cases positive : 0 < amount + txFee
    -- nothing is owned, and nothing does not cover a positive amount
    · left
      rw [if_pos positive]
      exact ⟨rfl, rfl, Or.inr positive⟩
    · right
      have few : (transferOutputs sender recipient amount 0 (amount + txFee)).length < 10 := by
        unfold transferOutputs
        split <;> simp
      rw [if_neg positive, computeTransactionId_of_few env rfl few]
      generalize transactionText _ = text
      exact ⟨owned, positive, sha256Hex env text, length_sha256Hex env text, rfl, rfl⟩
  · left
    -- some output is selected, whose cut reference marks none as spent
    have failed := markInputs_of_whole whole (something owned)
    split
    · exact ⟨rfl, rfl, Or.inl owned⟩
    · split
      · exact ⟨rfl, rfl, Or.inl owned⟩
      · simp [failed, owned]

theorem txId_of_mem_addOutputs {set : UTXOSet} {txId : List Char} {i : Nat}
    {outputs : List TxOutput} {entry : UTXO}
    (member : entry ∈ (addOutputs set txId i outputs).2.entries) :
    entry ∈ set.entries ∨ entry.txId = .strncpy txId := by
  induction outputs generalizing set i with
  | nil => exact Or.inl member
  | cons output outputs ih =>
    rw [addOutputs, utxoAdd] at member
    split at member
    next full =>
      split at full
      · cases full
      · cases full
        exact Or.inl member
    next added =>
      split at added
      · cases added
        rcases ih member with old | new
        · rcases List.mem_append.mp old with old | here
          · exact Or.inl old
          · rw [List.mem_singleton.mp here]
            exact Or.inr rfl
        · exact Or.inr new
      · cases added

/-- Transfers keep ids whole. -/
theorem whole_utxoTransfer (env : Env) {set : UTXOSet} (whole : set.Whole)
    (sender recipient : List Char) (amount : Int32) :
    (utxoTransfer env set sender recipient amount).state.Whole := by
  rcases utxoTransfer_of_whole env whole sender recipient amount with
    ⟨_, same, _⟩ | ⟨_, _, txId, long, _, added⟩
  · rwa [same]
  · intro entry member
    rw [added] at member
    rcases txId_of_mem_addOutputs member with old | new
    · exact whole entry old
    · rw [new, CStr.strncpy_text, long]

/-- Two outputs are added by halves exactly if there is room for one. -/
private theorem addOutputs_two (set : UTXOSet) (txId : List Char) (first second : TxOutput) :
    ((addOutputs set txId 0 [first, second]).1 = false →
      (addOutputs set txId 0 [first, second]).2 = set) ↔ set.entries.length + 1 ≠ maxUtxos := by
  have fits := set.fits
  simp only [addOutputs, utxoAdd]
  by_cases room : set.entries.length < maxUtxos
  · by_cases more : set.entries.length + 1 < maxUtxos
    · simp [room, more]
      omega
    · simp [room, more, UTXOSet.ext_iff]
      omega
  · simp [room]
    omega

/-- Only the largest amount leaves no room for the fee. -/
theorem fits_fee_iff {amount : Int32} (positive : 0 < amount) :
    addOverflows amount txFee = false ↔ amount.toInt < 2147483647 := by
  have value := Int32.lt_iff_toInt_lt.mp positive
  have one : (txFee : Int32).toInt = 1 := rfl
  rw [Int32.toInt_zero] at value
  rw [addOverflows_eq_false_iff, InInt, one]
  omega

/-- A refused transfer leaves a set of whole ids alone, except in one case. -/
theorem utxoTransfer_refused_iff (env : Env) {set : UTXOSet} (whole : set.Whole)
    (sender recipient : List Char) {amount : Int32} (positive : 0 < amount) :
    ((utxoTransfer env set sender recipient amount).ok = false →
      (utxoTransfer env set sender recipient amount).state = set) ↔
    ¬(addOverflows amount txFee = true ∧ unspentAmounts set sender = [] ∧
      set.entries.length + 1 = maxUtxos) := by
  have fits_iff := fits_fee_iff positive
  -- only the largest amount overflows, and its sum with the fee is negative
  have negative : addOverflows amount txFee = true → amount + txFee < 0 := by
    intro overflow
    have high := amount.toInt_lt
    have last : amount = 2147483647 := by
      have largest : (2147483647 : Int32).toInt = 2147483647 := rfl
      rw [← Int32.toInt_inj, largest]
      simp only [overflow, Bool.true_eq_false, false_iff] at fits_iff
      omega
    subst last
    decide
  have wraps : addOverflows amount txFee = true ↔ ¬0 < amount + txFee := by
    refine ⟨fun overflow => Int32.not_lt.mpr (Int32.le_of_lt (negative overflow)), ?_⟩
    intro low
    by_contra fits
    rw [Bool.not_eq_true] at fits
    have value : (0 : Int) < amount.toInt := Int32.lt_iff_toInt_lt.mp positive
    have one : (txFee : Int32).toInt = 1 := rfl
    rw [Int32.lt_iff_toInt_lt, toInt_add_of_fits fits, Int32.toInt_zero] at low
    omega
  rcases utxoTransfer_of_whole env whole sender recipient amount with
    ⟨_, same, kept⟩ | ⟨nothing, wrapped, txId, _, ok, added⟩
  · refine iff_of_true (fun _ => same) ?_
    rintro ⟨wrapped, nothing, _⟩
    exact kept.elim (fun owned => owned nothing) (wraps.mp wrapped)
  -- nothing is more than a negative amount, so there is also an output for the change
  · have two : transferOutputs sender recipient amount 0 (amount + txFee) =
        [⟨.strncpy recipient, amount⟩, ⟨.strncpy sender, 0 - (amount + txFee)⟩] := by
      rw [transferOutputs, if_pos (negative (wraps.mpr wrapped))]
    rw [two] at ok added
    rw [ok, added, addOutputs_two]
    simp [wraps.mpr wrapped, nothing]

end Attendance
