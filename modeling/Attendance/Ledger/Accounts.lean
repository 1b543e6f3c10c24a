import Attendance.Foundation.Table
import Attendance.Transactions

/-!
# The account table

The half of `ledger.c` that works on an `AccountLedger`. Rows are looked up by id
and created on demand; a pointer to a row is its position.
-/
namespace Attendance

open CText MachineInt

/-- The text `strcmp` compares. -/
abbrev Account.key (account : Account) : List Char := account.studentId.text

/-- The row a pointer points at. -/
def AccountLedger.row (ledger : AccountLedger) (i : Nat) : Account :=
  ledger.accounts.getD i { studentId := .empty }

def AccountLedger.modifyRow (ledger : AccountLedger) (i : Nat) (f : Account → Account) :
    AccountLedger :=
  ⟨ledger.accounts.modify i f, by simpa using ledger.fits⟩

@[simp] theorem accounts_modifyRow (ledger : AccountLedger) (i : Nat) (f : Account → Account) :
    (ledger.modifyRow i f).accounts = ledger.accounts.modify i f := rfl

/-- The table, possibly with a new row, and the row found; `none` is `NULL`. -/
def findOrCreateAccount (ledger : AccountLedger) (studentId : List Char) :
    AccountLedger × Option Nat :=
  match Table.position Account.key studentId ledger.accounts with
  | some i => (ledger, some i)
  | none =>
    -- a new row has balance and nonce zero and no history
    if room : ledger.accounts.length < maxStudents then
      (⟨ledger.accounts ++ [{ studentId := .strncpy studentId }],
          by simpa [Nat.succ_le_iff] using room⟩,
        some ledger.accounts.length)
    else (ledger, none)

/-- The first row with this id. -/
def AccountLedger.find (ledger : AccountLedger) (studentId : List Char) : Option Account :=
  Table.lookup Account.key studentId ledger.accounts

/-- The balance `ledger_balance` reads in the account model. -/
def AccountLedger.balanceOf (ledger : AccountLedger) (studentId : List Char) : Int32 :=
  ((ledger.find studentId).map Account.balance).getD 0

/-- The nonce of the first row with this id. -/
def AccountLedger.nonceOf (ledger : AccountLedger) (studentId : List Char) : Int32 :=
  ((ledger.find studentId).map Account.nonce).getD 0

/-- The new node goes to the front of the list. -/
def accountAppendHistory (account : Account) (sender recipient : List Char)
    (amount fee nonce : Int32) : Account :=
  { account with
    history := ⟨.strncpy sender, .strncpy recipient, amount, fee, nonce⟩ :: account.history }

/-- Adds `amount` to a balance and records it as coming from `source`. -/
def creditAccount (account : Account) (source owner : List Char) (amount fee : Int32) : Account :=
  accountAppendHistory { account with balance := account.balance + amount }
    source owner amount fee account.nonce

/-- The loop of `account_apply_reward` over the remaining outputs. -/
def applyRewardOutputs (ledger : AccountLedger) (fee : Int32) :
    List TxOutput → Outcome AccountLedger
  | [] => ⟨true, ledger, false⟩
  | output :: outputs =>
    match findOrCreateAccount ledger output.owner.text with
    -- the outputs before this one stay credited
    | (ledger, none) => ⟨false, ledger, false⟩
    | (ledger, some i) =>
      let rest := applyRewardOutputs
        (ledger.modifyRow i (creditAccount · "SYSTEM".toList output.owner.text output.amount fee))
        fee outputs
      ⟨rest.ok, rest.state,
        addOverflows (ledger.row i).balance output.amount || rest.overflow⟩

def accountApplyReward (ledger : AccountLedger) (tx : Transaction) : Outcome AccountLedger :=
  applyRewardOutputs ledger tx.fee tx.outputs

/-- The first of the five assignments of an accepted transfer. -/
def debitSender (ledger : AccountLedger) (senderRow : Nat) (amount : Int32) : AccountLedger :=
  ledger.modifyRow senderRow
    (fun account => { account with balance := account.balance - (amount + txFee) })

/-- The five assignments of an accepted transfer; the two rows may be the same. -/
def postTransfer (ledger : AccountLedger) (senderRow recipientRow : Nat)
    (sender recipient : List Char) (amount nonce : Int32) : AccountLedger :=
  let credited := (debitSender ledger senderRow amount).modifyRow recipientRow
    (fun account => { account with balance := account.balance + amount })
  let noted := credited.modifyRow senderRow
    (accountAppendHistory · sender recipient amount txFee nonce)
  let notedTwice := noted.modifyRow recipientRow
    (accountAppendHistory · sender recipient amount txFee nonce)
  notedTwice.modifyRow senderRow (fun account => { account with nonce := account.nonce + 1 })

/-- Some assignment of `postTransfer` leaves the range of `int`. -/
def postOverflows (ledger : AccountLedger) (senderRow recipientRow : Nat) (amount : Int32) :
    Bool :=
  subOverflows (ledger.row senderRow).balance (amount + txFee) ||
    addOverflows ((debitSender ledger senderRow amount).row recipientRow).balance amount ||
    addOverflows (ledger.row senderRow).nonce 1

def accountTransfer (ledger : AccountLedger) (sender recipient : List Char)
    (amount nonce : Int32) : Outcome AccountLedger :=
  let totalDebit := amount + txFee
  let overflow := addOverflows amount txFee
  -- both lookups are made, and may add a row, before either result is looked at
  match findOrCreateAccount ledger sender with
  | (ledger, senderRow) =>
    match findOrCreateAccount ledger recipient with
    | (ledger, recipientRow) =>
      match senderRow, recipientRow with
      | some senderRow, some recipientRow =>
        -- a wrong nonce is refused before the balance is looked at
        if nonce ≠ (ledger.row senderRow).nonce then ⟨false, ledger, overflow⟩
        else if (ledger.row senderRow).balance < totalDebit then ⟨false, ledger, overflow⟩
        else
          ⟨true, postTransfer ledger senderRow recipientRow sender recipient amount nonce,
            overflow || postOverflows ledger senderRow recipientRow amount⟩
      | _, _ => ⟨false, ledger, overflow⟩

/-! ### Lookups -/

/-- The row `find_or_create_account` adds. -/
def newAccount (studentId : List Char) : Account := { studentId := .strncpy studentId }

/-- What a lookup does: it finds a row, adds one, or fails on a full table. -/
theorem findOrCreateAccount_cases (ledger : AccountLedger) (studentId : List Char) :
    (∃ i, Table.position Account.key studentId ledger.accounts = some i ∧
      findOrCreateAccount ledger studentId = (ledger, some i)) ∨
    (Table.position Account.key studentId ledger.accounts = none ∧
      ∃ longer : AccountLedger, longer.accounts = ledger.accounts ++ [newAccount studentId] ∧
        findOrCreateAccount ledger studentId = (longer, some ledger.accounts.length)) ∨
    (Table.position Account.key studentId ledger.accounts = none ∧
      ledger.accounts.length = maxStudents ∧
      findOrCreateAccount ledger studentId = (ledger, none)) := by
  unfold findOrCreateAccount
  cases found : Table.position Account.key studentId ledger.accounts with
  | some i => simp
  | none =>
    by_cases room : ledger.accounts.length < maxStudents
    · simp [room, newAccount]
    · have full := ledger.fits
      simp [room]
      omega

/-- An id that has a row is found, and nothing changes. -/
theorem findOrCreateAccount_of_position {ledger : AccountLedger} {studentId : List Char} {i : Nat}
    (found : Table.position Account.key studentId ledger.accounts = some i) :
    findOrCreateAccount ledger studentId = (ledger, some i) := by
  rw [findOrCreateAccount, found]

/-- The row found is one that was there, or a new one at the end. -/
theorem findOrCreateAccount_some {ledger ledger' : AccountLedger} {studentId : List Char} {i : Nat}
    (returned : findOrCreateAccount ledger studentId = (ledger', some i)) :
    (Table.position Account.key studentId ledger.accounts = some i ∧ ledger' = ledger) ∨
    (Table.position Account.key studentId ledger.accounts = none ∧
      ledger'.accounts = ledger.accounts ++ [newAccount studentId] ∧
      i = ledger.accounts.length) := by
  rcases findOrCreateAccount_cases ledger studentId with
    ⟨j, found, result⟩ | ⟨absent, longer, rows, result⟩ | ⟨_, _, result⟩
  · rw [result] at returned
    cases returned
    exact Or.inl ⟨found, rfl⟩
  · rw [result] at returned
    cases returned
    exact Or.inr ⟨absent, rows, rfl⟩
  · rw [result] at returned
    cases returned

/-- The induction over lookups has one case: a row is added for an id that has none. -/
theorem findOrCreateAccount_keeps {I : AccountLedger → Prop} {ledger : AccountLedger}
    {studentId : List Char} (initial : I ledger)
    (added : ∀ longer : AccountLedger,
      Table.position Account.key studentId ledger.accounts = none →
      longer.accounts = ledger.accounts ++ [newAccount studentId] → I longer) :
    I (findOrCreateAccount ledger studentId).1 := by
  rcases findOrCreateAccount_cases ledger studentId with
    ⟨i, _, result⟩ | ⟨absent, longer, rows, result⟩ | ⟨_, _, result⟩
  · rwa [result]
  · rw [result]
    exact added longer absent rows
  · rwa [result]

/-- A lookup that fails leaves the table alone. -/
theorem findOrCreateAccount_none {ledger accounts : AccountLedger} {studentId : List Char}
    (result : findOrCreateAccount ledger studentId = (accounts, none)) : accounts = ledger := by
  rcases findOrCreateAccount_cases ledger studentId with
    ⟨i, _, other⟩ | ⟨_, longer, _, other⟩ | ⟨_, _, other⟩
  · rw [other] at result
    cases result
  · rw [other] at result
    cases result
  · rw [other] at result
    cases result
    rfl

/-- A lookup adds rows at the end only. -/
theorem findOrCreateAccount_grows (ledger : AccountLedger) (studentId : List Char) :
    ∃ fresh, (findOrCreateAccount ledger studentId).1.accounts = ledger.accounts ++ fresh := by
  apply findOrCreateAccount_keeps (I := fun table => ∃ fresh, table.accounts =
    ledger.accounts ++ fresh)
  · exact ⟨[], (List.append_nil _).symm⟩
  · intro longer _ rows
    exact ⟨[newAccount studentId], rows⟩

/-- A lookup leaves every value read by id alone: the row it adds reads as zero. -/
theorem read_findOrCreateAccount (g : Account → Int32) (zero : ∀ id, g (newAccount id) = 0)
    (ledger : AccountLedger) (studentId other : List Char) :
    (((findOrCreateAccount ledger studentId).1.find other).map g).getD 0 =
      ((ledger.find other).map g).getD 0 := by
  apply findOrCreateAccount_keeps (I := fun table => ((table.find other).map g).getD 0 =
    ((ledger.find other).map g).getD 0)
  · rfl
  · intro longer _ rows
    simp only [AccountLedger.find, rows, Table.lookup_concat]
    cases Table.lookup Account.key other ledger.accounts with
    | some account => simp
    | none => split <;> simp [zero]

theorem balanceOf_findOrCreateAccount (ledger : AccountLedger) (studentId other : List Char) :
    (findOrCreateAccount ledger studentId).1.balanceOf other = ledger.balanceOf other :=
  read_findOrCreateAccount Account.balance (fun _ => rfl) ledger studentId other

/-- The row found for a short id is the first row with that id. -/
theorem position_findOrCreateAccount {ledger ledger' : AccountLedger} {studentId : List Char}
    {i : Nat} (short : studentId.length < studentIdLen)
    (returned : findOrCreateAccount ledger studentId = (ledger', some i)) :
    Table.position Account.key studentId ledger'.accounts = some i := by
  rcases findOrCreateAccount_some returned with ⟨found, rfl⟩ | ⟨absent, rows, rfl⟩
  · exact found
  · rw [rows]
    exact Table.position_concat Account.key absent (CStr.text_strncpy short)

theorem findOrCreateAccount_lt {ledger ledger' : AccountLedger} {studentId : List Char} {i : Nat}
    (returned : findOrCreateAccount ledger studentId = (ledger', some i)) :
    i < ledger'.accounts.length := by
  rcases findOrCreateAccount_some returned with ⟨found, rfl⟩ | ⟨_, rows, rfl⟩
  · exact Table.position_lt Account.key found
  · simp [rows]

theorem row_eq_of_position {ledger : AccountLedger} {studentId : List Char} {i : Nat}
    (found : Table.position Account.key studentId ledger.accounts = some i) :
    ledger.find studentId = some (ledger.row i) := by
  have there := Table.position_lt Account.key found
  rw [AccountLedger.find, Table.lookup_eq_getElem? Account.key found, AccountLedger.row,
    List.getD_eq_getElem?_getD, List.getElem?_eq_getElem there, Option.getD_some]

theorem find_eq_none_of_position {ledger : AccountLedger} {studentId : List Char}
    (absent : Table.position Account.key studentId ledger.accounts = none) :
    ledger.find studentId = none := by
  simpa [AccountLedger.find, Table.lookup] using (Table.position_eq_none Account.key).mp absent

/-- The row found for an id carries what was read under the id before. -/
theorem read_row_findOrCreateAccount (g : Account → Int32) (zero : ∀ id, g (newAccount id) = 0)
    {ledger ledger' : AccountLedger} {studentId : List Char} {i : Nat}
    (returned : findOrCreateAccount ledger studentId = (ledger', some i)) :
    g (ledger'.row i) = ((ledger.find studentId).map g).getD 0 := by
  rcases findOrCreateAccount_some returned with ⟨found, rfl⟩ | ⟨absent, rows, rfl⟩
  · rw [row_eq_of_position found, Option.map_some, Option.getD_some]
  · simp [AccountLedger.row, find_eq_none_of_position absent, rows, zero]

/-- The row found for an id carries what `strncpy` keeps of the id. -/
theorem studentId_findOrCreateAccount {ledger ledger' : AccountLedger} {studentId : List Char}
    {i : Nat} (returned : findOrCreateAccount ledger studentId = (ledger', some i)) :
    (ledger'.row i).studentId = .strncpy studentId := by
  rcases findOrCreateAccount_some returned with ⟨found, rfl⟩ | ⟨_, rows, rfl⟩
  · have stored := Table.key_of_lookup Account.key (row_eq_of_position found)
    rw [← stored, CStr.strncpy_text]
  · simp [AccountLedger.row, rows, newAccount]

/-- Rows added at the end do not move the ones there. -/
theorem row_of_grows {ledger longer : AccountLedger} {fresh : List Account}
    (grown : longer.accounts = ledger.accounts ++ fresh) {i : Nat}
    (inside : i < ledger.accounts.length) : longer.row i = ledger.row i := by
  simp [AccountLedger.row, grown, List.getElem?_append_left inside]

theorem row_modifyRow {ledger : AccountLedger} {k : Nat} (inside : k < ledger.accounts.length)
    (i : Nat) (f : Account → Account) :
    (ledger.modifyRow i f).row k = if i = k then f (ledger.row k) else ledger.row k := by
  by_cases same : i = k <;> simp [AccountLedger.row, inside, same]

/-! ### Credits -/

/-- A row update that adds to the balance and keeps the id. -/
structure Credits (f : Account → Account) (amount : Int32) : Prop where
  balance : ∀ account, (f account).balance = account.balance + amount
  studentId : ∀ account, (f account).studentId = account.studentId

theorem credits_creditAccount (source owner : List Char) (amount fee : Int32) :
    Credits (creditAccount · source owner amount fee) amount :=
  ⟨fun _ => rfl, fun _ => rfl⟩

theorem balanceOf_modifyRow {ledger : AccountLedger} {studentId : List Char} {i : Nat}
    {f : Account → Account} {amount : Int32}
    (found : Table.position Account.key studentId ledger.accounts = some i)
    (credits : Credits f amount) (other : List Char) :
    (ledger.modifyRow i f).balanceOf other =
      ledger.balanceOf other + if other = studentId then amount else 0 := by
  have keeps (account : Account) : (f account).key = account.key :=
    congrArg CStr.text (credits.studentId account)
  simp only [AccountLedger.balanceOf, AccountLedger.find, accounts_modifyRow,
    Table.lookup_modify Account.key keeps found]
  split
  next same =>
    subst same
    have row := row_eq_of_position found
    rw [AccountLedger.find] at row
    simp [row, credits.balance]
  next => simp

/-- Crediting the row found for an id leaves every other id alone, also when the id
is too long to be stored whole. -/
theorem balanceOf_credited_other {ledger ledger' : AccountLedger} {studentId other : List Char}
    {i : Nat} {f : Account → Account} {amount : Int32}
    (returned : findOrCreateAccount ledger studentId = (ledger', some i))
    (credits : Credits f amount)
    (different : other ≠ (CStr.strncpy studentId : CStr studentIdLen).text) :
    (ledger'.modifyRow i f).balanceOf other = ledger.balanceOf other := by
  rcases findOrCreateAccount_some returned with ⟨found, rfl⟩ | ⟨_, rows, rfl⟩
  -- the id of a row that is found was short enough to be stored
  · have stored := Table.key_of_lookup Account.key (row_eq_of_position found)
    have short : studentId.length < studentIdLen := by
      rw [← stored]
      exact (ledger'.row i).studentId.fits
    rw [CStr.text_strncpy short] at different
    rw [balanceOf_modifyRow found credits, if_neg different]
    simp
  -- a new row carries what `strncpy` keeps of the id
  · have appended : (ledger'.modifyRow ledger.accounts.length f).accounts =
        ledger.accounts ++ [f (newAccount studentId)] := by
      rw [accounts_modifyRow, rows, Table.modify_concat]
    have key : (f (newAccount studentId)).key ≠ other := by
      rw [Account.key, credits.studentId]
      exact different.symm
    rw [AccountLedger.balanceOf, AccountLedger.find, appended, Table.lookup_concat, if_neg key,
      Option.or_none]
    rfl

/-! ### Columns

Transfers and credits rewrite the three columns of the table separately. -/

def AccountLedger.balances (ledger : AccountLedger) : List Int32 :=
  ledger.accounts.map Account.balance

def AccountLedger.nonces (ledger : AccountLedger) : List Int32 :=
  ledger.accounts.map Account.nonce

def AccountLedger.keys (ledger : AccountLedger) : List (List Char) :=
  ledger.accounts.map Account.key

/-- The ids in the table are the ones a lookup finds. -/
theorem notMem_keys_of_position {ledger : AccountLedger} {studentId : List Char}
    (absent : Table.position Account.key studentId ledger.accounts = none) :
    studentId ∉ ledger.keys := by
  intro member
  obtain ⟨account, inside, same⟩ := List.mem_map.mp member
  exact (Table.position_eq_none Account.key).mp absent account inside same

theorem position_ne_none_iff {ledger : AccountLedger} {studentId : List Char} :
    Table.position Account.key studentId ledger.accounts ≠ none ↔ studentId ∈ ledger.keys := by
  constructor
  · intro found
    by_contra absent
    apply found
    rw [Table.position_eq_none]
    exact fun account member same => absent (same ▸ List.mem_map_of_mem member)
  · exact fun member absent => notMem_keys_of_position absent member

theorem exists_position_of_mem_keys {ledger : AccountLedger} {studentId : List Char}
    (member : studentId ∈ ledger.keys) :
    ∃ i, Table.position Account.key studentId ledger.accounts = some i :=
  Option.ne_none_iff_exists'.mp (position_ne_none_iff.mpr member)

theorem length_keys (ledger : AccountLedger) : ledger.keys.length = ledger.accounts.length :=
  List.length_map ..

/-- Looking up a short id adds it to the keys, unless it is there or the table is full. -/
theorem keys_findOrCreateAccount (ledger : AccountLedger) {studentId : List Char}
    (short : studentId.length < studentIdLen) :
    (findOrCreateAccount ledger studentId).1.keys =
      Table.addKey maxStudents ledger.keys studentId := by
  rw [Table.addKey, length_keys]
  rcases findOrCreateAccount_cases ledger studentId with
    ⟨i, found, result⟩ | ⟨absent, longer, rows, result⟩ | ⟨_, full, result⟩
  · have known : studentId ∈ ledger.keys := position_ne_none_iff.mp (by simp [found])
    rw [result, if_pos (Or.inl known)]
  · have grown := longer.fits
    rw [rows, List.length_append, List.length_singleton] at grown
    have fresh : ¬(studentId ∈ ledger.keys ∨ maxStudents ≤ ledger.accounts.length) :=
      not_or.mpr ⟨notMem_keys_of_position absent, by omega⟩
    have stored : (newAccount studentId).key = studentId := CStr.text_strncpy short
    rw [result, if_neg fresh, AccountLedger.keys, rows, List.map_append, List.map_singleton,
      stored, AccountLedger.keys]
  · rw [result, if_pos (Or.inr full.ge)]

theorem balances_modifyRow (ledger : AccountLedger) (i : Nat) {f : Account → Account}
    {g : Int32 → Int32} (rewrites : ∀ account, (f account).balance = g account.balance) :
    (ledger.modifyRow i f).balances = ledger.balances.modify i g :=
  Table.map_modify Account.balance rewrites ledger.accounts i

theorem balances_modifyRow_same (ledger : AccountLedger) (i : Nat) {f : Account → Account}
    (keeps : ∀ account, (f account).balance = account.balance) :
    (ledger.modifyRow i f).balances = ledger.balances :=
  Table.map_key_modify Account.balance keeps ledger.accounts i

theorem nonces_modifyRow_same (ledger : AccountLedger) (i : Nat) {f : Account → Account}
    (keeps : ∀ account, (f account).nonce = account.nonce) :
    (ledger.modifyRow i f).nonces = ledger.nonces :=
  Table.map_key_modify Account.nonce keeps ledger.accounts i

theorem keys_modifyRow (ledger : AccountLedger) (i : Nat) {f : Account → Account}
    (keeps : ∀ account, (f account).studentId = account.studentId) :
    (ledger.modifyRow i f).keys = ledger.keys :=
  Table.map_key_modify Account.key (fun account => congrArg CStr.text (keeps account))
    ledger.accounts i

theorem getElem?_balances {ledger : AccountLedger} {i : Nat} (inside : i < ledger.accounts.length) :
    ledger.balances[i]? = some (ledger.row i).balance := by
  simp [AccountLedger.balances, AccountLedger.row, inside]

theorem getElem?_nonces {ledger : AccountLedger} {i : Nat} (inside : i < ledger.accounts.length) :
    ledger.nonces[i]? = some (ledger.row i).nonce := by
  simp [AccountLedger.nonces, AccountLedger.row, inside]

theorem getElem?_keys {ledger : AccountLedger} {studentId : List Char} {i : Nat}
    (found : Table.position Account.key studentId ledger.accounts = some i) :
    ledger.keys[i]? = some studentId := by
  have key := Table.key_of_lookup Account.key (row_eq_of_position found)
  rw [AccountLedger.keys, List.getElem?_map, ← Table.lookup_eq_getElem? Account.key found,
    ← AccountLedger.find, row_eq_of_position found, Option.map_some, key]

theorem balances_debitSender (ledger : AccountLedger) (i : Nat) (amount : Int32) :
    (debitSender ledger i amount).balances = ledger.balances.modify i (· - (amount + txFee)) :=
  balances_modifyRow ledger i (fun _ => rfl)

theorem length_debitSender (ledger : AccountLedger) (i : Nat) (amount : Int32) :
    (debitSender ledger i amount).accounts.length = ledger.accounts.length :=
  List.length_modify ..

theorem balance_debitSender {ledger : AccountLedger} {i j : Nat} (amount : Int32)
    (inside : j < ledger.accounts.length) :
    ((debitSender ledger i amount).row j).balance =
      if i = j then (ledger.row j).balance - (amount + txFee) else (ledger.row j).balance := by
  have inside' : j < (debitSender ledger i amount).accounts.length := by
    rwa [length_debitSender]
  have column := getElem?_balances inside'
  rw [balances_debitSender, List.getElem?_modify, getElem?_balances inside] at column
  simp only [Option.map_eq_map, Option.map_some, Option.some_inj] at column
  rw [← column]

theorem balances_postTransfer (ledger : AccountLedger) (i j : Nat) (sender recipient : List Char)
    (amount nonce : Int32) :
    (postTransfer ledger i j sender recipient amount nonce).balances =
      (debitSender ledger i amount).balances.modify j (· + amount) := by
  simp only [postTransfer]
  -- from the last assignment back: the nonce and two history nodes keep the balances
  rw [balances_modifyRow_same _ _ (by exact fun _ => rfl),
    balances_modifyRow_same _ _ (by exact fun _ => rfl),
    balances_modifyRow_same _ _ (by exact fun _ => rfl)]
  exact balances_modifyRow _ j (fun _ => rfl)

theorem nonces_postTransfer (ledger : AccountLedger) (i j : Nat) (sender recipient : List Char)
    (amount nonce : Int32) :
    (postTransfer ledger i j sender recipient amount nonce).nonces =
      ledger.nonces.modify i (· + 1) := by
  simp only [postTransfer]
  rw [AccountLedger.nonces, accounts_modifyRow,
    Table.map_modify Account.nonce (g := (· + 1)) (by exact fun _ => rfl), ← AccountLedger.nonces,
    nonces_modifyRow_same _ _ (by exact fun _ => rfl),
    nonces_modifyRow_same _ _ (by exact fun _ => rfl),
    nonces_modifyRow_same _ _ (by exact fun _ => rfl),
    debitSender, nonces_modifyRow_same _ _ (by exact fun _ => rfl)]

theorem keys_postTransfer (ledger : AccountLedger) (i j : Nat) (sender recipient : List Char)
    (amount nonce : Int32) :
    (postTransfer ledger i j sender recipient amount nonce).keys = ledger.keys := by
  simp only [postTransfer]
  rw [keys_modifyRow _ _ (by exact fun _ => rfl), keys_modifyRow _ _ (by exact fun _ => rfl),
    keys_modifyRow _ _ (by exact fun _ => rfl), keys_modifyRow _ _ (by exact fun _ => rfl),
    debitSender, keys_modifyRow _ _ (by exact fun _ => rfl)]

/-- The node both parties of a transfer get. -/
def transferNode (sender recipient : List Char) (amount nonce : Int32) : TxHistoryNode :=
  ⟨.strncpy sender, .strncpy recipient, amount, txFee, nonce⟩

/-- The rows of the two parties after a transfer; with one row for both, it is written by
each of the five assignments. -/
theorem row_postTransfer {ledger : AccountLedger} {i j k : Nat}
    (sender recipient : List Char) (amount nonce : Int32)
    (inside : k < ledger.accounts.length) :
    let row := ledger.row k
    let node := transferNode sender recipient amount nonce
    (postTransfer ledger i j sender recipient amount nonce).row k =
      if i = k then
        if j = k then
          { row with
            balance := row.balance - (amount + txFee) + amount
            nonce := row.nonce + 1
            history := node :: node :: row.history }
        else
          { row with
            balance := row.balance - (amount + txFee)
            nonce := row.nonce + 1
            history := node :: row.history }
      else if j = k then
        { row with balance := row.balance + amount, history := node :: row.history }
      else row := by
  simp only [postTransfer, debitSender]
  rw [row_modifyRow, row_modifyRow, row_modifyRow, row_modifyRow, row_modifyRow]
  · split_ifs <;> rfl
  all_goals simpa using inside

/-! ### Transfers -/

/-- The table after looking up some ids, with the rows that were missing. -/
def lookups (ledger : AccountLedger) (ids : List (List Char)) : AccountLedger :=
  ids.foldl (fun ledger studentId => (findOrCreateAccount ledger studentId).1) ledger

theorem lookups_keeps (I : AccountLedger → Prop) {ids : List (List Char)}
    (step : ∀ ledger, ∀ id ∈ ids, I ledger → I (findOrCreateAccount ledger id).1)
    {ledger : AccountLedger} (initial : I ledger) : I (lookups ledger ids) := by
  induction ids generalizing ledger with
  | nil => exact initial
  | cons id ids ih =>
    rw [lookups, List.foldl_cons]
    exact ih (fun ledger other member => step ledger other (List.mem_cons_of_mem id member))
      (step ledger id List.mem_cons_self initial)

/-- Short ids that are looked up are added to the keys, as far as there is room. -/
theorem keys_lookups (ledger : AccountLedger) {ids : List (List Char)}
    (short : ∀ id ∈ ids, id.length < studentIdLen) :
    (lookups ledger ids).keys = ids.foldl (Table.addKey maxStudents) ledger.keys := by
  induction ids generalizing ledger with
  | nil => rfl
  | cons id ids ih =>
    rw [List.forall_mem_cons] at short
    rw [lookups, List.foldl_cons, List.foldl_cons, ← keys_findOrCreateAccount ledger short.1]
    exact ih _ short.2

/-- Lookups add balances of zero at the end. -/
theorem balances_lookups (ledger : AccountLedger) (ids : List (List Char)) :
    ∃ fresh, (lookups ledger ids).balances = ledger.balances ++ List.replicate fresh 0 := by
  apply lookups_keeps (fun table => ∃ fresh, table.balances =
    ledger.balances ++ List.replicate fresh 0)
  · rintro table id _ ⟨fresh, balances⟩
    apply findOrCreateAccount_keeps (I := fun table => ∃ fresh, table.balances =
      ledger.balances ++ List.replicate fresh 0)
    · exact ⟨fresh, balances⟩
    · intro longer _ rows
      refine ⟨fresh + 1, ?_⟩
      rw [AccountLedger.balances, rows, List.map_append, ← AccountLedger.balances, balances,
        List.append_assoc, List.replicate_succ']
      rfl
  · exact ⟨0, (List.append_nil _).symm⟩

theorem nonneg_lookups {ledger : AccountLedger} (ids : List (List Char))
    (nonneg : ∀ balance ∈ ledger.balances, 0 ≤ balance.toInt) :
    ∀ balance ∈ (lookups ledger ids).balances, 0 ≤ balance.toInt := by
  obtain ⟨fresh, rows⟩ := balances_lookups ledger ids
  rw [rows, List.forall_mem_append]
  exact ⟨nonneg, by simp⟩

theorem exactSum_lookups (ledger : AccountLedger) (ids : List (List Char)) :
    exactSum (lookups ledger ids).balances = exactSum ledger.balances := by
  obtain ⟨fresh, rows⟩ := balances_lookups ledger ids
  have nothing : exactSum (List.replicate fresh 0) = 0 := by simp [exactSum]
  rw [rows, exactSum_append, nothing, Int.add_zero]

/-- There is a row for the id, or none can be added. -/
def AccountLedger.Settled (ledger : AccountLedger) (studentId : List Char) : Prop :=
  studentId ∈ ledger.keys ∨ ledger.accounts.length = maxStudents

theorem findOrCreateAccount_eq_self_iff (ledger : AccountLedger) (studentId : List Char) :
    (findOrCreateAccount ledger studentId).1 = ledger ↔ ledger.Settled studentId := by
  rcases findOrCreateAccount_cases ledger studentId with
    ⟨i, found, result⟩ | ⟨absent, longer, rows, result⟩ | ⟨_, full, result⟩
  · rw [result]
    exact iff_of_true rfl (Or.inl (List.mem_of_getElem? (getElem?_keys found)))
  · rw [result]
    have length := congrArg List.length rows
    rw [List.length_append, List.length_singleton] at length
    apply iff_of_false
    · intro same
      have grew : longer.accounts.length = ledger.accounts.length :=
        congrArg (fun ledger => ledger.accounts.length) same
      omega
    · rintro (member | full)
      · exact notMem_keys_of_position absent member
      · have fits := longer.fits
        omega
  · rw [result]
    exact iff_of_true rfl (Or.inr full)

theorem lookups_grows (ledger : AccountLedger) (ids : List (List Char)) :
    ∃ fresh, (lookups ledger ids).accounts = ledger.accounts ++ fresh := by
  apply lookups_keeps (fun table => ∃ fresh, table.accounts = ledger.accounts ++ fresh)
  · rintro table id _ ⟨fresh, grown⟩
    obtain ⟨more, grown'⟩ := findOrCreateAccount_grows table id
    exact ⟨fresh ++ more, by rw [grown', grown, List.append_assoc]⟩
  · exact ⟨[], (List.append_nil _).symm⟩

theorem lookups_eq_self_iff (ledger : AccountLedger) (ids : List (List Char)) :
    lookups ledger ids = ledger ↔ ∀ id ∈ ids, ledger.Settled id := by
  induction ids with
  | nil => simp [lookups]
  | cons id ids ih =>
    rw [List.forall_mem_cons, ← findOrCreateAccount_eq_self_iff, ← ih, lookups, List.foldl_cons,
      ← lookups]
    constructor
    · intro same
      -- the rows the first lookup adds are still there in the end
      obtain ⟨first, grown⟩ := findOrCreateAccount_grows ledger id
      obtain ⟨rest, grown'⟩ := lookups_grows (findOrCreateAccount ledger id).1 ids
      have length := congrArg List.length (grown'.symm.trans (congrArg AccountLedger.accounts same))
      rw [grown, List.length_append, List.length_append] at length
      have nothing : first = [] := List.length_eq_zero_iff.mp (by omega)
      have here : (findOrCreateAccount ledger id).1 = ledger := by
        ext1
        rw [grown, nothing, List.append_nil]
      exact ⟨here, by rwa [here] at same⟩
    · rintro ⟨here, rest⟩
      rw [here, rest]

/-- What `account_transfer` checks: there are rows for both ids or room for them, the nonce
is the sender's, and the sender has the amount and the fee. -/
def TransferAccepted (ledger : AccountLedger) (sender recipient : List Char)
    (amount nonce : Int32) : Prop :=
  (findOrCreateAccount ledger sender).2.isSome = true ∧
  (findOrCreateAccount (lookups ledger [sender]) recipient).2.isSome = true ∧
  nonce = ledger.nonceOf sender ∧ amount + txFee ≤ ledger.balanceOf sender

instance (ledger : AccountLedger) (sender recipient : List Char) (amount nonce : Int32) :
    Decidable (TransferAccepted ledger sender recipient amount nonce) :=
  inferInstanceAs (Decidable (_ ∧ _ ∧ _ ∧ _))

/-- The row of the sender stays where it is when the recipient is looked up. -/
theorem row_lookups {ledger : AccountLedger} {sender : List Char} {i : Nat}
    (senderRow : findOrCreateAccount ledger sender = (lookups ledger [sender], some i))
    (recipient : List Char) :
    i < (lookups ledger [sender, recipient]).accounts.length ∧
    (lookups ledger [sender, recipient]).row i = (lookups ledger [sender]).row i := by
  obtain ⟨fresh, grown⟩ := findOrCreateAccount_grows (lookups ledger [sender]) recipient
  have grown : (lookups ledger [sender, recipient]).accounts =
      (lookups ledger [sender]).accounts ++ fresh := grown
  have inside := findOrCreateAccount_lt senderRow
  refine ⟨?_, row_of_grows grown inside⟩
  rw [grown, List.length_append]
  exact Nat.lt_of_lt_of_le inside (Nat.le_add_right _ _)

/-- A transfer looks up both ids, and then posts or leaves it at that. -/
theorem accountTransfer_cases (ledger : AccountLedger) (sender recipient : List Char)
    (amount nonce : Int32) :
    let found := lookups ledger [sender, recipient]
    let overflow := addOverflows amount txFee
    (¬TransferAccepted ledger sender recipient amount nonce ∧
      accountTransfer ledger sender recipient amount nonce = ⟨false, found, overflow⟩) ∨
    (TransferAccepted ledger sender recipient amount nonce ∧ ∃ i j,
      findOrCreateAccount ledger sender = (lookups ledger [sender], some i) ∧
      findOrCreateAccount (lookups ledger [sender]) recipient = (found, some j) ∧
      nonce = (found.row i).nonce ∧ amount + txFee ≤ (found.row i).balance ∧
      accountTransfer ledger sender recipient amount nonce =
        ⟨true, postTransfer found i j sender recipient amount nonce,
          overflow || postOverflows found i j amount⟩) := by
  intro found overflow
  have unfolded : accountTransfer ledger sender recipient amount nonce =
      match (findOrCreateAccount ledger sender).2,
        (findOrCreateAccount (lookups ledger [sender]) recipient).2 with
      | some i, some j =>
        if nonce ≠ (found.row i).nonce then ⟨false, found, overflow⟩
        else if (found.row i).balance < amount + txFee then ⟨false, found, overflow⟩
        else ⟨true, postTransfer found i j sender recipient amount nonce,
          overflow || postOverflows found i j amount⟩
      | _, _ => ⟨false, found, overflow⟩ := rfl
  rw [unfolded, TransferAccepted]
  -- the checks in the order of the source: both rows, the nonce, the balance
  cases senderRow : (findOrCreateAccount ledger sender).2 with
  | none => simp
  | some i =>
    have senderFound : findOrCreateAccount ledger sender = (lookups ledger [sender], some i) :=
      Prod.ext rfl senderRow
    cases recipientRow : (findOrCreateAccount (lookups ledger [sender]) recipient).2 with
    | none => simp
    | some j =>
      have recipientFound : findOrCreateAccount (lookups ledger [sender]) recipient =
          (found, some j) := Prod.ext rfl recipientRow
      have same := (row_lookups senderFound recipient).2
      have nonce_eq : ledger.nonceOf sender = (found.row i).nonce := by
        rw [same]
        exact (read_row_findOrCreateAccount Account.nonce (fun _ => rfl) senderFound).symm
      have balance_eq : ledger.balanceOf sender = (found.row i).balance := by
        rw [same]
        exact (read_row_findOrCreateAccount Account.balance (fun _ => rfl) senderFound).symm
      simp only [nonce_eq, balance_eq, Option.isSome_some, true_and]
      split
      next wrong => exact Or.inl ⟨fun accepted => wrong accepted.1, rfl⟩
      next current =>
        split
        next short =>
          refine Or.inl ⟨fun accepted => ?_, rfl⟩
          exact absurd (Int32.lt_of_lt_of_le short accepted.2) Int32.lt_irrefl
        next covered =>
          have current := not_not.mp current
          have covered := Int32.not_lt.mp covered
          exact Or.inr
            ⟨⟨current, covered⟩, i, j, senderFound, recipientFound, current, covered, rfl⟩

/-- A transfer leaves the table alone if it is refused and both ids have their rows. -/
theorem accountTransfer_eq_self_iff (ledger : AccountLedger) (sender recipient : List Char)
    (amount nonce : Int32) :
    (accountTransfer ledger sender recipient amount nonce).state = ledger ↔
      ¬TransferAccepted ledger sender recipient amount nonce ∧
        ledger.Settled sender ∧ ledger.Settled recipient := by
  rcases accountTransfer_cases ledger sender recipient amount nonce with
    ⟨refused, result⟩ | ⟨accepted, i, j, senderRow, _, _, _, result⟩
  · rw [result, and_iff_right refused, lookups_eq_self_iff]
    simp
  · rw [result]
    refine iff_of_false ?_ (fun unchanged => unchanged.1 accepted)
    intro same
    -- no row was added, and the nonce of the sender is not what it was
    have columns := congrArg AccountLedger.nonces same
    rw [nonces_postTransfer] at columns
    obtain ⟨fresh, grown⟩ := lookups_grows ledger [sender, recipient]
    have split : (lookups ledger [sender, recipient]).nonces =
        ledger.nonces ++ fresh.map Account.nonce := by
      rw [AccountLedger.nonces, grown, List.map_append, ← AccountLedger.nonces]
    have lengths := congrArg List.length columns
    rw [List.length_modify, split, List.length_append] at lengths
    have nothing : fresh.map Account.nonce = [] := List.length_eq_zero_iff.mp (by omega)
    rw [nothing, List.append_nil] at split
    have inside := (row_lookups senderRow recipient).1
    have counted := congrArg (·[i]?) columns
    simp only [List.getElem?_modify, ← split, getElem?_nonces inside] at counted
    simp at counted

/-- Between two rows that are there, the nonce and the balance are left to decide. -/
theorem accountTransfer_of_positions {ledger : AccountLedger} {sender recipient : List Char}
    {i j : Nat} (senderRow : Table.position Account.key sender ledger.accounts = some i)
    (recipientRow : Table.position Account.key recipient ledger.accounts = some j)
    (amount nonce : Int32) :
    accountTransfer ledger sender recipient amount nonce =
      if nonce ≠ (ledger.row i).nonce then ⟨false, ledger, addOverflows amount txFee⟩
      else if (ledger.row i).balance < amount + txFee then
        ⟨false, ledger, addOverflows amount txFee⟩
      else
        ⟨true, postTransfer ledger i j sender recipient amount nonce,
          addOverflows amount txFee || postOverflows ledger i j amount⟩ := by
  simp only [accountTransfer, findOrCreateAccount_of_position senderRow,
    findOrCreateAccount_of_position recipientRow]

/-- Between two rows that are there, with the nonce of the sender, only the balance is
left to decide. -/
theorem accountTransfer_of_position {ledger : AccountLedger} {sender recipient : List Char}
    {i j : Nat} (senderRow : Table.position Account.key sender ledger.accounts = some i)
    (recipientRow : Table.position Account.key recipient ledger.accounts = some j)
    (amount : Int32) :
    accountTransfer ledger sender recipient amount (ledger.row i).nonce =
      if (ledger.row i).balance < amount + txFee then ⟨false, ledger, addOverflows amount txFee⟩
      else
        ⟨true, postTransfer ledger i j sender recipient amount (ledger.row i).nonce,
          addOverflows amount txFee || postOverflows ledger i j amount⟩ := by
  rw [accountTransfer_of_positions senderRow recipientRow, if_neg (not_not.mpr rfl)]

end Attendance
