import Mathlib.Data.List.Basic
import Mathlib.Data.List.Forall2
import Mathlib.Algebra.BigOperators.Group.List.Basic
import Mathlib.Data.Finset.Card
import Mathlib.Data.Finset.SDiff
import Mathlib.Tactic.Abel

/-!
# Tables searched by key

A table is a list of rows; a key denotes the first row that carries it. Rows are
rewritten in place and added at the end, never removed.
-/
namespace Table

variable {R K : Type*} [DecidableEq K] (key : R → K)

/-- The position of the first row with the key. -/
def position (k : K) (rows : List R) : Option Nat := rows.findIdx? (fun row => key row = k)

/-- The first row with the key. -/
def lookup (k : K) (rows : List R) : Option R := rows.find? (fun row => key row = k)

theorem position_cons (k : K) (row : R) (rows : List R) :
    position key k (row :: rows) =
      if key row = k then some 0 else (position key k rows).map (· + 1) := by
  by_cases here : key row = k <;> simp [position, List.findIdx?_cons, here]

theorem lookup_cons (k : K) (row : R) (rows : List R) :
    lookup key k (row :: rows) = if key row = k then some row else lookup key k rows := by
  by_cases here : key row = k <;> simp [lookup, here]

theorem key_of_lookup {k : K} {rows : List R} {row : R} (found : lookup key k rows = some row) :
    key row = k := by
  simpa using List.find?_some found

theorem lookup_eq_none {k : K} {rows : List R} (absent : k ∉ rows.map key) :
    lookup key k rows = none := by
  rw [lookup, List.find?_eq_none]
  intro row member same
  exact absent (List.mem_map.mpr ⟨row, member, of_decide_eq_true same⟩)

/-- Where no key stands on two rows, every row is the one that its key denotes. -/
theorem lookup_of_mem {rows : List R} (distinct : (rows.map key).Nodup) {row : R}
    (member : row ∈ rows) : lookup key (key row) rows = some row := by
  induction rows with
  | nil => cases member
  | cons other rows ih =>
    rw [List.map_cons, List.nodup_cons] at distinct
    rw [lookup_cons]
    rcases List.mem_cons.mp member with rfl | later
    · exact if_pos rfl
    · rw [if_neg, ih distinct.2 later]
      intro same
      exact distinct.1 (List.mem_map.mpr ⟨row, later, same.symm⟩)

theorem position_eq_none {k : K} {rows : List R} :
    position key k rows = none ↔ ∀ row ∈ rows, key row ≠ k := by
  simp [position]

theorem lookup_eq_getElem? {k : K} {rows : List R} {i : Nat}
    (found : position key k rows = some i) : lookup key k rows = rows[i]? := by
  induction rows generalizing i with
  | nil => simp [position] at found
  | cons row rows ih =>
    rw [position_cons] at found
    rw [lookup_cons]
    split at found
    next here =>
      cases found
      simp [here]
    next elsewhere =>
      obtain ⟨j, hj, rfl⟩ := Option.map_eq_some_iff.mp found
      simpa [elsewhere] using ih hj

theorem position_lt {k : K} {rows : List R} {i : Nat} (found : position key k rows = some i) :
    i < rows.length :=
  (List.findIdx?_eq_some_iff_getElem.mp found).1

/-- Rewriting the first row of a key is seen under that key only. -/
theorem lookup_modify {f : R → R} (keeps : ∀ row, key (f row) = key row) {k : K} {rows : List R}
    {i : Nat} (found : position key k rows = some i) (k' : K) :
    lookup key k' (rows.modify i f) =
      if k' = k then (lookup key k rows).map f else lookup key k' rows := by
  induction rows generalizing i with
  | nil => simp [position] at found
  | cons row rows ih =>
    rw [position_cons] at found
    split at found
    next here =>
      cases found
      by_cases same : k' = k
      · simp [lookup_cons, keeps, here, same]
      · simp [lookup_cons, keeps, here, same, Ne.symm same]
    next elsewhere =>
      obtain ⟨j, hj, rfl⟩ := Option.map_eq_some_iff.mp found
      by_cases other : key row = k'
      · have different : k' ≠ k := fun equal => elsewhere (other.trans equal)
        simp [lookup_cons, other, different]
      · simpa [lookup_cons, elsewhere, other] using ih hj

theorem lookup_concat {k : K} {rows : List R} (row : R) :
    lookup key k (rows ++ [row]) =
      (lookup key k rows).or (if key row = k then some row else none) := by
  by_cases same : key row = k <;> simp [lookup, List.find?_append, same]

/-- Rows added at the end do not hide the ones there. -/
theorem position_append {k : K} {rows : List R} {i : Nat} (found : position key k rows = some i)
    (fresh : List R) : position key k (rows ++ fresh) = some i := by
  rw [position] at found ⊢
  rw [List.findIdx?_append, found, Option.some_or]

/-- A row added under a new key is the one found under it. -/
theorem position_concat {k : K} {rows : List R} {row : R} (absent : position key k rows = none)
    (same : key row = k) : position key k (rows ++ [row]) = some rows.length := by
  rw [position, List.findIdx?_append]
  rw [position] at absent
  simp [absent, same]

omit [DecidableEq K] in
theorem modify_concat (f : R → R) (rows : List R) (row : R) :
    (rows ++ [row]).modify rows.length f = rows ++ [f row] := by
  induction rows with
  | nil => rfl
  | cons first rows ih => simp [ih]

omit [DecidableEq K] in
/-- Two ways to rewrite a row that agree on the row there. -/
theorem modify_congr {f g : R → R} {rows : List R} {i : Nat}
    (same : ∀ row, rows[i]? = some row → f row = g row) : rows.modify i f = rows.modify i g := by
  induction rows generalizing i with
  | nil => simp
  | cons first rows ih =>
    cases i with
    | zero => rw [List.modify_zero_cons, List.modify_zero_cons, same first rfl]
    | succ i => rw [List.modify_succ_cons, List.modify_succ_cons, ih same]

omit [DecidableEq K] in
/-- A column of a table with one row rewritten. -/
theorem map_modify {f : R → R} {g : K → K} (rewrites : ∀ row, key (f row) = g (key row))
    (rows : List R) (i : Nat) : (rows.modify i f).map key = (rows.map key).modify i g := by
  induction rows generalizing i with
  | nil => simp
  | cons row rows ih => cases i <;> simp [rewrites, ih]

omit [DecidableEq K] in
theorem map_key_modify {f : R → R} (keeps : ∀ row, key (f row) = key row) (rows : List R)
    (i : Nat) : (rows.modify i f).map key = rows.map key := by
  rw [map_modify key (g := id) keeps, List.modify_id]

/-- Rewriting one row changes a sum over the table by the change of that row. -/
theorem sum_map_modify {M : Type*} [AddCommGroup M] (f : R → R) (g : R → M) {rows : List R}
    {i : Nat} {row : R} (there : rows[i]? = some row) :
    ((rows.modify i f).map g).sum = (rows.map g).sum - g row + g (f row) := by
  induction rows generalizing i with
  | nil => simp at there
  | cons first rows ih =>
    cases i with
    | zero =>
      obtain rfl : first = row := by simpa using there
      simp only [List.modify_zero_cons, List.map_cons, List.sum_cons]
      abel
    | succ i =>
      have rest := ih (i := i) (by simpa using there)
      simp only [List.modify_succ_cons, List.map_cons, List.sum_cons, rest]
      abel

omit [DecidableEq K] in
/-- In a table without repeated keys, rewriting the row of one key changes a column that
is a function of the key at that key only. -/
theorem modify_map_of_nodup {M : Type*} {keys : List K} (distinct : keys.Nodup) {i : Nat} {k : K}
    (there : keys[i]? = some k) {f f' : K → M} {g : M → M} (here : f' k = g (f k))
    (elsewhere : ∀ k', k' ≠ k → f' k' = f k') : (keys.map f).modify i g = keys.map f' := by
  induction keys generalizing i with
  | nil => simp at there
  | cons first keys ih =>
    obtain ⟨notIn, distinct⟩ := List.nodup_cons.mp distinct
    cases i with
    | zero =>
      obtain rfl : first = k := by simpa using there
      have rest : keys.map f = keys.map f' := List.map_congr_left fun k' member =>
        (elsewhere k' fun same => notIn (same ▸ member)).symm
      simp [here, rest]
    | succ i =>
      have later : keys[i]? = some k := by simpa using there
      have different : first ≠ k := fun same =>
        notIn (same ▸ List.mem_of_getElem? later)
      simp [ih distinct later, elsewhere first different]

theorem mem_modify {f : R → R} {rows : List R} {i : Nat} {row : R}
    (member : row ∈ rows.modify i f) :
    row ∈ rows ∨ ∃ old, rows[i]? = some old ∧ row = f old := by
  induction rows generalizing i with
  | nil => simp at member
  | cons first rows ih =>
    cases i with
    | zero =>
      rcases List.mem_cons.mp (by simpa using member) with rfl | later
      · exact Or.inr ⟨first, rfl, rfl⟩
      · exact Or.inl (List.mem_cons_of_mem first later)
    | succ i =>
      rcases List.mem_cons.mp (by simpa using member) with rfl | later
      · exact Or.inl List.mem_cons_self
      · rcases ih later with old | ⟨old, there, equal⟩
        · exact Or.inl (List.mem_cons_of_mem first old)
        · exact Or.inr ⟨old, by simpa using there, equal⟩

/-! ### Tables of bounded size -/

/-- The keys of a table in which a key is looked up, and added if it is missing and there is
room for it. -/
def addKey (capacity : Nat) (keys : List K) (k : K) : List K :=
  if k ∈ keys ∨ capacity ≤ keys.length then keys else keys ++ [k]

theorem prefix_addKey (capacity : Nat) (keys : List K) (k : K) :
    keys <+: addKey capacity keys k := by
  unfold addKey
  split
  · exact List.prefix_rfl
  · exact List.prefix_append keys [k]

theorem nodup_addKey {capacity : Nat} {keys : List K} (distinct : keys.Nodup) (k : K) :
    (addKey capacity keys k).Nodup := by
  unfold addKey
  split
  · exact distinct
  next fresh =>
    rw [not_or] at fresh
    rw [List.nodup_append]
    refine ⟨distinct, List.nodup_singleton k, ?_⟩
    rintro other member _ added rfl
    exact fresh.1 (List.mem_singleton.mp added ▸ member)

/-- Keys that were there stay where they are. -/
theorem prefix_foldl_addKey (capacity : Nat) (keys added : List K) :
    keys <+: added.foldl (addKey capacity) keys := by
  induction added generalizing keys with
  | nil => exact List.prefix_rfl
  | cons k added ih => exact (prefix_addKey capacity keys k).trans (ih _)

theorem nodup_foldl_addKey {capacity : Nat} {keys : List K} (distinct : keys.Nodup)
    (added : List K) : (added.foldl (addKey capacity) keys).Nodup := by
  induction added generalizing keys with
  | nil => exact distinct
  | cons k added ih => exact ih (nodup_addKey distinct k)

/-- The number of different keys among the given ones that are not in the table. -/
def newcomers (keys added : List K) : Nat := (added.toFinset \ keys.toFinset).card

theorem newcomers_cons_of_mem {keys : List K} {k : K} (known : k ∈ keys) (added : List K) :
    newcomers keys (k :: added) = newcomers keys added := by
  rw [newcomers, newcomers, List.toFinset_cons,
    Finset.insert_sdiff_of_mem _ (List.mem_toFinset.mpr known)]

/-- The first of the new keys is counted once, wherever else it is added. -/
theorem newcomers_cons_of_notMem {keys : List K} {k : K} (fresh : k ∉ keys) (added : List K) :
    newcomers keys (k :: added) = newcomers (keys ++ [k]) added + 1 := by
  have split : (k :: added).toFinset \ keys.toFinset =
      insert k (added.toFinset \ (keys ++ [k]).toFinset) := by
    ext other
    simp only [List.toFinset_cons, List.toFinset_append, List.toFinset_nil, Finset.mem_sdiff,
      Finset.mem_insert, Finset.mem_union, List.mem_toFinset, Finset.notMem_empty]
    by_cases same : other = k
    · simp [same, fresh]
    · simp [same]
  rw [newcomers, newcomers, split, Finset.card_insert_of_notMem (by simp)]

/-- Whether a key is found or has room, once others have been added in turn, is told by the
newcomers among those that come before it. -/
theorem room_foldl_addKey (capacity : Nat) (keys added : List K) (k : K) :
    (k ∈ added.foldl (addKey capacity) keys ∨
      (added.foldl (addKey capacity) keys).length < capacity) ↔
    k ∈ keys ∨ keys.length + newcomers keys (added.takeWhile (· ≠ k)) < capacity := by
  induction added generalizing keys with
  | nil => simp [newcomers]
  | cons first added ih =>
    rw [List.foldl_cons, ih]
    by_cases known : first ∈ keys
    · rw [addKey, if_pos (Or.inl known)]
      by_cases same : first = k
      · subst same
        simp [known]
      · rw [List.takeWhile_cons_of_pos (by simpa using same), newcomers_cons_of_mem known]
    · by_cases full : capacity ≤ keys.length
      · rw [addKey, if_pos (Or.inr full)]
        exact or_congr_right (iff_of_false (by omega) (by omega))
      · rw [addKey, if_neg (not_or.mpr ⟨known, full⟩), List.mem_append, List.length_append,
          List.mem_singleton, List.length_singleton]
        by_cases same : first = k
        · subst same
          rw [List.takeWhile_cons_of_neg (by simp)]
          exact iff_of_true (Or.inl (Or.inr rfl)) (Or.inr (by simpa [newcomers] using full))
        · rw [List.takeWhile_cons_of_pos (by simpa using same), newcomers_cons_of_notMem known,
            or_iff_left (Ne.symm same), Nat.add_assoc, Nat.add_comm 1]

/-! ### Two tables row by row -/

section Forall₂

variable {R' : Type*} (key' : R' → K) {S T : R → R' → Prop} {rows : List R} {rows' : List R'}

theorem forall₂_position (same : ∀ row row', S row row' → key row = key' row')
    (all : List.Forall₂ S rows rows') (k : K) : position key k rows = position key' k rows' := by
  induction all with
  | nil => rfl
  | cons first _ ih => rw [position_cons, position_cons, same _ _ first, ih]

/-- A key denotes two rows that are related, or none in either table. -/
theorem forall₂_lookup (same : ∀ row row', S row row' → key row = key' row')
    (all : List.Forall₂ S rows rows') (k : K) :
    (lookup key k rows = none ∧ lookup key' k rows' = none) ∨
    ∃ row row', lookup key k rows = some row ∧ lookup key' k rows' = some row' ∧ S row row' := by
  induction all with
  | nil => exact Or.inl ⟨rfl, rfl⟩
  | @cons row row' _ _ first _ ih =>
    rw [lookup_cons, lookup_cons, ← same _ _ first]
    split
    next => exact Or.inr ⟨row, row', rfl, rfl, first⟩
    next => exact ih

omit [DecidableEq K] in
theorem forall₂_modify {f : R → R} {g : R' → R'} {i : Nat} (all : List.Forall₂ S rows rows')
    (changed : ∀ row row', rows[i]? = some row → S row row' → T (f row) (g row'))
    (kept : ∀ row row', S row row' → T row row') :
    List.Forall₂ T (rows.modify i f) (rows'.modify i g) := by
  induction all generalizing i with
  | nil => simp
  | cons first rest ih =>
    cases i with
    | zero => exact .cons (changed _ _ rfl first) (rest.imp kept)
    | succ i => exact .cons (kept _ _ first) (ih changed)

omit [DecidableEq K] in
theorem forall₂_getD (all : List.Forall₂ S rows rows') {row : R} {row' : R'} (default : S row row')
    (i : Nat) : S (rows.getD i row) (rows'.getD i row') := by
  induction all generalizing i with
  | nil => exact default
  | cons first _ ih =>
    cases i with
    | zero => exact first
    | succ i => exact ih i

end Forall₂

end Table
