import Attendance.Foundation.Table
import Mathlib.Data.Finmap
import Mathlib.Order.Lattice.Nat

/-!
# Linked lists on a heap

A heap of list nodes, an allocator that hands out addresses not in use or refuses, and
lists linked through their nodes. A read or a release of an address not in use has no
meaning and is `none`. `Owns` says that the heap is a set of lists and nothing else, and
`Interleaved` what is left of a list where some of its nodes were refused.
-/
namespace Heap

variable {ρ ν : Type*} [DecidableEq ρ]

/-- A node with the address of the next one, `none` at the end. -/
structure Node (ρ ν : Type*) where
  value : ν
  next : Option ρ
deriving DecidableEq

/-- The nodes in use, by address. -/
abbrev Store (ρ ν : Type*) := Finmap fun _ : ρ => Node ρ ν

/-- The answers to the calls that ask for a node, which may be refused. An address in use is
never handed out; one that was released may be. -/
structure Allocator (ρ : Type*) where
  pick : Nat → Finset ρ → Option ρ
  fresh : ∀ {call : Nat} {live : Finset ρ} {address : ρ},
    pick call live = some address → address ∉ live

/-- Hands out the address after the greatest in use, but for the calls it refuses. -/
def Allocator.refusing (refuses : Nat → Bool) : Allocator Nat where
  pick call live := if refuses call then none else some (live.sup id + 1)
  fresh := by
    intro call live address picked used
    split at picked
    · cases picked
    · cases picked
      exact absurd (Finset.le_sup (f := id) used) (Nat.not_succ_le_self _)

def load (heap : Store ρ ν) (address : ρ) : Option (Node ρ ν) := heap.lookup address

def release (heap : Store ρ ν) (address : ρ) : Option (Store ρ ν) :=
  (load heap address).map fun _ => heap.erase address

/-- `while (node != NULL)` around a read of the link and a release of the node. The count of
nodes in use bounds the rounds: each releases one, and without one the read has no meaning. -/
def releaseLoop : Nat → Store ρ ν → Option ρ → Option (Store ρ ν)
  | _, heap, none => some heap
  | 0, _, some _ => none
  | count + 1, heap, some address =>
    (load heap address).bind fun node =>
      (release heap address).bind fun heap => releaseLoop count heap node.next

def releaseList (heap : Store ρ ν) (head : Option ρ) : Option (Store ρ ν) :=
  releaseLoop heap.keys.card heap head

/-- `while (node != NULL)` around a read, for as many rounds as it is given. -/
def readLoop : Nat → Store ρ ν → Option ρ → Option (List ν)
  | _, _, none => some []
  | 0, _, some _ => none
  | fuel + 1, heap, some address =>
    (load heap address).bind fun node =>
      (readLoop fuel heap node.next).map fun rest => node.value :: rest

/-- The nodes from an address on, up to the end of the list. -/
def Linked (heap : Store ρ ν) : Option ρ → List (ρ × ν) → Prop
  | head, [] => head = none
  | head, (address, value) :: rest =>
    head = some address ∧ ∃ next, load heap address = some ⟨value, next⟩ ∧ Linked heap next rest

/-- The heap consists of the lists, each node in one of them and once. -/
structure Owns (heap : Store ρ ν) (heads : List (Option ρ)) (lists : List (List (ρ × ν))) :
    Prop where
  linked : List.Forall₂ (Linked heap) heads lists
  used : heap.keys.val = (lists.flatten.map Prod.fst : List ρ)

/-- `kept` and `lost`, each in its order, are all the items of `all`. -/
inductive Interleaved : List ν → List ν → List ν → Prop where
  | nil : Interleaved [] [] []
  | kept (value : ν) {kept lost all : List ν} :
    Interleaved kept lost all → Interleaved (value :: kept) lost (value :: all)
  | lost (value : ν) {kept lost all : List ν} :
    Interleaved kept lost all → Interleaved kept (value :: lost) (value :: all)

/-! ### One node -/

theorem load_isSome {heap : Store ρ ν} {address : ρ} :
    (load heap address).isSome ↔ address ∈ heap.keys := by
  rw [load, Finmap.lookup_isSome, Finmap.mem_keys]

theorem load_insert (heap : Store ρ ν) (address : ρ) (node : Node ρ ν) :
    load (heap.insert address node) address = some node := Finmap.lookup_insert heap

theorem load_insert_of_ne (heap : Store ρ ν) {address other : ρ} (node : Node ρ ν)
    (different : other ≠ address) : load (heap.insert address node) other = load heap other :=
  Finmap.lookup_insert_of_ne heap different

theorem load_erase_of_ne (heap : Store ρ ν) {address other : ρ} (different : other ≠ address) :
    load (heap.erase address) other = load heap other :=
  Finmap.lookup_erase_ne different

theorem release_of_load {heap : Store ρ ν} {address : ρ} {node : Node ρ ν}
    (here : load heap address = some node) :
    release heap address = some (heap.erase address) := by
  rw [release, here, Option.map_some]

theorem keys_insert (heap : Store ρ ν) (address : ρ) (node : Node ρ ν) :
    (heap.insert address node).keys = insert address heap.keys := by
  ext other
  rw [Finmap.mem_keys, Finmap.mem_insert, Finset.mem_insert, Finmap.mem_keys]

theorem eq_empty_of_keys {heap : Store ρ ν} (unused : heap.keys = ∅) : heap = ∅ := by
  apply Finmap.ext_lookup
  intro address
  rw [Finmap.lookup_empty, Finmap.lookup_eq_none, ← Finmap.mem_keys, unused]
  exact Finset.notMem_empty address

/-! ### One list -/

@[simp] theorem linked_nil {heap : Store ρ ν} {head : Option ρ} :
    Linked heap head [] ↔ head = none := Iff.rfl

theorem linked_none {heap : Store ρ ν} {nodes : List (ρ × ν)} :
    Linked heap none nodes ↔ nodes = [] := by
  cases nodes with
  | nil => simp
  | cons node rest => exact iff_of_false (fun linked => nomatch linked.1) (List.cons_ne_nil _ _)

/-- A list is determined by where it starts. -/
theorem Linked.unique {heap : Store ρ ν} {head : Option ρ} {nodes nodes' : List (ρ × ν)}
    (linked : Linked heap head nodes) (linked' : Linked heap head nodes') : nodes = nodes' := by
  induction nodes generalizing head nodes' with
  | nil =>
    obtain rfl := linked
    exact (linked_none.mp linked').symm
  | cons node rest ih =>
    obtain ⟨rfl, next, here, tail⟩ := linked
    rcases nodes' with _ | ⟨⟨address, value⟩, rest'⟩
    · cases linked'
    · obtain ⟨same, next', here', tail'⟩ := linked'
      obtain rfl := Option.some.inj same
      rw [here] at here'
      obtain ⟨rfl, rfl⟩ := Node.mk.inj (Option.some.inj here')
      rw [ih tail tail']

theorem Linked.live {heap : Store ρ ν} {head : Option ρ} {nodes : List (ρ × ν)}
    (linked : Linked heap head nodes) : ∀ node ∈ nodes, node.1 ∈ heap.keys := by
  induction nodes generalizing head with
  | nil => simp
  | cons node rest ih =>
    obtain ⟨_, next, here, tail⟩ := linked
    rw [List.forall_mem_cons]
    exact ⟨load_isSome.mp (Option.isSome_of_mem here), ih tail⟩

/-- A list is read from its own nodes only. -/
theorem Linked.congr {heap heap' : Store ρ ν} {head : Option ρ} {nodes : List (ρ × ν)}
    (linked : Linked heap head nodes)
    (same : ∀ address ∈ nodes.map Prod.fst, load heap' address = load heap address) :
    Linked heap' head nodes := by
  induction nodes generalizing head with
  | nil => exact linked
  | cons node rest ih =>
    obtain ⟨rfl, next, here, tail⟩ := linked
    rw [List.map_cons, List.forall_mem_cons] at same
    exact ⟨rfl, next, same.1.trans here, ih tail same.2⟩

theorem releaseList_none (heap : Store ρ ν) : releaseList heap none = some heap := by
  cases count : heap.keys.card <;> rw [releaseList, count, releaseLoop]

/-- The rest of a list from any of its nodes on. -/
theorem Linked.drop {heap : Store ρ ν} {head : Option ρ} {front back : List (ρ × ν)}
    (linked : Linked heap head (front ++ back)) : ∃ head', Linked heap head' back := by
  induction front generalizing head with
  | nil => exact ⟨head, linked⟩
  | cons node front ih =>
    obtain ⟨_, next, _, tail⟩ := linked
    exact ih tail

/-- No list runs into itself. -/
theorem Linked.nodup {heap : Store ρ ν} {head : Option ρ} {nodes : List (ρ × ν)}
    (linked : Linked heap head nodes) : (nodes.map Prod.fst).Nodup := by
  induction nodes generalizing head with
  | nil => exact List.nodup_nil
  | cons node rest ih =>
    obtain ⟨same, next, here, tail⟩ := linked
    rw [List.map_cons, List.nodup_cons]
    refine ⟨fun member => ?_, ih tail⟩
    -- a second occurrence would start the same list, which is longer than its own rest
    obtain ⟨again, inside, repeated⟩ := List.mem_map.mp member
    obtain ⟨front, back, rfl⟩ := List.append_of_mem inside
    obtain ⟨head', later⟩ := tail.drop
    obtain ⟨rfl, next', here', tail'⟩ := later
    have whole : Linked heap (some again.1) (node :: (front ++ again :: back)) :=
      ⟨congrArg some repeated, next, here, tail⟩
    have part : Linked heap (some again.1) (again :: back) := ⟨rfl, next', here', tail'⟩
    have length := congrArg List.length (whole.unique part)
    simp at length
    omega

/-- A fresh node disturbs no list. -/
theorem Linked.insert {heap : Store ρ ν} {head : Option ρ} {nodes : List (ρ × ν)} {address : ρ}
    (linked : Linked heap head nodes) (fresh : address ∉ heap.keys) (node : Node ρ ν) :
    Linked (heap.insert address node) head nodes := by
  apply linked.congr
  intro other member
  obtain ⟨kept, inside, rfl⟩ := List.mem_map.mp member
  exact load_insert_of_ne heap node fun same => fresh (same ▸ linked.live kept inside)

/-- A fresh node in front of a list. -/
theorem Linked.push {heap : Store ρ ν} {head : Option ρ} {nodes : List (ρ × ν)} {address : ρ}
    (linked : Linked heap head nodes) (fresh : address ∉ heap.keys) (value : ν) :
    Linked (heap.insert address ⟨value, head⟩) (some address) ((address, value) :: nodes) :=
  ⟨rfl, head, load_insert heap address _, linked.insert fresh _⟩

/-- A list is read to its end and in its order. -/
theorem Linked.readLoop_eq {heap : Store ρ ν} {head : Option ρ} {nodes : List (ρ × ν)}
    (linked : Linked heap head nodes) {fuel : Nat} (enough : nodes.length ≤ fuel) :
    readLoop fuel heap head = some (nodes.map Prod.snd) := by
  induction nodes generalizing head fuel with
  | nil =>
    obtain rfl := linked
    cases fuel <;> rfl
  | cons node rest ih =>
    obtain ⟨rfl, next, here, tail⟩ := linked
    cases fuel with
    | zero => simp at enough
    | succ fuel =>
      have rest_eq := ih tail (Nat.le_of_succ_le_succ enough)
      simp [readLoop, here, rest_eq]

theorem Linked.length_le {heap : Store ρ ν} {head : Option ρ} {nodes : List (ρ × ν)}
    (linked : Linked heap head nodes) : nodes.length ≤ heap.keys.card := by
  rw [← List.length_map Prod.fst, ← List.toFinset_card_of_nodup linked.nodup]
  apply Finset.card_le_card
  intro address member
  obtain ⟨node, inside, rfl⟩ := List.mem_map.mp (List.mem_toFinset.mp member)
  exact linked.live node inside

/-- Releasing a list releases its nodes, each once, and leaves the others. -/
theorem Linked.releaseLoop_eq {heap : Store ρ ν} {head : Option ρ} {nodes : List (ρ × ν)}
    (linked : Linked heap head nodes) {count : Nat} (enough : nodes.length ≤ count) :
    ∃ heap', releaseLoop count heap head = some heap' ∧
      heap.keys.val = ((nodes.map Prod.fst : List ρ) : Multiset ρ) + heap'.keys.val ∧
      ∀ address ∈ heap'.keys, load heap' address = load heap address := by
  induction nodes generalizing heap head count with
  | nil =>
    obtain rfl := linked
    exact ⟨heap, by cases count <;> rfl, by simp, fun _ _ => rfl⟩
  | cons node rest ih =>
    have distinct := (List.nodup_cons.mp linked.nodup).1
    obtain ⟨rfl, next, here, tail⟩ := linked
    have live := load_isSome.mp (Option.isSome_of_mem here)
    cases count with
    | zero => simp at enough
    | succ count =>
      -- the released node is none of the rest
      have tail' : Linked (heap.erase node.1) next rest :=
        tail.congr fun address member =>
          load_erase_of_ne heap fun same => distinct (same ▸ member)
      obtain ⟨heap', released, split, kept⟩ := ih tail' (Nat.le_of_succ_le_succ enough)
      refine ⟨heap', ?_, ?_, ?_⟩
      · simp [releaseLoop, here, release_of_load here, released]
      · rw [List.map_cons, ← Multiset.cons_coe, Multiset.cons_add, ← split, Finmap.keys_erase,
          Finset.erase_val, Multiset.cons_erase live]
      · intro address member
        have inside : address ∈ (heap.erase node.1).keys := by
          rw [← Finset.mem_val, split]
          exact Multiset.mem_add.mpr (Or.inr member)
        rw [Finmap.keys_erase, Finset.mem_erase] at inside
        rw [kept address member, load_erase_of_ne heap inside.1]

/-! ### All lists -/

private theorem flatten_modify_cons {α : Type*} {lists : List (List α)} (x : α) {i : Nat}
    (inside : i < lists.length) :
    (lists.modify i (x :: ·)).flatten.Perm (x :: lists.flatten) := by
  induction lists generalizing i with
  | nil => cases inside
  | cons first rest ih =>
    cases i with
    | zero => exact .refl _
    | succ i =>
      have later := ih (Nat.lt_of_succ_lt_succ inside)
      exact (later.append_left first).trans List.perm_middle

section Owns

variable {heap : Store ρ ν} {heads : List (Option ρ)} {lists : List (List (ρ × ν))}

theorem owns_empty : Owns (∅ : Store ρ ν) [] [] := ⟨.nil, rfl⟩

/-- Where there are no lists there are no nodes. -/
theorem Owns.eq_empty (owns : Owns heap [] lists) : heap = ∅ := by
  have used := owns.used
  cases owns.linked
  exact eq_empty_of_keys (Finset.val_eq_zero.mp used)

theorem Owns.concat_none (owns : Owns heap heads lists) :
    Owns heap (heads ++ [none]) (lists ++ [[]]) := by
  constructor
  case linked => exact List.rel_append owns.linked (.cons rfl .nil)
  case used => simpa using owns.used

/-- A fresh node in front of one of the lists. -/
theorem Owns.push (owns : Owns heap heads lists) {i : Nat} {head : Option ρ} {address : ρ}
    (here : heads[i]? = some head) (fresh : address ∉ heap.keys) (value : ν) :
    Owns (heap.insert address ⟨value, head⟩) (heads.modify i fun _ => some address)
      (lists.modify i ((address, value) :: ·)) := by
  have inside : i < lists.length := by
    rw [← owns.linked.length_eq]
    exact (List.getElem?_eq_some_iff.mp here).1
  constructor
  case linked =>
    refine Table.forall₂_modify owns.linked (fun head' nodes there linked => ?_)
      (fun _ _ linked => linked.insert fresh _)
    rw [here] at there
    cases there
    exact linked.push fresh value
  case used =>
    have front := Multiset.coe_eq_coe.mpr
      ((flatten_modify_cons (address, value) inside).map Prod.fst)
    rw [keys_insert, Finset.insert_val_of_notMem fresh, owns.used, front, List.map_cons,
      Multiset.cons_coe]

/-- Releasing the first list leaves the others. -/
theorem Owns.releaseList_eq {head : Option ρ} (owns : Owns heap (head :: heads) lists) :
    ∃ heap' rest, releaseList heap head = some heap' ∧ Owns heap' heads rest := by
  obtain ⟨linked, used⟩ := owns
  cases linked with
  | @cons _ nodes _ rest first others =>
    obtain ⟨heap', released, split, kept⟩ := first.releaseLoop_eq first.length_le
    have left : heap'.keys.val = ((rest.flatten.map Prod.fst : List ρ) : Multiset ρ) := by
      rw [used, List.flatten_cons, List.map_append, ← Multiset.coe_add] at split
      exact (add_left_cancel split).symm
    refine ⟨heap', rest, released, ?_, left⟩
    obtain ⟨length, each⟩ := List.forall₂_iff_zip.mp others
    refine List.forall₂_iff_zip.mpr ⟨length, fun {head nodes} member => ?_⟩
    apply (each member).congr
    intro address inside
    have live : address ∈ heap'.keys.val := by
      rw [left, Multiset.mem_coe, List.map_flatten]
      exact List.mem_flatten_of_mem (List.mem_map_of_mem (List.of_mem_zip member).2) inside
    exact kept address live

end Owns

end Heap
