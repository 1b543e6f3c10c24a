import Mathlib.Data.List.Induction
import Mathlib.Data.List.Forall2

/-!
# Hash-linked lists

Each element stores a hash and the hash of its predecessor, the first one a fixed
start value. When the hash of an element determines its predecessor hash, the
last hash of a list commits to the whole list, its length included.
-/
namespace HashChain

variable {B H : Type*} (hash prev : B → H)

/-- Every element names the hash of the one before it, the first one `start`. -/
def Linked (start : H) : List B → Prop
  | [] => True
  | b :: rest => prev b = start ∧ Linked (hash b) rest

/-- The hash the next element has to name. -/
def tip (start : H) : List B → H
  | [] => start
  | b :: rest => tip (hash b) rest

@[simp] theorem tip_concat (start : H) (bs : List B) (b : B) :
    tip hash start (bs ++ [b]) = hash b := by
  induction bs generalizing start with
  | nil => rfl
  | cons c bs ih => exact ih (hash c)

theorem tip_eq_getLast (start : H) (bs : List B) :
    tip hash start bs = (bs.getLast?.map hash).getD start := by
  rcases List.eq_nil_or_concat' bs with rfl | ⟨front, last, rfl⟩
  · rfl
  · simp

theorem linked_concat (start : H) (bs : List B) (b : B) :
    Linked hash prev start (bs ++ [b]) ↔
      Linked hash prev start bs ∧ prev b = tip hash start bs := by
  induction bs generalizing start with
  | nil => simp [Linked, tip]
  | cons c bs ih => simp only [List.cons_append, Linked, ih, tip, and_assoc]

variable {hash prev} in
/-- Cutting a list keeps the links. -/
theorem Linked.of_append {start : H} {bs cs : List B} (linked : Linked hash prev start (bs ++ cs)) :
    Linked hash prev start bs := by
  induction bs generalizing start with
  | nil => trivial
  | cons b bs ih => exact ⟨linked.1, ih linked.2⟩

theorem prev_of_linked {start : H} {bs : List B} (linked : Linked hash prev start bs) {b : B}
    (member : b ∈ bs) : prev b = start ∨ ∃ c ∈ bs, prev b = hash c := by
  induction bs generalizing start with
  | nil => cases member
  | cons c bs ih =>
    rcases List.mem_cons.mp member with rfl | later
    · exact Or.inl linked.1
    · right
      rcases ih linked.2 later with here | ⟨d, hd, there⟩
      · exact ⟨c, List.mem_cons_self, here⟩
      · exact ⟨d, List.mem_cons_of_mem c hd, there⟩

/-- Rewriting an element keeps the links if it keeps both of its hashes. -/
theorem linked_modify (f : B → B) (keeps : ∀ b, hash (f b) = hash b ∧ prev (f b) = prev b)
    (start : H) (bs : List B) (i : Nat) :
    Linked hash prev start (bs.modify i f) ↔ Linked hash prev start bs := by
  induction bs generalizing start i with
  | nil => simp
  | cons b bs ih =>
    cases i with
    | zero => simp [Linked, (keeps b).1, (keeps b).2]
    | succ i => simp [Linked, ih]

/-- **The tip commits to the history.** Two linked lists that end in the same hash
agree element by element, when equal hashes mean equal predecessors and no element
hashes to the start value. -/
theorem history_of_tip {same : B → B → Prop} {start : H} {bs cs : List B}
    (commits : ∀ b ∈ bs, ∀ c ∈ cs, hash b = hash c → prev b = prev c ∧ same b c)
    (freshLeft : ∀ b ∈ bs, hash b ≠ start) (freshRight : ∀ c ∈ cs, hash c ≠ start)
    (linkedLeft : Linked hash prev start bs) (linkedRight : Linked hash prev start cs)
    (tips : tip hash start bs = tip hash start cs) :
    List.Forall₂ (fun b c => hash b = hash c ∧ prev b = prev c ∧ same b c) bs cs := by
  -- from the end: the last hashes agree, so the last elements do, and the hashes before them
  induction bs using List.reverseRecOn generalizing cs with
  | nil =>
    rcases List.eq_nil_or_concat' cs with rfl | ⟨cs, c, rfl⟩
    · exact .nil
    · rw [tip_concat] at tips
      -- a longer list would end in a fresh hash, not in the start value
      exact absurd tips.symm (freshRight c (by simp))
  | append_singleton bs b ih =>
    rcases List.eq_nil_or_concat' cs with rfl | ⟨cs, c, rfl⟩
    · rw [tip_concat] at tips
      exact absurd tips (freshLeft b (by simp))
    · rw [tip_concat, tip_concat] at tips
      obtain ⟨linkedLeft, prevLeft⟩ := (linked_concat hash prev start bs b).mp linkedLeft
      obtain ⟨linkedRight, prevRight⟩ := (linked_concat hash prev start cs c).mp linkedRight
      obtain ⟨prevs, agree⟩ := commits b (by simp) c (by simp) tips
      -- what precedes the last elements ends in their predecessor hashes, which are equal
      have earlier := ih (fun b hb c hc => commits b (by simp [hb]) c (by simp [hc]))
        (fun b hb => freshLeft b (by simp [hb])) (fun c hc => freshRight c (by simp [hc]))
        linkedLeft linkedRight (by rw [← prevLeft, ← prevRight, prevs])
      exact List.rel_append earlier (.cons ⟨tips, prevs, agree⟩ .nil)

end HashChain
