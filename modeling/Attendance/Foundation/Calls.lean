import Mathlib.Logic.Basic

/-!
# Calls and loops of calls

A call returns a flag, leaves a state, and may have left the range of its
arithmetic. A loop of calls stops at the first one that returns false.
-/
namespace Calls

/-- What a call hands back: the C return value, the state it leaves, and whether a
signed operation left the range of its type, where C gives the call no meaning and
a model wraps around. -/
structure Outcome (σ : Type*) where
  ok : Bool
  state : σ
  overflow : Bool := false

variable {σ : Type*}

theorem Outcome.eq_mk {outcome : Outcome σ} {ok : Bool} (returned : outcome.ok = ok) :
    outcome = ⟨ok, outcome.state, outcome.overflow⟩ := by
  subst returned
  rfl

variable (round : σ → Outcome σ)

/-- `for (i = 0; i < n; i++)` around a call whose failure is returned. -/
def repeatFor : Nat → σ → Outcome σ
  | 0, st => ⟨true, st, false⟩
  | n + 1, st =>
    let result := round st
    if result.ok then
      let rest := repeatFor n result.state
      ⟨rest.ok, rest.state, result.overflow || rest.overflow⟩
    else result

/-- `while (!done)` around a call whose failure is returned, for at most as many
rounds as it is given. -/
def repeatWhile (done : σ → Bool) : Nat → σ → Outcome σ
  | 0, st => ⟨true, st, false⟩
  | fuel + 1, st =>
    if done st then ⟨true, st, false⟩
    else
      let result := round st
      if result.ok then
        let rest := repeatWhile done fuel result.state
        ⟨rest.ok, rest.state, result.overflow || rest.overflow⟩
      else result

/-- Every round of a loop is started in a state that meets `p`. -/
def EachRound (p : σ → Prop) : Nat → σ → Prop
  | 0, _ => True
  | n + 1, st => p st ∧ ((round st).ok = true → EachRound p n (round st).state)

theorem EachRound.imp {round : σ → Outcome σ} {p q : σ → Prop} (weaker : ∀ st, p st → q st)
    {n : Nat} {st : σ} (each : EachRound round p n st) : EachRound round q n st := by
  induction n generalizing st with
  | zero => trivial
  | succ n ih => exact ⟨weaker st each.1, fun ok => ih (each.2 ok)⟩

theorem eachRound_of_forall {round : σ → Outcome σ} {p : σ → Prop} (all : ∀ st, p st) (n : Nat)
    (st : σ) : EachRound round p n st := by
  induction n generalizing st with
  | zero => trivial
  | succ n ih => exact ⟨all st, fun _ => ih _⟩

/-- A loop that stays in range does so in each of its rounds. -/
theorem eachRound_of_inRange {round : σ → Outcome σ} {n : Nat} {st : σ}
    (inRange : (repeatFor round n st).overflow = false) :
    EachRound round (fun st => (round st).overflow = false) n st := by
  induction n generalizing st with
  | zero => trivial
  | succ n ih =>
    simp only [repeatFor] at inRange
    split at inRange
    next ok =>
      simp only [Bool.or_eq_false_iff] at inRange
      exact ⟨inRange.1, fun _ => ih inRange.2⟩
    next failed => exact ⟨inRange, fun ok => absurd ok failed⟩

/-- The rule for loops: a relation that composes and that each round meets holds
between the two ends of the loop. -/
theorem repeatFor_rel {p : σ → Prop} (R : σ → σ → Prop) (refl : ∀ st, R st st)
    (trans : ∀ {a b c}, R a b → R b c → R a c) (step : ∀ st, p st → R st (round st).state)
    {n : Nat} {st : σ} (each : EachRound round p n st) : R st (repeatFor round n st).state := by
  induction n generalizing st with
  | zero => exact refl st
  | succ n ih =>
    have first := step st each.1
    simp only [repeatFor]
    split
    next ok => exact trans first (ih (each.2 ok))
    next => exact first

theorem repeatFor_keeps {p : σ → Prop} (I : σ → Prop)
    (step : ∀ st, p st → I st → I (round st).state) {n : Nat} {st : σ}
    (each : EachRound round p n st) (initial : I st) : I (repeatFor round n st).state :=
  repeatFor_rel round (fun before after => I before → I after) (fun _ held => held)
    (fun first second held => second (first held)) step each initial

/-- The rule for loops that never fail: an invariant that counts the rounds left holds at
the start of each of them and at the end. -/
theorem repeatFor_countdown {p : σ → Prop} (I : Nat → σ → Prop)
    (step : ∀ n st, I (n + 1) st → p st ∧ (round st).ok = true ∧ I n (round st).state)
    {n : Nat} {st : σ} (initial : I n st) :
    EachRound round p n st ∧ (repeatFor round n st).ok = true ∧
      I 0 (repeatFor round n st).state := by
  induction n generalizing st with
  | zero => exact ⟨trivial, rfl, initial⟩
  | succ n ih =>
    obtain ⟨here, ok, next⟩ := step n st initial
    obtain ⟨each, all, last⟩ := ih next
    simp only [repeatFor, if_pos ok]
    exact ⟨⟨here, fun _ => each⟩, all, last⟩

/-- The rule for potentials: where each round lowers a quantity or keeps it, and keeps it
exactly if it starts in a state that meets `p`, a loop keeps it exactly if each of its
rounds does. -/
theorem repeatFor_eq_iff {β : Type*} {p q : σ → Prop} (potential : σ → β) (le : β → β → Prop)
    (refl : ∀ x, le x x) (trans : ∀ {x y z}, le x y → le y z → le x z)
    (antisymm : ∀ {x y}, le x y → le y x → x = y) (I : σ → Prop)
    (keeps : ∀ st, q st → I st → I (round st).state)
    (lowers : ∀ st, q st → I st → le (potential (round st).state) (potential st))
    (same_iff : ∀ st, q st → I st → (potential (round st).state = potential st ↔ p st))
    {n : Nat} {st : σ} (initial : I st) (each : EachRound round q n st) :
    le (potential (repeatFor round n st).state) (potential st) ∧
    (potential (repeatFor round n st).state = potential st ↔ EachRound round p n st) := by
  induction n generalizing st with
  | zero => exact ⟨refl _, by simp [repeatFor, EachRound]⟩
  | succ n ih =>
    have first := lowers st each.1 initial
    simp only [repeatFor, EachRound, ← same_iff st each.1 initial]
    split
    next ok =>
      obtain ⟨rest, rest_iff⟩ := ih (keeps st each.1 initial) (each.2 ok)
      refine ⟨trans rest first, ?_⟩
      constructor
      -- the potential cannot fall in this round and rise again in a later one
      · intro same
        have here : potential (round st).state = potential st := antisymm first (same ▸ rest)
        exact ⟨here, fun _ => rest_iff.mp (same.trans here.symm)⟩
      · rintro ⟨here, later⟩
        exact (rest_iff.mpr (later ok)).trans here
    next failed => exact ⟨first, by simp [failed]⟩

/-- The rule for loops that count: where a round succeeds exactly in the states that meet `p`,
and counts exactly if it succeeds, a loop counts at least to `k` exactly if its first `k`
rounds meet `p`. -/
theorem repeatFor_count {p : σ → Prop} (count : σ → Nat)
    (counts : ∀ st, p st → (round st).ok = true ∧ count (round st).state = count st + 1)
    (stops : ∀ st, ¬p st → (round st).ok = false ∧ count (round st).state = count st) {k n : Nat}
    (few : k ≤ n) (st : σ) :
    count st + k ≤ count (repeatFor round n st).state ↔ EachRound round p k st := by
  induction n generalizing k st with
  | zero =>
    obtain rfl : k = 0 := Nat.le_zero.mp few
    exact iff_of_true (Nat.le_refl _) trivial
  | succ n ih =>
    by_cases met : p st
    · obtain ⟨ok, more⟩ := counts st met
      simp only [repeatFor, if_pos ok]
      -- one round more is counted; the others remain to be asked for
      cases k with
      | zero =>
        have rest := (ih (Nat.zero_le n) (round st).state).mpr trivial
        exact iff_of_true (by omega) trivial
      | succ k =>
        have rest := ih (Nat.le_of_succ_le_succ few) (round st).state
        rw [more, Nat.add_assoc, Nat.add_comm 1 k] at rest
        simp only [EachRound, met, ok, true_implies, true_and]
        exact rest
    · obtain ⟨failed, same⟩ := stops st met
      simp only [repeatFor, failed, Bool.false_eq_true, if_false, same]
      -- the first round fails, and the loop stops before it counts anything
      cases k with
      | zero => exact iff_of_true (Nat.le_refl _) trivial
      | succ k => exact iff_of_false (by omega) (fun each => met each.1)

theorem repeatFor_count_le (count : σ → Nat)
    (counts : ∀ st, count (round st).state ≤ count st + 1) (n : Nat) (st : σ) :
    count (repeatFor round n st).state ≤ count st + n := by
  induction n generalizing st with
  | zero => exact Nat.le_refl _
  | succ n ih =>
    have first := counts st
    simp only [repeatFor]
    split
    next =>
      have rest := ih (round st).state
      simp only
      omega
    next => omega

/-- A loop succeeds exactly if each of its rounds does. -/
theorem repeatFor_ok_iff {p : σ → Prop} (ok_iff : ∀ st, (round st).ok = true ↔ p st) (n : Nat)
    (st : σ) : (repeatFor round n st).ok = true ↔ EachRound round p n st := by
  induction n generalizing st with
  | zero => exact iff_of_true rfl trivial
  | succ n ih =>
    simp only [repeatFor, EachRound, ← ok_iff]
    split
    next ok => simp [ok, ih]
    next failed => simp [failed]

/-- The rule for two loops in step: a relation that two rounds keep, while both of them
succeed or both fail, holds between the ends of the loops. -/
theorem repeatFor_sim {round other : σ → Outcome σ} {p q : σ → Prop} (S : σ → σ → Prop)
    (step : ∀ a b, p a → q b → S a b →
      (round a).ok = (other b).ok ∧ S (round a).state (other b).state)
    {n : Nat} {a b : σ} (each : EachRound round p n a) (each' : EachRound other q n b)
    (initial : S a b) : S (repeatFor round n a).state (repeatFor other n b).state := by
  induction n generalizing a b with
  | zero => exact initial
  | succ n ih =>
    obtain ⟨together, next⟩ := step a b each.1 each'.1 initial
    -- the loops go on together or stop together
    simp only [repeatFor, together]
    split
    next ok => exact ih (each.2 (together.trans ok)) (each'.2 ok) next
    next => exact next

/-- A `while` loop whose rounds use up a measure is the `for` loop over it. -/
theorem repeatWhile_eq_repeatFor {round : σ → Outcome σ} {done : σ → Bool} (size : σ → Nat)
    (done_iff : ∀ st, done st = true ↔ size st = 0)
    (uses : ∀ st n, size st = n + 1 → size (round st).state = n) {n : Nat} {st : σ}
    (initial : size st = n) : repeatWhile round done n st = repeatFor round n st := by
  induction n generalizing st with
  | zero => rfl
  | succ n ih =>
    -- the measure says that the loop is not done
    have going : ¬done st = true := by
      rw [done_iff, initial]
      omega
    simp only [repeatWhile, repeatFor, if_neg going, ih (uses st n initial)]

/-- A loop over a state that is seen through a view, round by round, is seen through it as a
whole. -/
theorem repeatWhile_view {τ : Type*} (view : σ → τ) {round : σ → Outcome σ}
    {round' : τ → Outcome τ} {done : σ → Bool} {done' : τ → Bool}
    (same : ∀ st, round' (view st) =
      ⟨(round st).ok, view (round st).state, (round st).overflow⟩)
    (done_view : ∀ st, done' (view st) = done st) (fuel : Nat) (st : σ) :
    repeatWhile round' done' fuel (view st) =
      ⟨(repeatWhile round done fuel st).ok, view (repeatWhile round done fuel st).state,
        (repeatWhile round done fuel st).overflow⟩ := by
  induction fuel generalizing st with
  | zero => rfl
  | succ fuel ih =>
    simp only [repeatWhile, done_view, same, ih]
    split
    · rfl
    · split <;> rfl

end Calls
