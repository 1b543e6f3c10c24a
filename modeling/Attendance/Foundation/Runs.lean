import Mathlib.Data.List.Basic
import Mathlib.Order.Basic

/-!
# Runs of a step function

A run feeds a list of inputs to a step function. Three things are observed: the
final state, the outputs logged on the way, and whether every step was taken in
a state that meets a side condition. `Runs.logged_invariant` is the induction
all safety statements about runs reduce to.
-/
namespace Runs

variable {σ α ω : Type*}

/-- The state reached after all inputs. -/
def final (step : σ → α → σ) (s : σ) : List α → σ
  | [] => s
  | a :: as => final step (step s a) as

/-- Everything logged on the way, in order. -/
def trace (step : σ → α → σ) (out : σ → α → List ω) (s : σ) : List α → List ω
  | [] => []
  | a :: as => out s a ++ trace step out (step s a) as

/-- Every step is taken in a state, and with an input, that meet `ok`. -/
def Guarded (step : σ → α → σ) (ok : σ → α → Prop) (s : σ) : List α → Prop
  | [] => True
  | a :: as => ok s a ∧ Guarded step ok (step s a) as

/-- `p` holds in every state a run passes through, the first one included. -/
def Throughout (step : σ → α → σ) (p : σ → Prop) (s : σ) (as : List α) : Prop :=
  ∀ pre, pre <+: as → p (final step s pre)

variable (step : σ → α → σ)

@[simp] theorem final_nil (s : σ) : final step s [] = s := rfl

@[simp] theorem final_cons (s : σ) (a : α) (as : List α) :
    final step s (a :: as) = final step (step s a) as := rfl

theorem final_append (s : σ) (as bs : List α) :
    final step s (as ++ bs) = final step (final step s as) bs := by
  induction as generalizing s with
  | nil => rfl
  | cons a as ih => simpa only [List.cons_append, final_cons] using ih (step s a)

@[simp] theorem trace_nil (out : σ → α → List ω) (s : σ) : trace step out s [] = [] := rfl

@[simp] theorem trace_cons (out : σ → α → List ω) (s : σ) (a : α) (as : List α) :
    trace step out s (a :: as) = out s a ++ trace step out (step s a) as := rfl

/-- What holds of everything logged holds of what each step logs. -/
theorem guarded_of_forall_mem_trace {out : σ → α → List ω} {p : ω → Prop} {s : σ} {as : List α}
    (all : ∀ w ∈ trace step out s as, p w) :
    Guarded step (fun s a => ∀ w ∈ out s a, p w) s as := by
  induction as generalizing s with
  | nil => trivial
  | cons a as ih =>
    rw [trace_cons, List.forall_mem_append] at all
    exact ⟨all.1, ih all.2⟩

theorem length_trace_le (out : σ → α → List ω) (few : ∀ s a, (out s a).length ≤ 1) (s : σ)
    (as : List α) : (trace step out s as).length ≤ as.length := by
  induction as generalizing s with
  | nil => simp
  | cons a as ih =>
    have here := few s a
    have rest := ih (step s a)
    rw [trace_cons, List.length_append, List.length_cons]
    omega

@[simp] theorem guarded_nil (ok : σ → α → Prop) (s : σ) : Guarded step ok s [] := trivial

instance decidableGuarded (ok : σ → α → Prop) [∀ s a, Decidable (ok s a)] (s : σ) :
    (as : List α) → Decidable (Guarded step ok s as)
  | [] => isTrue trivial
  | a :: as =>
    have := decidableGuarded ok (step s a) as
    inferInstanceAs (Decidable (ok s a ∧ Guarded step ok (step s a) as))

@[simp] theorem guarded_cons (ok : σ → α → Prop) (s : σ) (a : α) (as : List α) :
    Guarded step ok s (a :: as) ↔ ok s a ∧ Guarded step ok (step s a) as := Iff.rfl

theorem guarded_append {ok : σ → α → Prop} (s : σ) (as bs : List α) :
    Guarded step ok s (as ++ bs) ↔ Guarded step ok s as ∧ Guarded step ok (final step s as) bs := by
  induction as generalizing s with
  | nil => simp
  | cons a as ih => simp [ih, and_assoc]

variable {step} in
/-- Side conditions survive cutting the run short. -/
theorem Guarded.of_prefix {ok : σ → α → Prop} {s : σ} {pre as : List α}
    (guarded : Guarded step ok s as) (cut : pre <+: as) : Guarded step ok s pre := by
  induction pre generalizing s as with
  | nil => trivial
  | cons a pre ih =>
    obtain ⟨rest, rfl⟩ := cut
    exact ⟨guarded.1, ih guarded.2 (List.prefix_append pre rest)⟩

variable {step} in
theorem Guarded.and {ok ok' : σ → α → Prop} {s : σ} {as : List α}
    (guarded : Guarded step ok s as) (guarded' : Guarded step ok' s as) :
    Guarded step (fun s a => ok s a ∧ ok' s a) s as := by
  induction as generalizing s with
  | nil => trivial
  | cons a as ih => exact ⟨⟨guarded.1, guarded'.1⟩, ih guarded.2 guarded'.2⟩

theorem guarded_of_forall_mem {ok : σ → α → Prop} {as : List α} (all : ∀ a ∈ as, ∀ s, ok s a)
    (s : σ) : Guarded step ok s as := by
  induction as generalizing s with
  | nil => trivial
  | cons a as ih =>
    rw [List.forall_mem_cons] at all
    exact ⟨all.1 s, ih all.2 (step s a)⟩

/-- A condition on the inputs alone. -/
theorem guarded_iff_forall_mem {ok : α → Prop} (s : σ) (as : List α) :
    Guarded step (fun _ a => ok a) s as ↔ ∀ a ∈ as, ok a := by
  induction as generalizing s with
  | nil => simp
  | cons a as ih => rw [guarded_cons, ih, List.forall_mem_cons]

/-- The induction over a run: an invariant of the state and of everything logged
so far, kept by each guarded step. -/
theorem logged_invariant {ok : σ → α → Prop} (out : σ → α → List ω) (I : List ω → σ → Prop)
    (keeps : ∀ log s a, I log s → ok s a → I (log ++ out s a) (step s a))
    {log : List ω} {s : σ} {as : List α} (initial : I log s) (guarded : Guarded step ok s as) :
    I (log ++ trace step out s as) (final step s as) := by
  induction as generalizing log s with
  | nil => simpa using initial
  | cons a as ih =>
    rw [trace_cons, ← List.append_assoc]
    exact ih (keeps log s a initial guarded.1) guarded.2

/-- The rule for potentials: where each step, with what it logs, lowers a quantity or keeps it,
and keeps it exactly if the step meets `ok`, a run keeps it exactly if all of its steps do. -/
theorem logged_eq_iff_guarded {β : Type*} [PartialOrder β] {side ok : σ → α → Prop}
    (out : σ → α → List ω) (potential : List ω → σ → β) (I : σ → Prop)
    (keeps : ∀ s a, I s → side s a → I (step s a))
    (lowers : ∀ log s a, I s → side s a →
      potential (log ++ out s a) (step s a) ≤ potential log s ∧
      (potential (log ++ out s a) (step s a) = potential log s ↔ ok s a))
    {log : List ω} {s : σ} {as : List α} (initial : I s) (sides : Guarded step side s as) :
    potential (log ++ trace step out s as) (final step s as) ≤ potential log s ∧
    (potential (log ++ trace step out s as) (final step s as) = potential log s ↔
      Guarded step ok s as) := by
  induction as generalizing log s with
  | nil => simp
  | cons a as ih =>
    obtain ⟨lower, same_iff⟩ := lowers log s a initial sides.1
    obtain ⟨rest, rest_iff⟩ := @ih (log ++ out s a) _ (keeps s a initial sides.1) sides.2
    rw [trace_cons, final_cons, guarded_cons, ← List.append_assoc, ← same_iff]
    refine ⟨rest.trans lower, ?_⟩
    constructor
    -- what falls in one step cannot rise again in a later one
    · intro same
      have here := le_antisymm lower (same ▸ rest)
      exact ⟨here, rest_iff.mp (same.trans here.symm)⟩
    · rintro ⟨here, later⟩
      exact (rest_iff.mpr later).trans here

/-- Two step functions in step: where related states log the same and stay related, so do
runs on the same inputs. -/
theorem simulation {τ : Type*} (step' : τ → α → τ) (out : σ → α → List ω) (out' : τ → α → List ω)
    (R : σ → τ → Prop)
    (keeps : ∀ s t a, R s t → out s a = out' t a ∧ R (step s a) (step' t a))
    {s : σ} {t : τ} (related : R s t) (as : List α) :
    trace step out s as = trace step' out' t as ∧ R (final step s as) (final step' t as) := by
  induction as generalizing s t with
  | nil => exact ⟨rfl, related⟩
  | cons a as ih =>
    obtain ⟨same, next⟩ := keeps s t a related
    obtain ⟨rest, last⟩ := ih next
    exact ⟨by rw [trace_cons, trace_cons, same, rest], last⟩

theorem guarded_invariant {ok : σ → α → Prop} (I : σ → Prop)
    (keeps : ∀ s a, I s → ok s a → I (step s a))
    {s : σ} {as : List α} (initial : I s) (guarded : Guarded step ok s as) :
    I (final step s as) := by
  induction as generalizing s with
  | nil => exact initial
  | cons a as ih => exact ih (keeps s a initial guarded.1) guarded.2

/-- The rule for containers: where each step keeps what is there and takes in what it
logs, up to losses, a run ends with everything that was there and was logged exactly
if no step loses anything. -/
theorem content_eq_iff_guarded {ok : σ → α → Prop} (out : σ → α → List ω) (content : σ → List ω)
    (I : σ → Prop) (admitted : α → Prop)
    (keeps : ∀ s a, I s → admitted a → I (step s a))
    (loses : ∀ s a, I s → admitted a → (content (step s a)).Sublist (content s ++ out s a))
    (all_iff : ∀ s a, I s → admitted a → (content (step s a) = content s ++ out s a ↔ ok s a))
    {s : σ} {as : List α} (initial : I s) (all : ∀ a ∈ as, admitted a) :
    (content (final step s as)).Sublist (content s ++ trace step out s as) ∧
    (content (final step s as) = content s ++ trace step out s as ↔ Guarded step ok s as) := by
  induction as generalizing s with
  | nil => simp
  | cons a as ih =>
    have here := all a (List.mem_cons_self ..)
    obtain ⟨rest, rest_iff⟩ := ih (keeps s a initial here)
      (fun b member => all b (List.mem_cons_of_mem a member))
    have first := (loses s a initial here).append_right (trace step out (step s a) as)
    rw [final_cons, trace_cons, guarded_cons, ← List.append_assoc, ← all_iff s a initial here]
    refine ⟨rest.trans first, ?_⟩
    constructor
    -- what a step loses no later step can bring back
    · intro same
      have kept : content (step s a) ++ trace step out (step s a) as =
          content s ++ out s a ++ trace step out (step s a) as :=
        first.eq_of_length_le (same ▸ rest.length_le)
      exact ⟨List.append_cancel_right kept, rest_iff.mp (same.trans kept.symm)⟩
    · rintro ⟨kept, later⟩
      rw [rest_iff.mpr later, kept]

theorem throughout_cons (p : σ → Prop) (s : σ) (a : α) (as : List α) :
    Throughout step p s (a :: as) ↔ p s ∧ Throughout step p (step s a) as := by
  constructor
  · intro all
    refine ⟨all [] List.nil_prefix, ?_⟩
    intro pre cut
    exact all (a :: pre) ((List.cons_prefix_cons).mpr ⟨rfl, cut⟩)
  · rintro ⟨first, rest⟩ pre cut
    cases pre with
    | nil => exact first
    | cons b pre =>
      obtain ⟨rfl, shorter⟩ := List.cons_prefix_cons.mp cut
      exact rest pre shorter

@[simp] theorem throughout_nil (p : σ → Prop) (s : σ) : Throughout step p s [] ↔ p s := by
  simp [Throughout]

instance decidableThroughout (p : σ → Prop) [∀ s, Decidable (p s)] (s : σ) :
    (as : List α) → Decidable (Throughout step p s as)
  | [] => decidable_of_iff _ (throughout_nil step p s).symm
  | a :: as =>
    have := decidableThroughout p (step s a) as
    decidable_of_iff _ (throughout_cons step p s a as).symm

/-- The rule for properties a single step can break: where each step from a state with the
property keeps it exactly if the step meets `ok`, a run has it throughout exactly if all
of its steps do. -/
theorem throughout_iff_guarded {p I : σ → Prop} {side ok : σ → α → Prop}
    (keeps : ∀ s a, I s → side s a → I (step s a))
    (step_iff : ∀ s a, I s → side s a → p s → (p (step s a) ↔ ok s a))
    {s : σ} {as : List α} (initial : I s) (holds : p s) (sides : Guarded step side s as) :
    Throughout step p s as ↔ Guarded step ok s as := by
  induction as generalizing s with
  | nil => simpa using holds
  | cons a as ih =>
    have here := step_iff s a initial sides.1 holds
    have next := keeps s a initial sides.1
    rw [throughout_cons, guarded_cons]
    constructor
    · rintro ⟨_, rest⟩
      have kept := rest [] List.nil_prefix
      exact ⟨here.mp kept, (ih next kept sides.2).mp rest⟩
    · rintro ⟨met, rest⟩
      exact ⟨holds, (ih next (here.mpr met) sides.2).mpr rest⟩

/-- What holds throughout a run holds before and after each of its steps. -/
theorem guarded_of_throughout {p : σ → Prop} {s : σ} {as : List α}
    (all : Throughout step p s as) : Guarded step (fun s a => p s ∧ p (step s a)) s as := by
  induction as generalizing s with
  | nil => trivial
  | cons a as ih =>
    obtain ⟨here, rest⟩ := (throughout_cons step p s a as).mp all
    exact ⟨⟨here, rest [] List.nil_prefix⟩, ih rest⟩

/-! ### The states on the way -/

/-- The states a run passes through, the first and the last included. -/
def states (s : σ) : List α → List σ
  | [] => [s]
  | a :: as => s :: states (step s a) as

theorem head?_states (s : σ) (as : List α) : (states step s as).head? = some s := by
  cases as <;> rfl

theorem final_mem_states (s : σ) (as : List α) : final step s as ∈ states step s as := by
  induction as generalizing s with
  | nil => exact List.mem_singleton_self s
  | cons a as ih => exact List.mem_cons_of_mem s (ih (step s a))

/-- The rule for orders: where each step keeps an invariant and leads upwards, so does the whole
run, from each state on the way to each later one. -/
theorem states_ordered {ok : σ → α → Prop} (I : σ → Prop) (R : σ → σ → Prop) (refl : ∀ s, R s s)
    (trans : ∀ {s t u}, R s t → R t u → R s u)
    (keeps : ∀ s a, I s → ok s a → I (step s a) ∧ R s (step s a)) {s : σ} {as : List α}
    (initial : I s) (guarded : Guarded step ok s as) :
    (states step s as).Pairwise R ∧
      ∀ t ∈ states step s as, I t ∧ R s t ∧ R t (final step s as) := by
  induction as generalizing s with
  | nil =>
    refine ⟨List.pairwise_singleton R s, ?_⟩
    simpa [states] using ⟨initial, refl s⟩
  | cons a as ih =>
    obtain ⟨next, up⟩ := keeps s a initial guarded.1
    obtain ⟨ordered, rest⟩ := ih next guarded.2
    have last := (rest _ (final_mem_states step (step s a) as)).2.1
    rw [states, List.pairwise_cons, List.forall_mem_cons, final_cons]
    refine ⟨⟨fun t member => trans up (rest t member).2.1, ordered⟩,
      ⟨initial, refl s, trans up last⟩, fun t member => ?_⟩
    obtain ⟨held, above, below⟩ := rest t member
    exact ⟨held, trans up above, below⟩

end Runs
