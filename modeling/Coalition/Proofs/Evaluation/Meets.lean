import Coalition.Proofs.Evaluation.Refine

-- Evaluations that keep an invariant of the memory, also when they fail, and give values with a property; some of them have to give one.

set_option autoImplicit false

namespace Coalition

def Lasting (I : Memory → Prop) : Prop := ∀ m c, I m → I { m with counters := c }

namespace Eval

variable {α β : Type} {I : Memory → Prop} {must : Prop} {x : Eval α} {f : α → Eval β} {post before : α → Prop} {after : β → Prop}

-- From memories with the invariant the computation leaves such memories, and what it gives has the property. If it must, it gives a
-- value.
def Meets (I : Memory → Prop) (must : Prop) (x : Eval α) (post : α → Prop) : Prop :=
  ∀ m, I m → I (x.run m).2 ∧ match (x.run m).1 with
    | .ok a => post a
    | .error _ => ¬ must

theorem Meets.ok {m n : Memory} {a : α} (meets : Meets I must x post) (holds : I m) (ran : x.run m = (.ok a, n)) : I n ∧ post a := by
  have known := meets m holds
  rw [ran] at known
  exact known

theorem Meets.gives {m : Memory} (meets : Meets I must x post) (holds : I m) (needed : must) :
    ∃ a n, x.run m = (.ok a, n) ∧ I n ∧ post a := by
  cases ran : x.run m with
  | mk result n =>
      have known := meets m holds
      rw [ran] at known
      cases result with
      | ok a => exact ⟨a, n, rfl, known⟩
      | error e => exact absurd needed known.2

theorem meets_pure {a : α} (holds : post a) : Meets I must (pure a) post := fun _ kept => ⟨kept, holds⟩

theorem meets_throw {e : Error} (free : ¬ must) : Meets I must (throw e : Eval α) post := fun _ kept => ⟨kept, free⟩

theorem meets_bind (first : Meets I must x before) (next : ∀ a, before a → Meets I must (f a) after) :
    Meets I must (x >>= f) after := by
  intro m kept
  have known := first m kept
  cases ran : x.run m with
  | mk result n =>
      rw [ran] at known
      cases result with
      | ok a =>
          rw [run_bind ran]
          exact next a known.2 n known.1
      | error e =>
          rw [run_bind_error ran]
          exact known

theorem Meets.mono (meets : Meets I must x before) (le : ∀ a, before a → post a) : Meets I must x post := by
  intro m kept
  refine ⟨(meets m kept).1, ?_⟩
  have known := (meets m kept).2
  split at known
  · exact le _ known
  · exact known

theorem Meets.and (meets : Meets I must x post) (also : Meets I must x before) : Meets I must x fun a => post a ∧ before a := by
  intro m kept
  have known := (meets m kept).2
  have more := (also m kept).2
  refine ⟨(meets m kept).1, ?_⟩
  cases ran : (x.run m).1 with
  | ok a =>
      rw [ran] at known more
      exact ⟨known, more⟩
  | error e =>
      rw [ran] at known
      exact known

theorem meets_get {f : Memory → Eval β} (next : ∀ m, I m → Meets I must (f m) after) : Meets I must (get >>= f) after :=
  fun m kept => next m kept m kept

theorem meets_modify {g : Memory → Memory} (keeps : ∀ m, I m → I (g m)) : Meets I must (modify g : Eval Unit) fun _ => True :=
  fun m kept => ⟨keeps m kept, trivial⟩

theorem meets_of_except {z : Except Error α} (gives : ∀ a, z = .ok a → post a) (works : must → ∃ a, z = .ok a) :
    Meets I must (ofExcept z) post := by
  cases z with
  | ok a => exact meets_pure (gives a rfl)
  | error e => exact meets_throw fun needed => by obtain ⟨_, ⟨⟩⟩ := works needed

theorem meets_of_ok (a : α) : Meets I must (ofExcept (.ok a)) fun b => a = b := meets_pure rfl

theorem meets_of_ends (ends : ∀ m, I m → Ends x m fun a n => post a ∧ I n) : Meets I must x post := by
  intro m kept
  obtain ⟨a, n, ran, holds, keptToo⟩ := ends m kept
  rw [ran]
  exact ⟨keptToo, holds⟩

section

variable (lasting : Lasting I)

include lasting

theorem meets_count (counter : Counter) (n : Nat) : Meets I must (count counter n) fun _ => True :=
  meets_modify fun m => lasting m _

theorem meets_counted {post : Region → Prop} {c : Counted Region} (holds : post c.value) : Meets I must (counted c) post := by
  refine meets_of_ends fun m kept => ?_
  obtain ⟨d, ran⟩ := counted_run c m
  exact ⟨_, _, ran, holds, lasting m d kept⟩

theorem meets_deciding (meets : Meets I must x post) : Meets I must (deciding x) post := by
  intro m kept
  have known := meets m kept
  cases ran : x.run m with
  | mk result n =>
      rw [ran] at known
      rw [deciding_run ran]
      exact ⟨lasting n _ known.1, known.2⟩

end

-- The computation finds out which of the requested states belong to `X`, at least if it is `exact`.
def Tells (sys : System) (I : Memory → Prop) (must exact : Prop) (run : Region → Eval Region) (X : Region) : Prop :=
  ∀ states, sys.StateSet states → Meets I must (run states) fun r => sys.StateSet r ∧ (exact → r = X.inter states)

def TellsIn (sys : System) (I : Memory → Prop) (must : Prop) (sure : Set Valuation) (run : Region → Eval Region) (X : Region) : Prop :=
  ∀ states, sys.StateSet states → Meets I must (run states) fun r => ∀ ρ ∈ sure, ρ ∈ r.members ↔ ρ ∈ (X.inter states).members

end Eval

end Coalition
