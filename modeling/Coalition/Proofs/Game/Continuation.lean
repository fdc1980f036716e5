import Mathlib.Data.Nat.Find
import Coalition.Proofs.Game.Play

-- Graphs that lead on where the plays of another end.

set_option autoImplicit false

namespace Coalition

namespace PlayGraph

variable {σ : Type} {g h : PlayGraph σ} {path : Nat → σ} {left right : Set σ} {s : σ} {kind : GoalKind}

theorem Achieves.forces (achieves : g.Achieves kind left right s) : g.Forces kind left right s := by
  have comes : ∀ {path : Nat → σ}, g.Reaches left right path → Comes left right path :=
    fun ⟨n, there, _, between⟩ => ⟨n, there, between⟩
  cases kind with
  | next => exact achieves
  | strong => exact fun path play start => (achieves.2 path play start).imp_left comes
  | weak => exact fun path play start => (achieves.2 path play start).imp_left comes

theorem Forces.achieves (forces : g.Forces kind left right s) (lasts : ∀ path, g.Play path → path 0 = s → ∀ i, path i ∈ g.alive) :
    g.Achieves kind left right s := by
  have here : s ∈ g.alive := by
    obtain ⟨path, play, start⟩ := exists_play g s
    exact start ▸ lasts path play start 0
  have reaches : ∀ path, g.Play path → path 0 = s → Comes left right path → g.Reaches left right path :=
    fun path play start ⟨n, there, between⟩ => ⟨n, there, lasts path play start n, between⟩
  cases kind with
  | next => exact forces
  | strong => exact ⟨here, fun path play start => (forces path play start).imp_left (reaches path play start)⟩
  | weak => exact ⟨here, fun path play start => (forces path play start).imp_left (reaches path play start)⟩

-- The same constraints and the same steps, and more steps only where nothing can be played in `g`.
structure Continues (h g : PlayGraph σ) : Prop where
  alive : g.alive ⊆ h.alive
  step : ∀ s ∈ g.alive, ∀ u, h.step s u → g.step s u
  fairness : h.fairness = g.fairness

namespace Continues

variable (continues : h.Continues g)

include continues

theorem play_or_ends (play : h.Play path) : g.Play path ∨ ∃ k, path k ∉ g.alive ∧ g.Play fun i => path (min i k) := by
  classical
  by_cases ends : ∃ k, path k ∉ g.alive
  · -- the steps up to the first such place are those of the graph that is continued, where the play then stands still
    have before : ∀ i, i < Nat.find ends → path i ∈ g.alive ∧ g.step (path i) (path (i + 1)) := by
      intro i less
      have here := not_not.mp (Nat.find_min ends less)
      exact ⟨here, continues.step _ here _ (play.step (continues.alive here))⟩
    refine .inr ⟨Nat.find ends, Nat.find_spec ends, fun i => ?_⟩
    beta_reduce
    by_cases less : i < Nat.find ends
    · rw [min_eq_left (Nat.le_of_lt less), min_eq_left (Nat.succ_le_of_lt less)]
      exact .inl (before i less)
    · rw [min_eq_right (Nat.le_of_not_lt less), min_eq_right (by omega)]
      exact .inr ⟨Nat.find_spec ends, rfl⟩
  · push Not at ends
    exact .inl fun i => .inl ⟨ends i, continues.step _ (ends i) _ (play.step (continues.alive (ends i)))⟩

-- Where the plays of the graph that is continued come to a goal or are infinite, a play comes to it or is one of them.
theorem comes_or_play (play : h.Play path)
    (forced : ∀ q, g.Play q → q 0 = path 0 → Comes left right q ∨ ∀ i, q i ∈ g.alive) : Comes left right path ∨ g.Play path := by
  obtain same | ⟨k, ended, stopped⟩ := continues.play_or_ends play
  · exact .inr same
  · obtain ⟨n, there, between⟩ | infinite := forced _ stopped (by simp)
    · -- the stopped play is the path itself up to where it stops
      refine .inl ⟨min n k, there, fun i less => ?_⟩
      have inside : path (min i k) ∈ left := between i (lt_of_lt_of_le less (Nat.min_le_left n k))
      rwa [min_eq_left (Nat.le_of_lt (lt_of_lt_of_le less (Nat.min_le_right n k)))] at inside
    · have here : path (min k k) ∈ g.alive := infinite k
      rw [min_self] at here
      exact absurd here ended

theorem unfair (unfair : g.Unfair path) : h.Unfair path := by
  obtain ⟨alive, c, listed, avoids⟩ := unfair
  exact ⟨fun i => continues.alive (alive i), c, continues.fairness ▸ listed, avoids⟩

theorem only_unfair (only : g.OnlyUnfair s) : h.OnlyUnfair s := by
  rintro path play rfl
  have same : Comes ∅ ∅ path ∨ g.Play path := continues.comes_or_play play fun q plays start => .inr (only q plays start).1
  obtain ⟨_, none, _⟩ | same := same
  · exact none.elim
  · exact continues.unfair (only path same rfl)

theorem forces (forced : g.Forces kind left right s) : h.Forces kind left right s := by
  cases kind with
  | next => exact ⟨continues.alive forced.1, fun u step => (forced.2 u (continues.step s forced.1 u step)).imp_right continues.only_unfair⟩
  | strong =>
      rintro path play rfl
      -- what is unfair goes on for ever, so it cannot end where the other graph does
      have either : Comes left right path ∨ g.Play path := continues.comes_or_play play fun q plays start =>
        (forced q plays start).imp_right fun unfair => unfair.1
      obtain comes | same := either
      · exact .inl comes
      · exact (forced path same rfl).imp_right continues.unfair
  | weak =>
      rintro path play rfl
      have either : Comes left right path ∨ g.Play path := continues.comes_or_play play fun q plays start =>
        (forced q plays start).imp_right fun rest => rest.elim (fun unfair => unfair.1) fun stays i => (stays i).1
      obtain comes | same := either
      · exact .inl comes
      · refine (forced path same rfl).imp_right fun rest => rest.imp continues.unfair fun stays i => ?_
        exact ⟨continues.alive (stays i).1, (stays i).2⟩

end Continues

end PlayGraph

end Coalition
