import Mathlib.Logic.Relation
import Coalition.Proofs.Game.Arena

-- The fixpoints of an arena over a graph are the states from which every maximal play achieves the goal or violates fairness.

set_option autoImplicit false

namespace Coalition

-- States where something can be played, and the steps that may follow.
structure PlayGraph (σ : Type) where
  alive : Set σ
  step : σ → σ → Prop
  fairness : List (Set σ)
  continues : ∀ s ∈ alive, ∃ u, step s u

namespace PlayGraph

variable {σ : Type}

section

variable (g : PlayGraph σ)

-- A maximal play. One that ends where nothing can be played repeats its last state.
def Play (path : Nat → σ) : Prop :=
  ∀ i, (path i ∈ g.alive ∧ g.step (path i) (path (i + 1))) ∨ (path i ∉ g.alive ∧ path (i + 1) = path i)

def Unfair (path : Nat → σ) : Prop :=
  (∀ i, path i ∈ g.alive) ∧ ∃ c ∈ g.fairness, ∃ n, ∀ i, n ≤ i → path i ∉ c

-- The play comes to `right`, where something can be played, and before that stays in `left`.
def Reaches (left right : Set σ) (path : Nat → σ) : Prop :=
  ∃ n, path n ∈ right ∧ path n ∈ g.alive ∧ ∀ i, i < n → path i ∈ left

def Comes (left right : Set σ) (path : Nat → σ) : Prop := ∃ n, path n ∈ right ∧ ∀ i, i < n → path i ∈ left

def Stays (left : Set σ) (path : Nat → σ) : Prop := ∀ i, path i ∈ g.alive ∧ path i ∈ left

-- All plays from the state are infinite and unfair.
def OnlyUnfair (s : σ) : Prop := ∀ path, g.Play path → path 0 = s → g.Unfair path

def Achieves (kind : GoalKind) (left right : Set σ) (s : σ) : Prop :=
  s ∈ g.alive ∧
    match kind with
    | .next => ∀ u, g.step s u → u ∈ right ∨ g.OnlyUnfair u
    | .strong => ∀ path, g.Play path → path 0 = s → g.Reaches left right path ∨ g.Unfair path
    | .weak => ∀ path, g.Play path → path 0 = s →
        g.Reaches left right path ∨ g.Unfair path ∨ g.Stays left path

-- The goal is forced by everything that may follow the state, where an until may also end in a state where nothing can be played.
def Forces (kind : GoalKind) (left right : Set σ) (s : σ) : Prop :=
  match kind with
  | .next => s ∈ g.alive ∧ ∀ u, g.step s u → u ∈ right ∨ g.OnlyUnfair u
  | .strong => ∀ path, g.Play path → path 0 = s → Comes left right path ∨ g.Unfair path
  | .weak => ∀ path, g.Play path → path 0 = s → Comes left right path ∨ g.Unfair path ∨ g.Stays left path

def arena : Arena σ where
  top := g.alive
  force := ⟨fun X => {s | s ∈ g.alive ∧ ∀ u, g.step s u → u ∈ X}, fun _ _ le _ member =>
    ⟨member.1, fun u step => le (member.2 u step)⟩⟩
  constraints := g.fairness
  force_top _ _ member := member.1

def arenaOver {T : Set σ} (wide : g.alive ⊆ T) : Arena σ where
  top := T
  force := g.arena.force
  constraints := g.fairness
  force_top _ _ member := wide member.1

end

theorem walk_of_trans_gen {R : σ → σ → Prop} {a b : σ} (related : Relation.TransGen R a b) :
    ∃ (n : Nat) (f : Nat → σ), f 0 = a ∧ f (n + 1) = b ∧ ∀ i, i ≤ n → R (f i) (f (i + 1)) := by
  induction related with
  | @single b one =>
      refine ⟨0, fun i => if i = 0 then a else b, rfl, rfl, fun i le => ?_⟩
      have zero : i = 0 := by omega
      simpa [zero] using one
  | @tail b c _ last ih =>
      obtain ⟨n, f, first, final, steps⟩ := ih
      refine ⟨n + 1, fun i => if i ≤ n + 1 then f i else c, by simpa using first, by simp, fun i le => ?_⟩
      by_cases inside : i ≤ n
      · have before : i ≤ n + 1 := by omega
        simpa [before, inside] using steps i inside
      · have same : i = n + 1 := by omega
        have after : ¬ n + 1 + 1 ≤ n + 1 := by omega
        subst same
        simp only [if_pos (Nat.le_refl (n + 1)), if_neg after, final]
        exact last

-- One infinite walk through checkpoints each of which leads to the next.
theorem walk_through {R : σ → σ → Prop} {q : Nat → σ} (linked : ∀ j, Relation.TransGen R (q j) (q (j + 1))) :
    ∃ p : Nat → σ, p 0 = q 0 ∧ (∀ i, R (p i) (p (i + 1))) ∧ ∀ j, ∃ k, j ≤ k ∧ p k = q j := by
  choose n f first final steps using fun j => walk_of_trans_gen (linked j)
  -- the walk is run segment by segment; a place is a segment and an index in it
  let next : Nat × Nat → Nat × Nat := fun place => if place.2 < n place.1 then (place.1, place.2 + 1) else (place.1 + 1, 0)
  let place : Nat → Nat × Nat := fun k => next^[k] (0, 0)
  have succ : ∀ k, place (k + 1) = next (place k) := fun k => Function.iterate_succ_apply' next k (0, 0)
  have inside : ∀ k, (place k).2 ≤ n (place k).1 := by
    intro k
    induction k with
    | zero => exact Nat.zero_le _
    | succ k ih =>
        rw [succ]
        by_cases less : (place k).2 < n (place k).1
        · simp only [next, if_pos less]
          omega
        · simp only [next, if_neg less]
          exact Nat.zero_le _
  have along : ∀ j k, place k = (j, 0) → ∀ r, r ≤ n j → place (k + r) = (j, r) := by
    intro j k start r
    induction r with
    | zero => exact fun _ => start
    | succ r ih =>
        intro le
        have less : r < n j := by omega
        rw [← Nat.add_assoc, succ, ih (by omega)]
        simp [next, less]
  have visits : ∀ j, ∃ k, j ≤ k ∧ place k = (j, 0) := by
    intro j
    induction j with
    | zero => exact ⟨0, Nat.le_refl 0, rfl⟩
    | succ j ih =>
        obtain ⟨k, later, start⟩ := ih
        refine ⟨k + n j + 1, by omega, ?_⟩
        rw [succ, along j k start (n j) (Nat.le_refl _)]
        simp [next]
  refine ⟨fun k => f (place k).1 (place k).2, first 0, fun k => ?_, fun j => ?_⟩
  · simp only [succ]
    have step := steps (place k).1 (place k).2 (inside k)
    by_cases less : (place k).2 < n (place k).1
    · simpa only [next, if_pos less] using step
    · have same : (place k).2 = n (place k).1 := by
        have le := inside k
        omega
      simp only [next, if_neg less, first]
      rw [same, final] at step
      simpa only [same] using step
  · obtain ⟨k, later, start⟩ := visits j
    exact ⟨k, later, by simp only [start, first]⟩

theorem walk_meeting {R : σ → σ → Prop} {N : Set σ} {sets : List (Set σ)} (listed : sets ≠ [])
    (again : ∀ s ∈ N, ∀ c ∈ sets, ∃ v ∈ N, v ∈ c ∧ Relation.TransGen R s v) {s : σ} (member : s ∈ N) :
    ∃ p : Nat → σ, p 0 = s ∧ (∀ i, R (p i) (p (i + 1))) ∧ ∀ c ∈ sets, ∀ n, ∃ i, n ≤ i ∧ p i ∈ c := by
  have positive : 0 < sets.length := List.length_pos_iff.mpr listed
  let target : Nat → Set σ := fun j => sets.get ⟨j % sets.length, Nat.mod_lt _ positive⟩
  have targetListed : ∀ j, target j ∈ sets := fun j => List.getElem_mem _
  choose v vMember vTarget vLinked using fun (u : N) (j : Nat) => again u.1 u.2 (target j) (targetListed j)
  let q : Nat → N := fun j => Nat.rec ⟨s, member⟩ (fun j u => ⟨v u j, vMember u j⟩) j
  obtain ⟨p, start, steps, visits⟩ := walk_through (q := fun j => (q j).1) fun j => vLinked (q j) j
  refine ⟨p, start, steps, fun c cListed n => ?_⟩
  obtain ⟨m, bound, same⟩ := List.getElem_of_mem cListed
  obtain ⟨k, later, here⟩ := visits (n * sets.length + m + 1)
  refine ⟨k, ?_, ?_⟩
  · have more : n ≤ n * sets.length := Nat.le_mul_of_pos_right n positive
    omega
  · have inside := vTarget (q (n * sets.length + m)) (n * sets.length + m)
    have index : (n * sets.length + m) % sets.length = m := by
      rw [Nat.mul_comm, Nat.mul_add_mod, Nat.mod_eq_of_lt bound]
    simp only [target, index, List.get_eq_getElem, same] at inside
    rw [here]
    exact inside

section

variable {g : PlayGraph σ} {path : Nat → σ} {left right : Set σ} {s : σ}

theorem exists_play (g : PlayGraph σ) (s : σ) : ∃ path, g.Play path ∧ path 0 = s := by
  classical
  choose next step using fun u : g.alive => g.continues u.1 u.2
  let go : σ → σ := fun u => if here : u ∈ g.alive then next ⟨u, here⟩ else u
  refine ⟨fun i => go^[i] s, fun i => ?_, rfl⟩
  simp only [Function.iterate_succ_apply']
  by_cases here : go^[i] s ∈ g.alive
  · refine .inl ⟨here, ?_⟩
    simp only [go, dif_pos here]
    exact step ⟨_, here⟩
  · exact .inr ⟨here, by simp [go, here]⟩

theorem Play.drop (play : g.Play path) (n : Nat) : g.Play fun i => path (n + i) := fun i => play (n + i)

theorem Play.step (play : g.Play path) {i : Nat} (here : path i ∈ g.alive) : g.step (path i) (path (i + 1)) := by
  obtain ⟨_, step⟩ | ⟨dead, _⟩ := play i
  · exact step
  · exact absurd here dead

theorem Play.dead (play : g.Play path) {i : Nat} (dead : path i ∉ g.alive) (k : Nat) : path (i + k) = path i := by
  induction k with
  | zero => rfl
  | succ k ih =>
      obtain ⟨here, _⟩ | ⟨_, same⟩ := play (i + k)
      · exact absurd (ih ▸ here) dead
      · exact same.trans ih

theorem Play.alive_before (play : g.Play path) {n i : Nat} (here : path n ∈ g.alive) (le : i ≤ n) : path i ∈ g.alive := by
  by_contra dead
  have same := play.dead dead (n - i)
  rw [Nat.add_sub_cancel' le] at same
  exact dead (same ▸ here)

def extend (s : σ) (path : Nat → σ) : Nat → σ
  | 0 => s
  | i + 1 => path i

theorem Play.extend (play : g.Play path) (here : s ∈ g.alive) (step : g.step s (path 0)) : g.Play (extend s path) := by
  intro i
  cases i with
  | zero => exact .inl ⟨here, step⟩
  | succ i => exact play i

theorem Unfair.of_drop (play : g.Play path) {n : Nat} (unfair : g.Unfair fun i => path (n + i)) : g.Unfair path := by
  obtain ⟨alive, c, listed, m, avoids⟩ := unfair
  refine ⟨fun i => ?_, c, listed, n + m, fun i le => ?_⟩
  · exact play.alive_before (alive i) (Nat.le_add_left i n)
  · have outside : path (n + (i - n)) ∉ c := avoids (i - n) (by omega)
    rwa [Nat.add_sub_cancel' (Nat.le_of_add_right_le le)] at outside

theorem Comes.of_drop {n : Nat} (before : ∀ i, i < n → path i ∈ left) (comes : Comes left right fun i => path (n + i)) :
    Comes left right path := by
  obtain ⟨m, there, between⟩ := comes
  refine ⟨n + m, there, fun i less => ?_⟩
  by_cases early : i < n
  · exact before i early
  · have inside : path (n + (i - n)) ∈ left := between (i - n) (by omega)
    rwa [Nat.add_sub_cancel' (Nat.le_of_not_lt early)] at inside

theorem Play.comes_alive (play : g.Play path) : Comes (left ∩ g.alive) (right ∩ g.alive) path ↔ g.Reaches left right path := by
  constructor
  · rintro ⟨n, ⟨there, alive⟩, between⟩
    exact ⟨n, there, alive, fun i less => (between i less).1⟩
  · rintro ⟨n, there, alive, between⟩
    exact ⟨n, ⟨there, alive⟩, fun i less => ⟨between i less, play.alive_before alive (Nat.le_of_lt less)⟩⟩

theorem stays_alive : g.Stays (left ∩ g.alive) path ↔ g.Stays left path :=
  forall_congr' fun _ => ⟨fun stays => ⟨stays.1, stays.2.1⟩, fun stays => ⟨stays.1, stays.2, stays.1⟩⟩

variable {T : Set σ} {wide : g.alive ⊆ T}

theorem mem_force {X : Set σ} : s ∈ (g.arenaOver wide).force X ↔ s ∈ g.alive ∧ ∀ u, g.step s u → u ∈ X := Iff.rfl

theorem only_unfair_of_unfair (member : s ∈ (g.arenaOver wide).unfair) : g.OnlyUnfair s := by
  suffices all : (g.arenaOver wide).unfair ⊆ {s | g.OnlyUnfair s} from all member
  apply OrderHom.lfp_le
  rintro s ⟨c, listed, alive, forced⟩ path play start
  subst start
  by_contra fair
  have avoids : ∀ i, path (i + 1) ∈ OrderHom.gfp ((g.arenaOver wide).avoid Set.univ ∅ c {s | g.OnlyUnfair s}) := by
    intro i
    induction i with
    | zero => exact forced _ (play.step alive)
    | succ i ih =>
        obtain ⟨_, _, none | next⟩ := (g.arenaOver wide).avoid_unfolds ih
        · exact none.elim
        · exact next.2 _ (play.step next.1)
  have outside : ∀ i, path (i + 1) ∈ g.alive ∧ path (i + 1) ∉ c := by
    intro i
    obtain ⟨_, bad | out, next⟩ := (g.arenaOver wide).avoid_unfolds (avoids i)
    · have later : g.Unfair fun k => path (i + 1 + k) := bad _ (play.drop (i + 1)) rfl
      exact absurd (Unfair.of_drop play later) fair
    · exact ⟨(next.resolve_left (Set.notMem_empty _)).1, out.2⟩
  refine fair ⟨fun i => ?_, c, listed, 1, fun i le => ?_⟩
  · cases i with
    | zero => exact alive
    | succ i => exact (outside i).1
  · have out := (outside (i - 1)).2
    rwa [Nat.sub_add_cancel le] at out

end

def Moves (g : PlayGraph σ) (goal : Set σ) (s u : σ) : Prop := s ∈ g.alive ∧ s ∉ goal ∧ g.step s u

section

variable {g : PlayGraph σ} {T : Set σ} {wide : g.alive ⊆ T} {left right stay goal Z : Set σ} {s : σ}

-- What is not in the greatest set that avoids `c` leads to a way out: out of `stay`, to an end, or outside `Z` to `c`.
theorem leads_out {c : Set σ} (goalStay : goal ⊆ stay) (goalWon : goal ⊆ Z)
    (outside : s ∉ OrderHom.gfp ((g.arenaOver wide).avoid stay goal c Z)) :
    ∃ v, Relation.ReflTransGen (g.Moves goal) s v ∧ v ∉ goal ∧ (v ∉ stay ∨ v ∉ g.alive ∨ v ∉ Z ∧ v ∈ c) := by
  by_contra none
  apply outside
  refine OrderHom.le_gfp ((g.arenaOver wide).avoid stay goal c Z) (a := {u | ¬ ∃ v, Relation.ReflTransGen (g.Moves goal) u v ∧ v ∉ goal ∧
    (v ∉ stay ∨ v ∉ g.alive ∨ v ∉ Z ∧ v ∈ c)}) ?_ none
  intro u blocked
  by_cases won : u ∈ goal
  · exact ⟨⟨goalStay won, .inl (goalWon won)⟩, .inl won⟩
  · have stays : u ∈ stay := by
      by_contra out
      exact blocked ⟨u, .refl, won, .inl out⟩
    have here : u ∈ g.alive := by
      by_contra dead
      exact blocked ⟨u, .refl, won, .inr (.inl dead)⟩
    have place : u ∈ Z ∨ u ∈ T ∧ u ∉ c := by
      by_contra out
      push Not at out
      exact blocked ⟨u, .refl, won, .inr (.inr ⟨out.1, out.2 (wide here)⟩)⟩
    refine ⟨⟨stays, place⟩, .inr ⟨here, fun w step => ?_⟩⟩
    rintro ⟨v, linked, rest⟩
    exact blocked ⟨v, .head ⟨here, won, step⟩ linked, rest⟩

-- From a state outside `Z` every constraint can be met again outside `Z`, unless there is an end or a way out of `stay`.
theorem leads_again (goalStay : goal ⊆ stay) (goalWon : goal ⊆ Z) (here : s ∈ g.alive)
    (notGoal : s ∉ goal) {c : Set σ} (escapes : s ∉ (g.arenaOver wide).force (OrderHom.gfp ((g.arenaOver wide).avoid stay goal c Z))) :
    ∃ v, Relation.TransGen (g.Moves goal) s v ∧ v ∉ goal ∧ (v ∉ stay ∨ v ∉ g.alive ∨ v ∉ Z ∧ v ∈ c) := by
  rw [mem_force] at escapes
  push Not at escapes
  obtain ⟨u, step, outside⟩ := escapes here
  obtain ⟨v, linked, rest⟩ := leads_out goalStay goalWon outside
  exact ⟨v, .head' ⟨here, notGoal, step⟩ linked, rest⟩

-- Some play from the state neither reaches the goal nor is unfair, nor stays if that is enough.
def Lost (g : PlayGraph σ) (mayStay : Prop) (left right : Set σ) (s : σ) : Prop :=
  ∃ path, g.Play path ∧ path 0 = s ∧ ¬ Comes left right path ∧ ¬ g.Unfair path ∧ ¬ (mayStay ∧ g.Stays left path)

theorem lost_before {mayStay : Prop} {v : σ} (linked : Relation.ReflTransGen (g.Moves right) s v)
    (lost : g.Lost mayStay left right v) : g.Lost mayStay left right s := by
  induction linked using Relation.ReflTransGen.head_induction_on with
  | refl => exact lost
  | @head s u move _ ih =>
      obtain ⟨here, notRight, step⟩ := move
      obtain ⟨path, play, start, unreached, fair, leaves⟩ := ih
      refine ⟨extend s path, play.extend here (start ▸ step), rfl, ?_, ?_, ?_⟩
      · rintro ⟨n, there, between⟩
        cases n with
        | zero => exact notRight there
        | succ n => exact unreached ⟨n, there, fun i less => between (i + 1) (by omega)⟩
      · rintro ⟨alive, c, listed, n, avoids⟩
        exact fair ⟨fun i => alive (i + 1), c, listed, n, fun i le => avoids (i + 1) (by omega)⟩
      · rintro ⟨may, stays⟩
        exact leaves ⟨may, fun i => stays (i + 1)⟩

theorem lost_of_walk {p : Nat → σ} (steps : ∀ i, g.Moves right (p i) (p (i + 1)))
    (meets : ∀ c ∈ g.fairness, ∀ n, ∃ i, n ≤ i ∧ p i ∈ c) : g.Lost False left right (p 0) := by
  refine ⟨p, fun i => .inl ⟨(steps i).1, (steps i).2.2⟩, rfl, ?_, ?_, fun both => both.1⟩
  · rintro ⟨n, there, _⟩
    exact (steps n).2.1 there
  · rintro ⟨_, c, listed, n, avoids⟩
    obtain ⟨i, le, inside⟩ := meets c listed n
    exact avoids i le inside

theorem fair_of_not_unfair (outside : s ∉ (g.arenaOver wide).unfair) : ∃ path, g.Play path ∧ path 0 = s ∧ ¬ g.Unfair path := by
  suffices lost : g.Lost False ∅ ∅ s by
    obtain ⟨path, play, start, _, fair, _⟩ := lost
    exact ⟨path, play, start, fair⟩
  -- the play that ends is fair, and without constraints so is any play
  by_cases ends : ∃ v, Relation.ReflTransGen (g.Moves ∅) s v ∧ v ∉ g.alive
  · obtain ⟨v, linked, dead⟩ := ends
    obtain ⟨path, play, start⟩ := exists_play g v
    refine lost_before linked ⟨path, play, start, ?_, fun unfair => dead (start ▸ unfair.1 0), fun both => both.1⟩
    rintro ⟨_, there, _⟩
    exact there
  · push Not at ends
    by_cases free : g.fairness = []
    · obtain ⟨path, play, start⟩ := exists_play g s
      refine ⟨path, play, start, ?_, ?_, fun both => both.1⟩
      · rintro ⟨_, there, _⟩
        exact there
      · rintro ⟨_, c, listed, _⟩
        simp [free] at listed
    · -- the states outside `unfair` that come after `s` lead to one another through every constraint
      have again : ∀ u ∈ {u | Relation.ReflTransGen (g.Moves ∅) s u ∧ u ∉ (g.arenaOver wide).unfair}, ∀ c ∈ g.fairness,
          ∃ v ∈ {u | Relation.ReflTransGen (g.Moves ∅) s u ∧ u ∉ (g.arenaOver wide).unfair}, v ∈ c ∧ Relation.TransGen (g.Moves ∅) u v := by
        rintro u ⟨linked, fair⟩ c listed
        have escapes : u ∉ (g.arenaOver wide).force (OrderHom.gfp ((g.arenaOver wide).avoid Set.univ ∅ c (g.arenaOver wide).unfair)) := by
          intro forced
          apply fair
          rw [← Arena.unfair_eq]
          exact ⟨c, listed, forced⟩
        obtain ⟨v, more, _, out | dead | ⟨vFair, inside⟩⟩ := leads_again (Set.empty_subset _) (Set.empty_subset _)
          (ends u linked) (Set.notMem_empty u) escapes
        · exact absurd (Set.mem_univ v) out
        · exact absurd (ends v (linked.trans more.to_reflTransGen)) dead
        · exact ⟨v, ⟨linked.trans more.to_reflTransGen, vFair⟩, inside, more⟩
      obtain ⟨p, start, steps, meets⟩ := walk_meeting free again ⟨Relation.ReflTransGen.refl, outside⟩
      rw [← start]
      exact lost_of_walk steps meets

theorem mem_unfair : s ∈ (g.arenaOver wide).unfair ↔ g.OnlyUnfair s := by
  constructor
  · exact only_unfair_of_unfair
  · intro only
    by_contra outside
    obtain ⟨path, play, start, fair⟩ := fair_of_not_unfair outside
    exact fair (only path play start)

-- The states where a goal is won or can be waited for, and a play does not end before.
def waiting {T : Set σ} (wide : g.alive ⊆ T) (left right : Set σ) : Set σ := (g.arenaOver wide).staying left right ∩ (right ∪ g.alive)

theorem lost_of_not_waiting {mayStay : Prop} (outside : s ∉ waiting wide left right) : g.Lost mayStay left right s := by
  have notRight : s ∉ right := fun there => outside ⟨.inl (.inl there), .inl there⟩
  by_cases here : s ∈ g.alive
  · have fair : s ∉ (g.arenaOver wide).unfair := fun bad => outside ⟨.inr bad, .inr here⟩
    have notLeft : s ∉ left := fun there => outside ⟨.inl (.inr there), .inr here⟩
    obtain ⟨path, play, rfl, fairPath⟩ := fair_of_not_unfair fair
    refine ⟨path, play, rfl, ?_, fairPath, fun both => notLeft (both.2 0).2⟩
    rintro ⟨n, there, between⟩
    cases n with
    | zero => exact notRight there
    | succ n => exact notLeft (between 0 (Nat.succ_pos n))
  · obtain ⟨path, play, rfl⟩ := exists_play g s
    refine ⟨path, play, rfl, ?_, fun unfair => here (unfair.1 0), fun both => here (both.2 0).1⟩
    rintro ⟨n, there, _⟩
    have same := play.dead here n
    rw [Nat.zero_add] at same
    exact notRight (same ▸ there)

theorem comes_of_strong_free (free : g.fairness.isEmpty = true) (member : s ∈ (g.arenaOver wide).strong left right) {path : Nat → σ}
    (play : g.Play path) (start : path 0 = s) : Comes left right path := by
  suffices all : (g.arenaOver wide).strong left right ⊆ {s | ∀ path, g.Play path → path 0 = s → Comes left right path} from
    all member path play start
  apply (g.arenaOver wide).strong_le_free free
  rintro s (there | ⟨on, here, forced⟩) path play rfl
  · exact ⟨0, there, fun i less => absurd less (Nat.not_lt_zero i)⟩
  · refine Comes.of_drop (n := 1) (fun i less => ?_) (forced _ (play.step here) _ (play.drop 1) rfl)
    have zero : i = 0 := by omega
    exact zero ▸ on

theorem waits_of_staying {path : Nat → σ} (play : g.Play path) (unreached : ¬ Comes left right path) (fair : ¬ g.Unfair path) {i : Nat}
    (before : ∀ k, k < i → path k ∈ left) (stays : path i ∈ (g.arenaOver wide).staying left right) : path i ∉ right ∧ path i ∈ left := by
  have notRight : path i ∉ right := fun there => unreached ⟨i, there, before⟩
  obtain (there | on) | bad := stays
  · exact absurd there notRight
  · exact ⟨notRight, on⟩
  · exact absurd (Unfair.of_drop play (only_unfair_of_unfair bad _ (play.drop i) rfl)) fair

theorem comes_of_strong (fairness : g.fairness.isEmpty = false) (member : s ∈ (g.arenaOver wide).strong left right) {path : Nat → σ}
    (play : g.Play path) (start : path 0 = s) : Comes left right path ∨ g.Unfair path := by
  suffices all : (g.arenaOver wide).strong left right ⊆ {s | ∀ path, g.Play path → path 0 = s → Comes left right path ∨ g.Unfair path} from
    all member path play start
  apply (g.arenaOver wide).strong_le fairness
  rintro s ⟨stay, won⟩ path play rfl
  by_contra lost
  push Not at lost
  obtain ⟨unreached, fair⟩ := lost
  obtain ⟨notRight, on⟩ := waits_of_staying play unreached fair (fun k less => absurd less (Nat.not_lt_zero k)) stay
  obtain there | ⟨c, listed, here, forced⟩ := won
  · exact notRight there
  · generalize whole : {s | ∀ path, g.Play path → path 0 = s → Comes left right path ∨ g.Unfair path} = U at forced
    have avoids : ∀ i, (∀ k, k < i + 1 → path k ∈ left) ∧ path i ∈ g.alive ∧ path (i + 1) ∈
        OrderHom.gfp ((g.arenaOver wide).avoid ((g.arenaOver wide).staying left right) right c U) := by
      intro i
      induction i with
      | zero =>
          refine ⟨fun k less => ?_, here, forced _ (play.step here)⟩
          have zero : k = 0 := by omega
          exact zero ▸ on
      | succ i ih =>
          obtain ⟨before, _, known⟩ := ih
          obtain ⟨stays, _, next⟩ := (g.arenaOver wide).avoid_unfolds known
          obtain ⟨notThere, onHere⟩ := waits_of_staying play unreached fair before stays
          have step := next.resolve_left notThere
          refine ⟨fun k less => ?_, step.1, step.2 _ (play.step step.1)⟩
          by_cases last : k = i + 1
          · exact last ▸ onHere
          · exact before k (by omega)
    have outside : ∀ i, path (i + 1) ∉ c := by
      intro i
      obtain ⟨before, _, known⟩ := avoids i
      obtain ⟨_, good | out, _⟩ := (g.arenaOver wide).avoid_unfolds known
      · rw [← whole] at good
        obtain comes | unfair := good _ (play.drop (i + 1)) rfl
        · exact absurd (Comes.of_drop before comes) unreached
        · exact absurd (Unfair.of_drop play unfair) fair
      · exact out.2
    refine fair ⟨fun i => (avoids i).2.1, c, listed, 1, fun i le => ?_⟩
    have out := outside (i - 1)
    rwa [Nat.sub_add_cancel le] at out

theorem comes_of_weak (member : s ∈ (g.arenaOver wide).weak left right) {path : Nat → σ} (play : g.Play path) (start : path 0 = s) :
    Comes left right path ∨ g.Unfair path ∨ g.Stays left path := by
  by_contra lost
  push Not at lost
  obtain ⟨unreached, fair, leaves⟩ := lost
  have waits : ∀ i, path i ∈ (g.arenaOver wide).weak left right ∧ ∀ k, k < i → path k ∈ g.alive ∧ path k ∈ left := by
    intro i
    induction i with
    | zero => exact ⟨start ▸ member, fun k less => absurd less (Nat.not_lt_zero k)⟩
    | succ i ih =>
        obtain ⟨known, before⟩ := ih
        rw [Arena.weak_eq] at known
        obtain ⟨stays, won⟩ := known
        obtain ⟨notRight, on⟩ := waits_of_staying play unreached fair (fun k less => (before k less).2) stays
        have next := won.resolve_left notRight
        refine ⟨next.2 _ (play.step next.1), fun k less => ?_⟩
        by_cases last : k = i
        · exact last ▸ ⟨next.1, on⟩
        · exact before k (by omega)
  exact leaves fun i => (waits (i + 1)).2 i (by omega)

-- Outside the strong until every constraint can be met again, as long as there is no way off.
theorem again_of_not_strong (stays : ∀ v, Relation.ReflTransGen (g.Moves right) s v → v ∈ waiting wide left right)
    (outside : s ∉ (g.arenaOver wide).strong left right) {c : Set σ} (listed : c ∈ g.fairness) :
    ∃ v, v ∉ (g.arenaOver wide).strong left right ∧ v ∈ c ∧ Relation.TransGen (g.Moves right) s v := by
  have fair : (g.arenaOver wide).constraints.isEmpty = false := List.isEmpty_eq_false_iff.mpr (List.ne_nil_of_mem listed)
  have unfolded := outside
  rw [(g.arenaOver wide).strong_eq fair] at unfolded
  have here := stays s .refl
  have notRight : s ∉ right := fun there => unfolded ⟨here.1, .inl there⟩
  have escapes := fun forced => unfolded ⟨here.1, .inr ⟨c, listed, forced⟩⟩
  have goalWon : right ⊆ (g.arenaOver wide).strong left right := by
    intro u there
    rw [(g.arenaOver wide).strong_eq fair]
    exact ⟨.inl (.inl there), .inl there⟩
  obtain ⟨v, linked, notThere, rest⟩ := leads_again (fun u there => .inl (.inl there)) goalWon (here.2.resolve_left notRight)
    notRight escapes
  have inside := stays v linked.to_reflTransGen
  rcases rest with off | dead | ⟨lost, met⟩
  · exact absurd inside.1 off
  · exact absurd (inside.2.resolve_left notThere) dead
  · exact ⟨v, lost, met, linked⟩

theorem again_of_not_strong_free (free : g.fairness.isEmpty = true) (inside : s ∈ waiting wide left right)
    (outside : s ∉ (g.arenaOver wide).strong left right) :
    ∃ v, v ∉ (g.arenaOver wide).strong left right ∧ Relation.TransGen (g.Moves right) s v := by
  have unfolded := outside
  rw [(g.arenaOver wide).strong_eq_free free] at unfolded
  have notRight : s ∉ right := fun there => unfolded (.inl there)
  have here := inside.2.resolve_left notRight
  have on : s ∈ left := by
    obtain (there | on) | bad := inside.1
    · exact absurd there notRight
    · exact on
    · rw [(g.arenaOver wide).unfair_empty (List.isEmpty_iff.mp free)] at bad
      exact bad.elim
  have escapes : ¬ s ∈ (g.arenaOver wide).force ((g.arenaOver wide).strong left right) := fun forced => unfolded (.inr ⟨on, forced⟩)
  rw [mem_force] at escapes
  push Not at escapes
  obtain ⟨v, step, lost⟩ := escapes here
  exact ⟨v, lost, .single ⟨here, notRight, step⟩⟩

theorem lost_of_not_strong (outside : s ∉ (g.arenaOver wide).strong left right) : g.Lost False left right s := by
  by_cases off : ∃ v, Relation.ReflTransGen (g.Moves right) s v ∧ v ∉ waiting wide left right
  · obtain ⟨v, linked, notWaiting⟩ := off
    exact lost_before linked (lost_of_not_waiting notWaiting)
  · push Not at off
    let lost : Set σ := {u | Relation.ReflTransGen (g.Moves right) s u ∧ u ∉ (g.arenaOver wide).strong left right}
    have again : ∀ (sets : List (Set σ)), (∀ u ∈ lost, ∀ c ∈ sets, ∃ v, v ∉ (g.arenaOver wide).strong left right ∧ v ∈ c ∧
        Relation.TransGen (g.Moves right) u v) →
        ∀ u ∈ lost, ∀ c ∈ sets, ∃ v ∈ lost, v ∈ c ∧ Relation.TransGen (g.Moves right) u v := by
      rintro sets more u known c listed
      obtain ⟨v, next, met, linked⟩ := more u known c listed
      exact ⟨v, ⟨known.1.trans linked.to_reflTransGen, next⟩, met, linked⟩
    cases fair : g.fairness.isEmpty with
    | true =>
        obtain ⟨p, start, steps, _⟩ := walk_meeting (List.cons_ne_nil Set.univ []) (again _ fun u known c listed => by
          obtain ⟨v, next, linked⟩ := again_of_not_strong_free fair (off u known.1) known.2
          exact ⟨v, next, List.mem_singleton.mp listed ▸ trivial, linked⟩) ⟨.refl, outside⟩
        rw [← start]
        exact lost_of_walk steps fun c listed => by simp [List.isEmpty_iff.mp fair] at listed
    | false =>
        obtain ⟨p, start, steps, meets⟩ := walk_meeting (List.isEmpty_eq_false_iff.mp fair) (again _ fun u known c listed =>
          again_of_not_strong (fun v after => off v (known.1.trans after)) known.2 listed) ⟨.refl, outside⟩
        rw [← start]
        exact lost_of_walk steps meets

theorem lost_of_not_weak (outside : s ∉ (g.arenaOver wide).weak left right) : g.Lost True left right s := by
  suffices off : ∃ v, Relation.ReflTransGen (g.Moves right) s v ∧ v ∉ waiting wide left right by
    obtain ⟨v, linked, notWaiting⟩ := off
    exact lost_before linked (lost_of_not_waiting notWaiting)
  by_contra never
  push Not at never
  apply outside
  refine OrderHom.le_gfp ((g.arenaOver wide).remain _ _)
    (a := {u | ∀ v, Relation.ReflTransGen (g.Moves right) u v → v ∈ waiting wide left right}) ?_ never
  intro u stays
  have inside := stays u .refl
  refine ⟨inside.1, ?_⟩
  by_cases there : u ∈ right
  · exact .inl there
  · have here := inside.2.resolve_left there
    exact .inr ⟨here, fun w step v linked => stays v (.head ⟨here, there, step⟩ linked)⟩

theorem mem_strong : s ∈ (g.arenaOver wide).strong left right ↔
    ∀ path, g.Play path → path 0 = s → Comes left right path ∨ g.Unfair path := by
  constructor
  · intro member path play start
    cases fair : g.fairness.isEmpty with
    | true => exact .inl (comes_of_strong_free fair member play start)
    | false => exact comes_of_strong fair member play start
  · intro achieved
    by_contra outside
    obtain ⟨path, play, start, unreached, fair, _⟩ := lost_of_not_strong outside
    exact (achieved path play start).elim unreached fair

theorem mem_weak : s ∈ (g.arenaOver wide).weak left right ↔
    ∀ path, g.Play path → path 0 = s → Comes left right path ∨ g.Unfair path ∨ g.Stays left path := by
  constructor
  · exact fun member path play start => comes_of_weak member play start
  · intro achieved
    by_contra outside
    obtain ⟨path, play, start, unreached, fair, leaves⟩ := lost_of_not_weak outside
    rcases achieved path play start with comes | unfair | stays
    · exact unreached comes
    · exact fair unfair
    · exact leaves ⟨trivial, stays⟩

theorem mem_next : s ∈ (g.arenaOver wide).next right ↔ s ∈ g.alive ∧ ∀ u, g.step s u → u ∈ right ∨ g.OnlyUnfair u := by
  refine and_congr_right fun _ => forall_congr' fun u => imp_congr_right fun _ => ?_
  rw [Set.mem_union, mem_unfair]

-- The fixpoints of the arena are the states from which all plays achieve the goal.
theorem mem_wins (kind : GoalKind) : s ∈ g.arena.wins kind left right ↔ g.Achieves kind left right s := by
  have same : g.arena = g.arenaOver (Set.Subset.refl _) := rfl
  cases kind with
  | next =>
      show s ∈ (g.arenaOver (Set.Subset.refl _)).next right ↔ _
      exact mem_next
  | strong =>
      show s ∈ g.arena.strong (left ∩ g.alive) (right ∩ g.alive) ↔ _
      have here : s ∈ g.arena.strong (left ∩ g.alive) (right ∩ g.alive) → s ∈ g.alive := fun member =>
        g.arena.strong_subset_top Set.inter_subset_right Set.inter_subset_right member
      rw [← and_iff_right_of_imp here, same, mem_strong]
      refine and_congr_right fun _ => forall₂_congr fun path play => imp_congr_right fun _ => ?_
      rw [play.comes_alive]
  | weak =>
      show s ∈ g.arena.weak (left ∩ g.alive) (right ∩ g.alive) ↔ _
      have here : s ∈ g.arena.weak (left ∩ g.alive) (right ∩ g.alive) → s ∈ g.alive := fun member =>
        g.arena.weak_subset_top Set.inter_subset_right Set.inter_subset_right member
      rw [← and_iff_right_of_imp here, same, mem_weak]
      refine and_congr_right fun _ => forall₂_congr fun path play => imp_congr_right fun _ => ?_
      rw [play.comes_alive, stays_alive]

-- Over all states they are those from which all plays force it.
theorem mem_wins_over (kind : GoalKind) :
    s ∈ (g.arenaOver (Set.subset_univ g.alive)).wins kind left right ↔ g.Forces kind left right s := by
  cases kind with
  | next => exact mem_next
  | strong =>
      show s ∈ (g.arenaOver _).strong (left ∩ Set.univ) (right ∩ Set.univ) ↔ _
      rw [Set.inter_univ, Set.inter_univ]
      exact mem_strong
  | weak =>
      show s ∈ (g.arenaOver _).weak (left ∩ Set.univ) (right ∩ Set.univ) ↔ _
      rw [Set.inter_univ, Set.inter_univ]
      exact mem_weak

end

end PlayGraph

end Coalition
