import Coalition.Proofs.Evaluation.Temporal
import Coalition.Proofs.Game.Play

-- Fair paths: infinite paths of transitions that meet every constraint again and again.

set_option autoImplicit false

namespace Coalition

namespace System

variable {sys : System} {s u : Valuation} {path : Nat → Valuation} {stay fair left goal : Set Valuation}

-- An infinite path of steps from the state that meets every constraint again and again.
structure FairPath (sys : System) (s : Valuation) (path : Nat → Valuation) : Prop where
  start : path 0 = s
  step : ∀ i, sys.Step (path i) (path (i + 1))
  fair : ∀ c ∈ sys.fairness, ∀ n, ∃ i, n ≤ i ∧ path i ∈ c.members

def Through (sys : System) (stay : Set Valuation) (s u : Valuation) : Prop := s ∈ stay ∧ sys.Step s u

theorem Step.state (step : sys.Step s u) : sys.stateOf s = s := by
  obtain ⟨τ, _, rfl, _⟩ := step
  exact Frame.state_of_state τ

namespace FairPath

theorem drop (known : sys.FairPath s path) (n : Nat) : sys.FairPath (path n) fun i => path (n + i) := by
  refine ⟨rfl, fun i => known.step (n + i), fun c listed m => ?_⟩
  obtain ⟨i, later, inside⟩ := known.fair c listed (n + m)
  refine ⟨i - n, by omega, ?_⟩
  rwa [Nat.add_sub_cancel' (by omega)]

theorem extend (known : sys.FairPath u path) (step : sys.Step s u) : sys.FairPath s (PlayGraph.extend s path) := by
  refine ⟨rfl, fun i => ?_, fun c listed n => ?_⟩
  · cases i with
    | zero =>
        show sys.Step s (path 0)
        exact known.start.symm ▸ step
    | succ i => exact known.step i
  · obtain ⟨i, later, inside⟩ := known.fair c listed n
    exact ⟨i + 1, by omega, inside⟩

theorem reachable (known : sys.FairPath s path) (reached : sys.Reachable s) (i : Nat) : sys.Reachable (path i) := by
  induction i with
  | zero => exact known.start.symm ▸ reached
  | succ i ih => exact ih.step (known.step i)

theorem approaches (known : sys.FairPath s path) (fairs : ∀ i, path i ∈ fair) {n : Nat} (there : path n ∈ goal)
    (before : ∀ i, i < n → path i ∈ left) : s ∈ OrderHom.lfp (sys.approach fair left goal) := by
  induction n generalizing s path with
  | zero =>
      rw [← OrderHom.map_lfp, ← known.start]
      exact .inl there
  | succ n ih =>
      have later := ih (known.drop 1) (fun i => fairs (1 + i)) (by rwa [Nat.add_comm]) fun i less => before (1 + i) (by omega)
      have step := known.step 0
      rw [← OrderHom.map_lfp, ← known.start]
      exact .inr ⟨before 0 (Nat.succ_pos n), path 1, ⟨later, fairs 1⟩, step.state.symm ▸ step⟩

end FairPath

-- States that lead through `stay` to one another by way of every constraint have a fair path in it.
theorem fair_path_of_again {N : Set Valuation} (member : s ∈ N) (again : ∀ u ∈ N, ∃ v ∈ N, Relation.TransGen (sys.Through stay) u v)
    (meets : ∀ u ∈ N, ∀ c ∈ sys.fairness, ∃ v ∈ N, v ∈ c.members ∧ Relation.TransGen (sys.Through stay) u v) :
    ∃ path, sys.FairPath s path ∧ ∀ i, path i ∈ stay := by
  -- the set of all states is met as well, so that there is something to come to without constraints
  obtain ⟨path, start, steps, met⟩ := PlayGraph.walk_meeting (List.cons_ne_nil Set.univ (sys.fairness.map (·.members)))
    (fun u inside c listed => by
      obtain rfl | listed := List.mem_cons.mp listed
      · obtain ⟨v, there, linked⟩ := again u inside
        exact ⟨v, there, trivial, linked⟩
      · obtain ⟨c, known, rfl⟩ := List.mem_map.mp listed
        exact meets u inside c known) member
  exact ⟨path, ⟨start, fun i => (steps i).2, fun c listed => met c.members (List.mem_cons_of_mem _ (List.mem_map_of_mem listed))⟩,
    fun i => (steps i).1⟩

namespace WellFormed

variable (wf : sys.WellFormed)

include wf

theorem step_state (step : sys.Step s u) : sys.stateOf u = u := by
  obtain ⟨τ, _, _, rfl⟩ := step
  exact Frame.state_of_next wf.laid τ

theorem leads_of_approach (member : s ∈ OrderHom.lfp (sys.approach Set.univ stay goal)) (state : sys.stateOf s = s) :
    ∃ v ∈ goal, sys.stateOf v = v ∧ Relation.ReflTransGen (sys.Through stay) s v := by
  suffices all : OrderHom.lfp (sys.approach Set.univ stay goal) ⊆
      {s | sys.stateOf s = s → ∃ v ∈ goal, sys.stateOf v = v ∧ Relation.ReflTransGen (sys.Through stay) s v} from all member state
  apply OrderHom.lfp_le
  rintro s (there | ⟨here, u, ⟨later, _⟩, step⟩) state
  · exact ⟨s, there, state, .refl⟩
  · rw [state] at step
    obtain ⟨v, there, stateToo, linked⟩ := later (wf.step_state step)
    exact ⟨v, there, stateToo, .head ⟨here, step⟩ linked⟩

theorem mem_always (state : sys.stateOf s = s) : s ∈ sys.always stay ↔ ∃ path, sys.FairPath s path ∧ ∀ i, path i ∈ stay := by
  unfold always
  cases free : sys.fairness.isEmpty with
  | true =>
      have none : sys.fairness = [] := List.isEmpty_iff.mp free
      rw [if_pos rfl]
      constructor
      · intro member
        refine fair_path_of_again (N := {u | u ∈ OrderHom.gfp (sys.proceed stay) ∧ sys.stateOf u = u}) ⟨member, state⟩ ?_ (by simp [none])
        rintro u ⟨inside, state⟩
        rw [← OrderHom.map_gfp] at inside
        obtain ⟨here, v, there, step⟩ := inside
        rw [state] at step
        exact ⟨v, ⟨there, wf.step_state step⟩, .single ⟨here, step⟩⟩
      · -- the states of the path proceed to one another
        rintro ⟨path, known, stays⟩
        refine OrderHom.le_gfp (sys.proceed stay) (a := Set.range path) ?_ ⟨0, known.start⟩
        rintro _ ⟨i, rfl⟩
        have step := known.step i
        exact ⟨stays i, path (i + 1), ⟨i + 1, rfl⟩, step.state.symm ▸ step⟩
  | false =>
      rw [if_neg Bool.false_ne_true]
      constructor
      · intro member
        have meets : ∀ u ∈ {u | u ∈ OrderHom.gfp (sys.linger stay) ∧ sys.stateOf u = u}, ∀ c ∈ sys.fairness,
            ∃ v ∈ {u | u ∈ OrderHom.gfp (sys.linger stay) ∧ sys.stateOf u = u}, v ∈ c.members ∧
              Relation.TransGen (sys.Through stay) u v := by
          rintro u ⟨inside, state⟩ c listed
          rw [← OrderHom.map_gfp] at inside
          obtain ⟨w, near, step⟩ := inside.2 c listed
          rw [state] at step
          obtain ⟨v, ⟨there, met⟩, stateToo, linked⟩ := wf.leads_of_approach near (wf.step_state step)
          exact ⟨v, ⟨there, stateToo⟩, met, .head' ⟨inside.1, step⟩ linked⟩
        obtain ⟨c, listed⟩ := List.exists_mem_of_ne_nil _ (List.isEmpty_eq_false_iff.mp free)
        refine fair_path_of_again (N := {u | u ∈ OrderHom.gfp (sys.linger stay) ∧ sys.stateOf u = u}) ⟨member, state⟩ (fun u inside => ?_) meets
        obtain ⟨v, there, _, linked⟩ := meets u inside c listed
        exact ⟨v, there, linked⟩
      · rintro ⟨path, known, stays⟩
        refine OrderHom.le_gfp (sys.linger stay) (a := Set.range path) ?_ ⟨0, known.start⟩
        rintro _ ⟨i, rfl⟩
        refine ⟨stays i, fun c listed => ?_⟩
        have later := known.drop (i + 1)
        obtain ⟨k, _, met⟩ := later.fair c listed 0
        have step := known.step i
        have near : path (i + 1) ∈ OrderHom.lfp (sys.approach Set.univ stay (Set.range path ∩ c.members)) :=
          later.approaches (fun _ => trivial) ⟨⟨i + 1 + k, rfl⟩, met⟩ fun j _ => stays (i + 1 + j)
        exact ⟨path (i + 1), near, step.state.symm ▸ step⟩

theorem fair_state_set : sys.StateSet sys.fairStates.value := (wf.some_always_spec (.mask _)).1

theorem mem_fair_states (state : sys.stateOf s = s) : s ∈ sys.fairStates.value.members ↔ ∃ path, sys.FairPath s path := by
  have same : sys.fairStates.value.members = sys.always sys.statesMask.members := (wf.some_always_spec (.mask _)).2
  rw [same, wf.mem_always state]
  refine exists_congr fun path => and_iff_left_of_imp fun known i => ?_
  obtain ⟨τ, trans, here, _⟩ := known.step i
  exact here ▸ (Frame.mem_state_of sys.reads_states_mask).mpr (wf.trans_states trans)

end WellFormed

structure Marks (sys : System) (r : Region) (P : Valuation → Prop) : Prop where
  states : sys.StateSet r
  mem : ∀ s, sys.Reachable s → (s ∈ r.members ↔ P s)

namespace WellFormed

variable (wf : sys.WellFormed) {X Y : Region} {P Q : Valuation → Prop}

include wf

theorem marks_outside (p : sys.Marks X P) : sys.Marks (sys.statesOutside X) fun s => ¬ P s := by
  refine ⟨.outside p.states.reads, fun s reached => ?_⟩
  rw [Frame.statesOutside, Region.members_diff, Set.mem_sdiff, p.mem s reached]
  exact and_iff_right (wf.reachable_state_set.inside (wf.mem_of_reachable reached))

theorem marks_next (p : sys.Marks X P) :
    sys.Marks (sys.someNext sys.fairStates.value X) fun s => ∃ path, sys.FairPath s path ∧ P (path 1) := by
  obtain ⟨known, same⟩ := wf.some_next_spec wf.fair_state_set.reads p.states
  refine ⟨known, fun s reached => ?_⟩
  rw [same]
  constructor
  · rintro ⟨u, ⟨inside, fair⟩, step⟩
    rw [wf.reachable_state reached] at step
    obtain ⟨path, known⟩ := (wf.mem_fair_states (wf.step_state step)).mp fair
    refine ⟨_, known.extend step, ?_⟩
    show P (path 0)
    exact known.start.symm ▸ (p.mem u (reached.step step)).mp inside
  · rintro ⟨path, known, holds⟩
    have step := known.step 0
    refine ⟨path 1, ⟨(p.mem _ (known.reachable reached 1)).mpr holds, ?_⟩, ?_⟩
    · exact (wf.mem_fair_states (wf.step_state step)).mpr ⟨_, known.drop 1⟩
    · rw [← known.start, step.state]
      exact step

theorem marks_until (p : sys.Marks X P) (q : sys.Marks Y Q) : sys.Marks (sys.someUntil sys.fairStates.value X Y).value
    fun s => ∃ path, sys.FairPath s path ∧ ∃ n, Q (path n) ∧ ∀ i, i < n → P (path i) := by
  obtain ⟨known, same⟩ := wf.some_until_spec wf.fair_state_set.reads p.states.reads q.states
  refine ⟨known, fun s reached => ?_⟩
  rw [same]
  constructor
  · -- a fair path starts at every target, and each step of the approach goes before one
    intro member
    suffices all : OrderHom.lfp (sys.approach sys.fairStates.value.members X.members
        ((Y.members ∩ sys.fairStates.value.members) ∩ sys.reachable.members)) ⊆ {s | sys.Reachable s →
          ∃ path, sys.FairPath s path ∧ ∃ n, Q (path n) ∧ ∀ i, i < n → P (path i)} from all member reached
    apply OrderHom.lfp_le
    rintro s (⟨⟨there, fair⟩, _⟩ | ⟨here, u, ⟨later, _⟩, step⟩) reached
    · obtain ⟨path, known⟩ := (wf.mem_fair_states (wf.reachable_state reached)).mp fair
      exact ⟨path, known, 0, known.start.symm ▸ (q.mem s reached).mp there, fun i less => absurd less (Nat.not_lt_zero i)⟩
    · rw [wf.reachable_state reached] at step
      obtain ⟨path, known, n, there, before⟩ := later (reached.step step)
      refine ⟨_, known.extend step, n + 1, there, fun i less => ?_⟩
      cases i with
      | zero => exact (p.mem s reached).mp here
      | succ i => exact before i (by omega)
  · rintro ⟨path, known, n, there, before⟩
    have reaches := known.reachable reached
    have fair : ∀ i, path i ∈ sys.fairStates.value.members := fun i =>
      (wf.mem_fair_states (wf.reachable_state (reaches i))).mpr ⟨_, known.drop i⟩
    refine known.approaches fair ⟨⟨(q.mem _ (reaches n)).mpr there, fair n⟩, wf.mem_of_reachable (reaches n)⟩ fun i less => ?_
    exact (p.mem _ (reaches i)).mpr (before i less)

theorem marks_always (p : sys.Marks X P) :
    sys.Marks (sys.someAlways X).value fun s => ∃ path, sys.FairPath s path ∧ ∀ i, P (path i) := by
  obtain ⟨known, same⟩ := wf.some_always_spec p.states
  refine ⟨known, fun s reached => ?_⟩
  rw [same, wf.mem_always (wf.reachable_state reached)]
  refine exists_congr fun path => and_congr_right fun known => forall_congr' fun i => ?_
  exact p.mem _ (known.reachable reached i)

end WellFormed

end System

end Coalition
