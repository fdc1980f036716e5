import Coalition.Proofs.Evaluation.Loops
import Coalition.Proofs.Evaluation.QuerySafety

-- Whatever has been asked before and whatever the options are, the iterations that an evaluation counts are the applications in the loops
-- of planned fixpoints.

set_option autoImplicit false

namespace Coalition

open Eval

namespace Counters

variable (c : Counters) {counter other : Counter} (n : Nat)

theorem value_add : (c.add counter n).value counter = c.value counter + n := by
  unfold value value? add
  rw [List.lookup_cons_self]
  rfl

theorem value_add_other (different : other ≠ counter) : (c.add counter n).value other = c.value other := by
  have apart : (other == counter) = false := by simpa using different
  have kept : ∀ entries : List (Counter × Nat), (entries.filter fun entry => entry.1 ≠ counter).lookup other = entries.lookup other := by
    intro entries
    induction entries with
    | nil => rfl
    | cons entry rest ih =>
        by_cases same : entry.1 = counter
        · rw [List.filter_cons_of_neg (by simp [same]), ih, List.lookup_cons, same, apart]
        · rw [List.filter_cons_of_pos (by simpa using same), List.lookup_cons, List.lookup_cons, ih]
  unfold value value? add
  rw [List.lookup_cons, apart, kept]

end Counters

theorem Eval.counted_counters (c : Counted Region) (m : Memory) :
    ((counted c).run m).2.counters = if 0 < c.steps then m.counters.perform c else m.counters := by
  unfold counted
  split <;> rfl

namespace Evaluator

-- The fixpoints on record beyond those of the base are ones that evaluations compute, and the iterations counted beyond it are their
-- steps.
def Accounts (ev : Evaluator) (base : Counters) (m : Memory) : Prop :=
  ∃ performed : List (Counted Region × Plan), (∀ c ∈ performed, ev.Performs c.1 c.2) ∧
    m.counters.performed = performed.map Prod.fst ++ base.performed ∧
    m.counters.value .fixpointIterations = base.value .fixpointIterations + (performed.map fun c => c.1.steps).sum

-- The computation keeps to memories that evaluations leave, it counts no other iterations than those of fixpoints that evaluations
-- compute, and a value has the property.
abbrev Logs (ev : Evaluator) (base : Counters) {α : Type} (x : Eval α) (post : α → Prop) : Prop :=
  Guards (fun m => m.Kept ev.sys (fun _ => True) ∧ ev.Accounts base m) (fun _ => True) x post

variable {ev : Evaluator} {base : Counters} {α : Type} {m n : Memory} {x y : Eval α} {post : α → Prop}

theorem Accounts.same (accounts : ev.Accounts base m) (record : n.counters.performed = m.counters.performed)
    (same : n.counters.value .fixpointIterations = m.counters.value .fixpointIterations) : ev.Accounts base n := by
  obtain ⟨performed, each, recorded, sum⟩ := accounts
  exact ⟨performed, each, record.trans recorded, same.trans sum⟩

theorem Accounts.more (accounts : ev.Accounts base m) {c : Counted Region} {p : Plan} (performs : ev.Performs c p)
    (more : n.counters = if 0 < c.steps then m.counters.perform c else m.counters) : ev.Accounts base n := by
  split at more
  · obtain ⟨performed, each, recorded, sum⟩ := accounts
    refine ⟨(c, p) :: performed, List.forall_mem_cons.mpr ⟨performs, each⟩, ?_, ?_⟩
    · rw [more, List.map_cons, List.cons_append, ← recorded]
      rfl
    · have counts : n.counters.value .fixpointIterations = m.counters.value .fixpointIterations + c.steps :=
        more ▸ m.counters.value_add c.steps
      rw [counts, sum, List.map_cons, List.sum_cons, Nat.add_assoc, Nat.add_comm _ c.steps]
  · exact accounts.same (by rw [more]) (by rw [more])

theorem Logs.given (logs : ev.Logs base x post) : ev.Logs base x fun a => ev.CanGive x a ∧ post a := by
  intro m kept
  obtain ⟨result, n, ran, still, holds⟩ := logs m kept
  refine ⟨result, n, ran, still, ?_⟩
  cases result with
  | ok a => exact ⟨⟨m, n, kept.1, ran⟩, holds⟩
  | error e => trivial

theorem logs_of_keeps (keeps : ev.Keeps (fun _ => True) post x)
    (accounts : ∀ m, m.Kept ev.sys (fun _ => True) → ev.Accounts base m → ev.Accounts base (x.run m).2) : ev.Logs base x post := by
  intro m kept
  obtain ⟨still, holds⟩ := keeps.run kept.1
  refine ⟨(x.run m).1, (x.run m).2, rfl, ⟨still, accounts m kept.1 kept.2⟩, ?_⟩
  cases ran : x.run m with
  | mk result n =>
      cases result with
      | ok a => exact holds a n ran
      | error e => trivial

theorem logs_quiet (keeps : ev.Keeps (fun _ => True) post x) (quiet : ∀ m, (x.run m).2.counters = m.counters) : ev.Logs base x post :=
  logs_of_keeps keeps fun m _ accounts => accounts.same (by rw [quiet]) (by rw [quiet])

theorem logs_of_except {z : Except Error α} (yields : Yields z post) : ev.Logs base (Eval.ofExcept z) post :=
  guards_of_except yields fun _ _ => trivial

theorem logs_count (counter : Counter) (i : Nat) (other : .fixpointIterations ≠ counter) :
    ev.Logs base (count counter i) fun _ => True :=
  guards_modify fun m kept => ⟨kept.1.count _, kept.2.same rfl (m.counters.value_add_other i other)⟩

theorem logs_counted {c : Counted Region} {p : Plan} (performs : ev.Performs c p) : ev.Logs base (counted c) (· = c.value) :=
  logs_of_keeps (matches_counted (kept_linked _ _) rfl rfl) fun m _ accounts => accounts.more performs (counted_counters c m)

theorem logs_performed {c : Counted Region} {p : Plan} (performs : ev.Performs c p) : ev.Logs base (counted c) fun _ => True :=
  (logs_counted performs).mono fun _ _ => trivial

theorem logs_deciding (logs : ev.Logs base x post) : ev.Logs base (deciding x) post := by
  intro m kept
  obtain ⟨result, n, ran, still, holds⟩ := logs m kept
  refine ⟨result, _, deciding_run ran, ⟨still.1.count _, still.2.same rfl ?_⟩, holds⟩
  show ((n.counters.add .strategicEvaluations 1).add .strategicTime 0).value .fixpointIterations = _
  rw [Counters.value_add_other _ _ (by decide), Counters.value_add_other _ _ (by decide)]

theorem accounts_remembered {c : Counted Region} {p : Plan} (performs : ev.Performs c p) {remember : Region → Memory → Memory}
    (quiet : ∀ r m, (remember r m).counters = m.counters) (accounts : ev.Accounts base m) :
    ev.Accounts base ((do let r ← counted c; modify (remember r); return r : Eval Region).run m).2 := by
  obtain ⟨d, ran⟩ := counted_run c m
  have counters := counted_counters c m
  rw [run_bind ran]
  rw [ran] at counters
  exact accounts.more performs ((quiet c.value _).trans counters)

theorem logs_fair_states (wf : ev.sys.WellFormed) : ev.Logs base ev.fairStates fun fair => ev.CanGive ev.fairStates fair := by
  have logs : ev.Logs base ev.fairStates _ := logs_of_keeps (matches_fair_states (keeps_twins wf)) fun m _ accounts => by
    have asked : (get : Eval Memory).run m = (.ok m, m) := rfl
    unfold fairStates
    rw [run_bind asked]
    cases m.fair with
    | some fair => exact accounts
    | none => exact accounts_remembered .fair (fun _ _ => rfl) accounts
  exact logs.given.mono fun _ given => given.1

section

variable {t : Team} {protocol : Region}

theorem logs_protocol {names : List String} (named : ev.sys.teamOf names = .ok t) :
    ev.Logs base (Eval.protocol ev.sys t) fun protocol => ev.Playing t protocol := by
  have known := (ev.sys.team_of_spec names t named).2
  have logs : ev.Logs base (Eval.protocol ev.sys t) _ := logs_quiet (keeps_protocol trivial known) fun m => by
    obtain ⟨region, n, ran, _, rfl⟩ := ends_protocol (m := m) known
    rw [ran]
    unfold Memory.learned
    split <;> rfl
  exact logs.given.mono fun _ found => ⟨⟨names, named⟩, found.1⟩

variable (wf : ev.sys.WellFormed) (playing : ev.Playing t protocol)

include wf playing

theorem logs_unfair_for : ev.Logs base (ev.unfairFor ⟨ev.sys, t, protocol⟩) fun unfair =>
    ev.CanGive (ev.unfairFor ⟨ev.sys, t, protocol⟩) unfair := by
  have keeps := @keeps_unfair_for ev (fun _ => True) ⟨ev.sys, t, protocol⟩ rfl (playing.plays wf)
  have logs : ev.Logs base (ev.unfairFor ⟨ev.sys, t, protocol⟩) _ := logs_of_keeps keeps fun m _ accounts => by
    have asked : (get : Eval Memory).run m = (.ok m, m) := rfl
    unfold unfairFor
    split
    · exact accounts
    · rw [run_bind asked]
      dsimp only
      cases m.forcesUnfair.lookup t.key with
      | some region => exact accounts
      | none => exact accounts_remembered (.forcesUnfair playing) (fun _ _ => rfl) accounts
  exact logs.given.mono fun _ given => given.1

theorem logs_fair_for : ev.Logs base (fairFor ⟨ev.sys, t, protocol⟩) fun fair => ev.CanGive (fairFor ⟨ev.sys, t, protocol⟩) fair := by
  have keeps := @keeps_fair_for ev (fun _ => True) ⟨ev.sys, t, protocol⟩ rfl (playing.plays wf)
  have logs : ev.Logs base (fairFor ⟨ev.sys, t, protocol⟩) _ := logs_of_keeps keeps fun m _ accounts => by
    have asked : (get : Eval Memory).run m = (.ok m, m) := rfl
    unfold fairFor
    dsimp only
    rw [run_bind asked]
    cases m.permitsFair.lookup t.key with
    | some region => exact accounts
    | none => exact accounts_remembered (.permitsFair playing) (fun _ _ => rfl) accounts
  exact logs.given.mono fun _ given => given.1

end

section

variable (wf : ev.sys.WellFormed) {task : Task} {names : List String} (named : ev.sys.teamOf names = .ok task.team)
  (first : ev.Operand task.goal.left) (second : ev.Operand task.goal.right)

include wf named first second

theorem logs_full_observation : ev.Logs base (ev.fullObservation task) fun _ => True := by
  unfold fullObservation
  refine guards_bind (logs_protocol named) fun protocol playing => ?_
  have unfair := @logs_unfair_for ev base task.team protocol wf playing
  have fair := @logs_fair_for ev base task.team protocol wf playing
  obtain ⟨formula, ability, team, kind, left, right⟩ := task
  cases ability <;> cases kind
  · exact guards_bind unfair fun _ _ => guards_pure trivial
  · exact guards_bind unfair fun _ paths => logs_performed (.forceStrong playing paths first second)
  · exact guards_bind unfair fun _ paths => logs_performed (.forceWeak playing paths first second)
  · exact guards_bind fair fun _ _ => guards_pure trivial
  · exact guards_bind fair fun _ paths => logs_performed (.permitStrong playing paths first second)
  · exact guards_ite (fun _ => guards_bind fair fun _ paths => logs_performed (.permitWeak playing (.inr paths) first second)) fun _ =>
      guards_bind (guards_pure rfl) fun _ all => logs_performed (.permitWeak playing (.inl all.symm) first second)

omit wf first second in
theorem logs_encode_as (key : String) {moves : Region} (played : ev.sys.PlayedSet moves) :
    ev.Logs base (ev.encodeAs key task.team moves) fun _ => True := by
  obtain ⟨of, known⟩ := ev.sys.team_of_spec names task.team named
  have equivalences : ev.Logs base (Eval.equivalence ev.sys task.team) _ := logs_quiet (keeps_equivalence known) fun m => by
    unfold Eval.equivalence
    have asked : (get : Eval Memory).run m = (.ok m, m) := rfl
    rw [run_bind asked]
    cases m.recalled.equivalence ev.sys task.team.names <;> rfl
  unfold encodeAs
  refine settles_get fun m before => guards_bind equivalences fun equivalence ⟨u, ofToo, same⟩ => ?_
  cases encoded : Encoding.ofMoves ev.sys task.team equivalence moves with
  | error e =>
      have restored : ev.Logs base (set m : Eval Unit) fun _ => True := fun _ _ => ⟨.ok (), m, rfl, before, trivial⟩
      exact guards_bind restored fun _ _ => guards_throw trivial
  | ok encoding =>
      have proper : EncodingEntry.Proper ⟨encoding, none⟩ ev.sys := ⟨⟨task.team, u, moves, of, ofToo, played, same ▸ encoded⟩, nofun⟩
      have remembers : ev.Logs base _ _ := logs_quiet (keeps_remember key proper id fun _ => List.Subset.refl _) fun _ => rfl
      refine guards_bind (logs_count _ _ (by decide)) fun _ _ => guards_bind (logs_count _ _ (by decide)) fun _ _ => ?_
      exact guards_bind remembers fun _ _ => guards_pure trivial

theorem logs_encoding_for : ev.Logs base (ev.encodingFor task) fun found => ev.CanGive (ev.encodingFor task) found := by
  have logs : ev.Logs base (ev.encodingFor task) fun _ => True := by
    rw [encoding_for_eq]
    refine settles_get fun m _ => ?_
    cases m.encodings.lookup (ev.encodingKey task) with
    | some entry => exact guards_pure trivial
    | none =>
        refine guards_bind (logs_protocol named) fun protocol playing => ?_
        have encodes := fun {moves : Region} => @logs_encode_as ev base task names named (ev.encodingKey task) moves
        refine guards_ite (fun _ => ?_) fun _ => encodes (playing.plays wf).played
        refine guards_bind (logs_counted (.moves playing .whole first second)) fun moves same => ?_
        have played : ev.sys.PlayedSet moves := same ▸ playing.moves wf (.won .whole (first.state_set wf) (second.state_set wf))
        exact guards_ite (fun _ => guards_pure trivial) fun _ => encodes played
  exact logs.given.mono fun _ given => given.1

theorem logs_encoded_unfair {entry : EncodingEntry} (given : ev.CanGive (ev.encodingFor task) (some entry)) :
    ev.Logs base (encodedUnfair (ev.encodingKey task) entry) fun unfair =>
      ev.CanGive (encodedUnfair (ev.encodingKey task) entry) unfair := by
  obtain ⟨proper, _⟩ := encoding_over wf named first second given
  have logs : ev.Logs base (encodedUnfair (ev.encodingKey task) entry) _ :=
    logs_of_keeps (keeps_encoded_unfair _ proper) fun m _ accounts => by
      unfold encodedUnfair
      cases entry.unfair with
      | some unfair => exact accounts
      | none => exact accounts_remembered (.codedUnfair named first second given) (fun _ _ => rfl) accounts
  exact logs.given.mono fun _ given => given.1

theorem logs_symbolic : ev.Logs base (ev.symbolic task) fun _ => True := by
  unfold symbolic
  refine guards_bind (logs_encoding_for wf named first second) fun found given => ?_
  cases found with
  | none => exact guards_pure trivial
  | some entry =>
      refine guards_bind (logs_encoded_unfair wf named first second given) fun unfair paths => ?_
      exact logs_performed (.coded named first second given paths)

end

section

variable {t : Team} {protocol moves : Region} {goal : Goal} (playing : ev.Playing t protocol) (first : ev.Operand goal.left)
  (second : ev.Operand goal.right)

theorem logs_union_each {f : Region → Eval Region} (e : Enumeration Region) (each : ∀ s ∈ e.items, ev.Logs base (f s) fun _ => True)
    (sat : Region) : ev.Logs base (unionEach f e sat) fun _ => True := by
  induction e generalizing sat with
  | done => exact guards_pure trivial
  | fail error => exact guards_throw trivial
  | item s tail ih =>
      refine guards_bind (each s List.mem_cons_self) fun r _ => ?_
      exact ih () (fun part listed => each part (List.mem_cons_of_mem _ listed)) _

theorem logs_fold {f : Region → Eval Region} (parts : List Region) (each : ∀ part ∈ parts, ev.Logs base (f part) fun _ => True)
    (sat : Region) : ev.Logs base (parts.foldlM (fun sat part => do return sat.union (← f part)) sat) fun _ => True := by
  induction parts generalizing sat with
  | nil => exact guards_pure trivial
  | cons part rest ih =>
      obtain ⟨here, others⟩ := List.forall_mem_cons.mp each
      simp only [List.foldlM_cons, bind_assoc, pure_bind]
      exact guards_bind here fun r _ => ih others _

section

variable (arises : ev.Arises t protocol moves)

include playing first second arises

theorem logs_winning_moves : ev.Logs base (ev.winningMoves t protocol goal moves) (· = ev.filtered t protocol goal moves) :=
  logs_counted (.moves playing arises first second)

theorem logs_winning_states : ev.Logs base (ev.winningStates t protocol goal moves) fun _ => True :=
  guards_bind (logs_count _ _ (by decide)) fun _ _ =>
    guards_bind (logs_winning_moves playing first second arises) fun _ _ => guards_pure trivial

theorem logs_split : ev.Logs base
    (unionEach (ev.winningStates t protocol goal) ((ev.splitter t).split moves .empty) .empty) fun _ => True :=
  logs_union_each _ (fun _ listed => logs_winning_states playing first second (.split arises listed)) _

theorem logs_filter_split_from (wf : ev.sys.WellFormed) (fuel : Nat) :
    ev.Logs base (ev.filterSplitFrom t protocol goal fuel moves) fun _ => True := by
  induction fuel generalizing moves with
  | zero => exact guards_throw trivial
  | succ fuel ih =>
      unfold filterSplitFrom
      refine guards_bind (logs_winning_moves playing first second arises) fun won same => ?_
      have wins : ev.Arises t protocol won := same ▸ .won arises (first.state_set wf) (second.state_set wf)
      refine guards_ite (fun _ => guards_pure trivial) fun _ => ?_
      refine guards_bind (logs_of_except fun _ found => found) fun conflict found => ?_
      cases conflict with
      | none => exact guards_bind (logs_count _ _ (by decide)) fun _ _ => guards_pure trivial
      | some here =>
          refine guards_bind (logs_of_except fun _ found => found) fun parts collected => ?_
          have listed : parts = ((ev.splitter t).splitClass .empty here).items := by
            unfold Enumeration.collect at collected
            split at collected <;> cases collected
            rfl
          exact logs_fold parts (fun part member => ih (.parted wins found (listed ▸ member))) _

end

end

theorem logs_decide (wf : ev.sys.WellFormed) {task : Task} {names : List String} (named : ev.sys.teamOf names = .ok task.team)
    (first : ev.Operand task.goal.left) (second : ev.Operand task.goal.right) : ev.Logs base (ev.decide task) fun _ => True := by
  unfold Evaluator.decide
  refine logs_deciding (guards_ite (fun _ => logs_full_observation wf named first second) fun _ => ?_)
  have played : ∀ f : Region → Eval Region, (∀ protocol, ev.Playing task.team protocol → ev.Logs base (f protocol) fun _ => True) →
      ev.Logs base (Eval.protocol ev.sys task.team >>= f) fun _ => True := fun f later =>
    guards_bind (logs_protocol named) later
  have splits := played _ fun protocol playing => logs_split playing first second .whole
  cases ev.options.variant with
  | splitFilter => exact splits
  | filterSplit => exact played _ fun protocol playing => logs_filter_split_from playing first second .whole wf _
  | filterSplitFilter =>
      refine played _ fun protocol playing => guards_bind (logs_winning_moves playing first second .whole) fun won same => ?_
      refine guards_ite (fun _ => guards_pure trivial) fun _ => logs_split playing first second ?_
      exact same ▸ .won .whole (first.state_set wf) (second.state_set wf)
  | symbolic => exact logs_symbolic wf named first second
  | symbolicFiltered => exact logs_symbolic wf named first second
  | onRequest => exact splits

end Evaluator

end Coalition
