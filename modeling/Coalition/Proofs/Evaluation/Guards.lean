import Coalition.Evaluation.OnStates
import Coalition.Proofs.Evaluation.Repeated
import Coalition.Proofs.Model.Names

-- What is remembered and what the operands give is always fit for the next step, so that nothing fails but atoms and names that stand for
-- nothing, and encodings that do not fit in the reserve.

set_option autoImplicit false

namespace Coalition

namespace Eval

variable {α β : Type} {I : Memory → Prop} {blame : Error → Prop} {x y : Eval α} {f : α → Eval β} {before post : α → Prop}
  {after : β → Prop}

-- A value with one property, or an error with another.
def Outcome (blame : Error → Prop) (post : α → Prop) : Except Error α → Prop
  | .ok a => post a
  | .error e => blame e

-- From memories of some kind the computation ends in a value with a property or in an error with another, and leaves such a memory.
abbrev Guards (I : Memory → Prop) (blame : Error → Prop) (x : Eval α) (post : α → Prop) : Prop := Settles I (Outcome blame post) x

theorem guards_pure {a : α} (holds : post a) : Guards I blame (pure a) post := settles_pure holds

theorem guards_throw {e : Error} (holds : blame e) : Guards I blame (throw e : Eval α) post := settles_throw holds

theorem guards_bind (first : Guards I blame x before) (next : ∀ a, before a → Guards I blame (f a) after) : Guards I blame (x >>= f) after :=
  settles_bind first (fun _ fails => fails) next

theorem guards_of_value {a : α} (settles : Settles I (· = .ok a) x) (holds : post a) : Guards I blame x post := by
  intro m kept
  obtain ⟨result, n, ran, still, rfl⟩ := settles m kept
  exact ⟨_, n, ran, still, holds⟩

theorem Settles.mono {P Q : Except Error α → Prop} (settles : Settles I P x) (le : ∀ result, P result → Q result) : Settles I Q x := by
  intro m kept
  obtain ⟨result, n, ran, still, holds⟩ := settles m kept
  exact ⟨result, n, ran, still, le result holds⟩

theorem Guards.mono (guards : Guards I blame x before) (le : ∀ a, before a → post a) : Guards I blame x post := by
  refine Settles.mono guards fun result holds => ?_
  cases result with
  | ok a => exact le a holds
  | error e => exact holds

theorem guards_of_except {z : Except Error α} (yields : Yields z post) (fails : ∀ e, z = .error e → blame e) :
    Guards I blame (ofExcept z) post := by
  cases z with
  | ok a => exact guards_pure (yields a rfl)
  | error e => exact guards_throw (fails e rfl)

theorem guards_modify {f : Memory → Memory} (keeps : ∀ m, I m → I (f m)) : Guards I blame (modify f : Eval Unit) fun _ => True :=
  guards_of_value (settles_modify keeps) trivial

theorem guards_ite {c : Prop} [Decidable c] (yes : c → Guards I blame x post) (no : ¬ c → Guards I blame y post) :
    Guards I blame (if c then x else y) post := by
  by_cases holds : c
  · rw [if_pos holds]
    exact yes holds
  · rw [if_neg holds]
    exact no holds

end Eval

def Error.ShortReserve (e : Error) : Prop := ∃ requested reserved, e.cause = .space (.notEnoughReserved requested reserved)

namespace Encoding

-- Moves of the team are not encoded: the reserve is short, or a list of actions has no room.
def Refuses (sys : System) (t : Team) (e : Error) : Prop :=
  e.ShortReserve ∨ e = .space .noRoom ∧ ∃ moves, sys.PlayedSet moves ∧ ¬ Fits sys t moves

theorem of_moves_refused {sys : System} (wf : sys.WellFormed) {t : Team} (of : t.Of sys) {equivalence moves : Region}
    (played : sys.PlayedSet moves) {e : Error} (failed : ofMoves sys t equivalence moves = .error e) :
    e.ShortReserve ∨ e = .space .noRoom ∧ ¬ Fits sys t moves := by
  obtain failed | ⟨os, _, failed⟩ := error_of_bind failed
  · exact .inr (observations_error wf of played failed)
  · -- with the observations at hand, it is the variables that are refused
    obtain failed | ⟨_, _, ⟨⟩⟩ := error_of_bind failed
    unfold Frame.strategyVars Space.scratch at failed
    split at failed
    · cases failed
    · rename_i refused
      cases failed
      split at refused <;> cases refused
      exact .inl ⟨_, _, rfl⟩

theorem of_moves_refuses {sys : System} (wf : sys.WellFormed) {t : Team} (of : t.Of sys) {equivalence moves : Region}
    (played : sys.PlayedSet moves) {e : Error} (failed : ofMoves sys t equivalence moves = .error e) : Refuses sys t e :=
  (of_moves_refused wf of played failed).imp id fun crowded => ⟨crowded.1, moves, played, crowded.2⟩

end Encoding

namespace Evaluator

open Eval

abbrev Safe (ev : Evaluator) (blame : Error → Prop) {α : Type} (x : Eval α) (post : α → Prop) : Prop :=
  Guards (fun m => m.Kept ev.sys fun _ => True) blame x post

variable {ev : Evaluator} {blame : Error → Prop} {α : Type}

theorem kept_lasting (sys : System) (teams : Team → Prop) : Lasting fun m => m.Kept sys teams := fun _ c kept => kept.count c

theorem safe_count (counter : Counter) (n : Nat) : ev.Safe blame (count counter n) fun _ => True :=
  guards_of_value (settles_count (kept_lasting _ _) counter n) trivial

theorem safe_counted {c : Counted Region} {post : Region → Prop} (holds : post c.value) : ev.Safe blame (counted c) post :=
  guards_of_value (settles_counted (kept_lasting _ _) c) holds

theorem safe_deciding {x : Eval α} {post : α → Prop} (safe : ev.Safe blame x post) : ev.Safe blame (deciding x) post :=
  settles_deciding (kept_lasting _ _) safe

theorem safe_of_keeps {P : α → Prop} {x : Eval α} (keeps : ev.Keeps (fun _ => True) P x)
    (ends : ∀ m : Memory, m.Kept ev.sys (fun _ => True) → ∃ a n, x.run m = (.ok a, n)) : ev.Safe blame x P := by
  intro m kept
  obtain ⟨a, n, ran⟩ := ends m kept
  obtain ⟨still, holds⟩ := keeps.run kept
  rw [ran] at still
  exact ⟨.ok a, n, ran, still, holds a n ran⟩

section

variable {t : Team} (named : ev.sys.team t.names = .ok t)

include named

theorem safe_protocol : ev.Safe blame (Eval.protocol ev.sys t) fun p => ∃ u : Team, u.Of ev.sys ∧ p = ev.sys.protocolOf u :=
  safe_of_keeps (keeps_protocol trivial named) fun m _ => by
    obtain ⟨p, n, ran, _⟩ := ends_protocol (m := m) named
    exact ⟨p, n, ran⟩

theorem safe_equivalence : ev.Safe blame (Eval.equivalence ev.sys t) fun r => ∃ u : Team, u.Of ev.sys ∧ r = ev.sys.equivalenceOf u := by
  refine safe_of_keeps (keeps_equivalence named) fun m _ => ?_
  have asked : ∃ entry, m.recalled.equivalence ev.sys t.names = .ok entry := by
    unfold Recall.equivalence
    cases m.recalled.relations.lookup (teamKey t.names) with
    | some region => exact ⟨_, rfl⟩
    | none =>
        rw [named]
        exact ⟨_, rfl⟩
  obtain ⟨entry, found⟩ := asked
  have ran : (Eval.ofExcept (m.recalled.equivalence ev.sys t.names)).run m = (.ok entry, m) := by
    rw [found]
    rfl
  exact ⟨_, _, run_bind ran⟩

end

theorem safe_fair_states (wf : ev.sys.WellFormed) : ev.Safe blame ev.fairStates fun r => r.Reads ev.sys.stateBit :=
  safe_of_keeps (matches_fair_states (keeps_twins wf)) fun m kept => by
    obtain ⟨_, ran⟩ := fair_states_run ev kept.sound.fair
    exact ⟨_, _, ran⟩

section

variable {game : StateGame} (same : game.sys = ev.sys) (plays : game.Plays)

include same plays

theorem safe_unfair_for : ev.Safe blame (ev.unfairFor game) ev.sys.StateSet := by
  refine safe_of_keeps (keeps_unfair_for same plays) fun m _ => ?_
  unfold unfairFor
  split
  · exact ⟨_, m, rfl⟩
  · have asked : (get : Eval Memory).run m = (.ok m, m) := rfl
    rw [run_bind asked]
    cases found : m.forcesUnfair.lookup game.team.key with
    | some region => exact ⟨_, m, rfl⟩
    | none =>
        obtain ⟨d, ran⟩ := counted_run game.unfair m
        exact ⟨_, _, run_bind ran⟩

theorem safe_fair_for : ev.Safe blame (fairFor game) ev.sys.StateSet := by
  refine safe_of_keeps (keeps_fair_for same plays) fun m _ => ?_
  unfold fairFor
  have asked : (get : Eval Memory).run m = (.ok m, m) := rfl
  rw [run_bind asked]
  cases found : m.permitsFair.lookup game.team.key with
  | some region => exact ⟨_, m, rfl⟩
  | none =>
      obtain ⟨d, ran⟩ := counted_run game.fair m
      exact ⟨_, _, run_bind ran⟩

end

section

variable (wf : ev.sys.WellFormed) {t : Team} (named : ev.sys.team t.names = .ok t) {goal : Goal} (left : ev.sys.StateSet goal.left)
  (right : ev.sys.StateSet goal.right) (formula : Formula) (ability : Ability)

include wf named left right

theorem safe_full_observation : ev.Safe blame (ev.fullObservation ⟨formula, ability, t, goal⟩) ev.sys.StateSet := by
  obtain ⟨kind, p, q⟩ := goal
  unfold fullObservation
  refine guards_bind (safe_protocol named) fun protocol ⟨u, of, same⟩ => ?_
  have plays : StateGame.Plays ⟨ev.sys, t, protocol⟩ := ⟨wf, same ▸ wf.protocol_played of⟩
  have unfair := @safe_unfair_for ev blame ⟨ev.sys, t, protocol⟩ rfl plays
  have fair := @safe_fair_for ev blame ⟨ev.sys, t, protocol⟩ rfl plays
  dsimp only
  cases ability <;> cases kind
  · exact guards_bind unfair fun _ bad => guards_pure (StateGame.force_next_state_set plays right bad)
  · exact guards_bind unfair fun _ bad => safe_counted (StateGame.force_strong_state_set plays left right bad)
  · exact guards_bind unfair fun _ bad => safe_counted (StateGame.force_weak_state_set plays left right bad)
  · exact guards_bind fair fun _ good => guards_pure (StateGame.permit_next_state_set plays right good.reads)
  · exact guards_bind fair fun _ good => safe_counted (StateGame.permit_strong_state_set plays left right good.reads)
  · have weak := fun (good : Region) (reads : good.Reads ev.sys.stateBit) =>
      @safe_counted ev blame _ _ (StateGame.permit_weak_state_set plays left right reads)
    exact guards_ite (fun _ => guards_bind fair fun good inside => weak good inside.reads) fun _ =>
      guards_bind (guards_pure (Region.reads_univ _)) weak

end

section

variable {t : Team} {moves : Region} (key : String)

theorem safe_remember {entry : EncodingEntry} (proper : entry.Proper ev.sys)
    (keep : List (String × EncodingEntry) → List (String × EncodingEntry)) (fewer : ∀ entries, keep entries ⊆ entries) :
    ev.Safe blame (modify fun m : Memory => { m with encodings := (key, entry) :: keep m.encodings }) fun _ => True :=
  safe_of_keeps (keeps_remember key proper keep fewer) fun _ _ => ⟨(), _, rfl⟩

theorem safe_encoded_unfair {entry : EncodingEntry} (proper : entry.Proper ev.sys) :
    ev.Safe blame (encodedUnfair key entry) fun unfair => unfair = entry.encoding.unfair.value := by
  refine safe_of_keeps (keeps_encoded_unfair key proper) fun m _ => ?_
  unfold encodedUnfair
  cases entry.unfair with
  | some unfair => exact ⟨unfair, m, rfl⟩
  | none =>
      obtain ⟨_, ran⟩ := counted_run entry.encoding.unfair m
      exact ⟨_, _, run_bind ran⟩

theorem safe_encode_as (wf : ev.sys.WellFormed) (named : ev.sys.team t.names = .ok t) (played : ev.sys.PlayedSet moves)
    (refuses : ∀ e, Encoding.Refuses ev.sys t e → blame e) :
    ev.Safe blame (ev.encodeAs key t moves) fun found => ∀ entry ∈ found, entry.Proper ev.sys := by
  have of := (System.team_spec named).1
  unfold encodeAs
  refine settles_get fun m before => guards_bind (safe_equivalence named) fun equivalence ⟨u, ofU, same⟩ => ?_
  cases encoded : Encoding.ofMoves ev.sys t equivalence moves with
  | error e =>
      have restored : ev.Safe blame (set m : Eval Unit) fun _ => True := fun _ _ => ⟨.ok (), m, rfl, before, trivial⟩
      exact guards_bind restored fun _ _ => guards_throw (refuses e (Encoding.of_moves_refuses wf of played encoded))
  | ok encoding =>
      have proper : EncodingEntry.Proper ⟨encoding, none⟩ ev.sys := ⟨⟨t, u, moves, of, ofU, played, same ▸ encoded⟩, nofun⟩
      refine guards_bind (safe_count _ _) fun _ _ => guards_bind (safe_count _ _) fun _ _ => ?_
      refine guards_bind (safe_remember key proper id fun _ => List.Subset.refl _) fun _ _ => guards_pure fun _ same => ?_
      exact Option.some.inj same ▸ proper

end

section

variable (wf : ev.sys.WellFormed) {t : Team} (named : ev.sys.team t.names = .ok t) {goal : Goal} (left : ev.sys.StateSet goal.left)
  (right : ev.sys.StateSet goal.right) (formula : Formula) (ability : Ability)

include wf named left right

section

variable (refuses : ∀ e, Encoding.Refuses ev.sys t e → blame e)

include refuses

theorem safe_encoding_for :
    ev.Safe blame (ev.encodingFor ⟨formula, ability, t, goal⟩) fun found => ∀ entry ∈ found, entry.Proper ev.sys := by
  rw [encoding_for_eq]
  generalize ev.encodingKey ⟨formula, ability, t, goal⟩ = key
  refine settles_get fun m kept => ?_
  cases found : m.encodings.lookup key with
  | some entry => exact guards_pure fun _ same => Option.some.inj same ▸ kept.encodings _ (lookup_listed found)
  | none =>
      refine guards_bind (safe_protocol named) fun protocol ⟨w, ofToo, same⟩ => ?_
      have posed : ev.Posed t protocol goal := ⟨wf, (System.team_spec named).1, same ▸ wf.protocol_played ofToo, left, right⟩
      refine guards_ite (fun _ => ?_) fun _ => safe_encode_as key wf named posed.played refuses
      refine guards_bind (safe_counted (filtered_played posed (Set.Subset.refl _) posed.played.reads)) fun moves played => ?_
      exact guards_ite (fun _ => guards_pure nofun) fun _ => safe_encode_as key wf named played refuses

theorem safe_symbolic : ev.Safe blame (ev.symbolic ⟨formula, ability, t, goal⟩) ev.sys.StateSet := by
  unfold symbolic
  refine guards_bind (safe_encoding_for wf named left right formula ability refuses) fun found proper => ?_
  cases found with
  | none => exact guards_pure (.empty _)
  | some entry =>
      refine guards_bind (safe_encoded_unfair _ (proper entry rfl)) fun unfair same => ?_
      obtain ⟨w, u, moves, of, ofToo, played, encoded⟩ := (proper entry rfl).encoding
      exact safe_counted (same ▸ Encoding.finds_state_set wf of ofToo played left right _ encoded)

end

theorem safe_decide (refuses : ev.UsesCodes → ∀ e, Encoding.Refuses ev.sys t e → blame e) :
    ev.Safe blame (ev.decide ⟨formula, ability, t, goal⟩) ev.sys.StateSet := by
  have of := (System.team_spec named).1
  have solves : ∀ x : Eval Region, (∀ m : Memory, ev.Posed t (m.protocolFor ev.sys t) goal → ev.Solves t goal x m) →
      ev.Safe blame x ev.sys.StateSet := by
    intro x solved m kept
    have posed : ev.Posed t (m.protocolFor ev.sys t) goal := posed_protocol wf of kept.sound left right
    obtain ⟨r, n, ran, wins, alike⟩ := solved m posed
    exact ⟨.ok r, n, ran, (kept.learned of trivial).alike alike, wins.state_set posed⟩
  unfold Evaluator.decide
  refine safe_deciding (guards_ite (fun _ => ?_) fun blind => ?_)
  · exact safe_full_observation wf named left right formula ability
  · have limited : ev.options.observability = .limited := by
      cases sees : ev.options.observability with
      | full => exact absurd sees blind
      | limited => rfl
    cases variant : ev.options.variant with
    | splitFilter => exact solves _ fun _ => split_filter_solves named
    | filterSplit => exact solves _ fun _ => filter_split_solves named
    | filterSplitFilter => exact solves _ fun _ => filter_split_filter_solves named
    | symbolic => exact safe_symbolic wf named left right formula ability (refuses ⟨limited, .inl variant⟩)
    | symbolicFiltered => exact safe_symbolic wf named left right formula ability (refuses ⟨limited, .inr variant⟩)
    | onRequest => exact solves _ fun _ => split_filter_solves named

end

end Evaluator

end Coalition
