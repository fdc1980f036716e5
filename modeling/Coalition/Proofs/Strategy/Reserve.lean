import Mathlib.Algebra.BigOperators.Ring.List
import Mathlib.Algebra.Order.BigOperators.Group.List
import Mathlib.Algebra.Order.BigOperators.GroupWithZero.List
import Mathlib.Algebra.Order.Ring.Nat
import Mathlib.Data.List.Sections
import Mathlib.Data.Nat.Log
import Coalition.Proofs.Model.Compiled
import Coalition.Proofs.Model.Owners
import Coalition.Proofs.Region.Count
import Coalition.Proofs.Strategy.Code

-- What a description reserves is the number of all observations times the bits of a joint action, both with a cap; what an encoding
-- demands is counted from the observations that it finds and the actions that it lists.

set_option autoImplicit false

namespace Coalition

theorem width_pos (n : Nat) : 0 < width n := by
  unfold width
  split <;> omega

theorem width_mono {m n : Nat} (le : m ≤ n) : width m ≤ width n := by
  unfold width
  by_cases small : m ≤ 2
  · rw [if_pos small]
    exact width_pos n
  · rw [if_neg small, if_neg (by omega)]
    have logs : (m - 1).log2 ≤ (n - 1).log2 := by
      rw [Nat.log2_eq_log_two, Nat.log2_eq_log_two]
      exact Nat.log_mono_right (by omega)
    omega

theorem length_sections {α : Type} (parts : List (List α)) : parts.sections.length = (parts.map List.length).prod := by
  induction parts with
  | nil => rfl
  | cons part rest ih => simp [List.sections, List.length_flatMap, List.map_const', ih, Nat.mul_comm]

-- Valuations that are told apart by some variables are no more than there are choices of a value for each variable.
theorem length_le_values {vs : List Variable} {ρs : List Valuation} (masked : ∀ ρ ∈ ρs, ∀ v ∈ vs, ρ ∈ (v.mask false).members)
    (apart : ρs.Pairwise fun ρ σ => ∃ v ∈ vs, ∃ b ∈ v.bits, ρ b ≠ σ b) : ρs.length ≤ (vs.map (·.domain.length)).prod := by
  have coded : ∀ ρ ∈ ρs, ∀ v ∈ vs, ∃ i < v.domain.length, ρ ∈ (v.valueRegion false i).members :=
    fun ρ listed v known => Variable.mem_mask.mp (masked ρ listed v known)
  choose! place less here using coded
  have distinct : (ρs.map fun ρ => vs.map (place ρ)).Nodup := by
    rw [List.Nodup, List.pairwise_map]
    refine apart.imp_of_mem fun {ρ σ} first second => ?_
    rintro ⟨v, known, b, bit, differ⟩ same
    have samePlace : place ρ v = place σ v := List.map_inj_left.mp same v known
    obtain ⟨i, bound, rfl⟩ := List.getElem_of_mem bit
    have entry : (v.bits[i], i) ∈ v.bits.zipIdx := List.mem_zipIdx_iff_getElem?.mpr (List.getElem?_eq_getElem bound)
    have left := Variable.mem_value.mp (here ρ first v known) _ entry
    have right := Variable.mem_value.mp (here σ second v known) _ entry
    exact differ (left.trans (samePlace ▸ right.symm))
  have inside : (ρs.map fun ρ => vs.map (place ρ)) ⊆ (vs.map fun v => List.range v.domain.length).sections := by
    intro places listed
    obtain ⟨ρ, member, rfl⟩ := List.mem_map.mp listed
    rw [List.mem_sections, List.forall₂_map_left_iff, List.forall₂_map_right_iff, List.forall₂_same]
    exact fun v known => List.mem_range.mpr (less ρ member v known)
  have fewer := (distinct.subperm inside).length_le
  rw [List.length_map, length_sections, List.map_map] at fewer
  simpa only [Function.comp_def, List.length_range] using fewer

namespace Description

theorem capped_product {cap : Nat} (sizes : List Nat) (positive : ∀ n ∈ sizes, 0 < n) {start : Nat} (small : start ≤ cap) :
    sizes.foldl (fun total n => min (total * n) cap) start = min (start * sizes.prod) cap := by
  induction sizes generalizing start with
  | nil => simp [small]
  | cons n rest ih =>
      obtain ⟨_, others⟩ := List.forall_mem_cons.mp positive
      have product : 0 < rest.prod := List.prod_pos others
      rw [List.foldl_cons, ih others (Nat.min_le_right _ _), List.prod_cons, ← Nat.mul_assoc]
      by_cases fits : start * n ≤ cap
      · rw [Nat.min_eq_left fits]
      · -- from the cap on a product only grows
        have spans : cap ≤ start * n := by omega
        rw [Nat.min_eq_right spans, Nat.min_eq_right (Nat.le_mul_of_pos_right cap product),
          Nat.min_eq_right (spans.trans (Nat.le_mul_of_pos_right _ product))]

def observes (d : Description) (name : String) : Bool := d.agents.any fun a => a.observes.contains name

def observationCount (d : Description) : Nat := ((d.vars.filter fun x => d.observes x.name).map (·.values.length)).prod

def actionCount (d : Description) : Nat := (d.inputs.map (·.values.length)).prod

theorem strategy_bits_eq {d : Description} (named : d.Named) : d.strategyBits =
    min (min d.observationCount maxStrategyBits * 2 * width (min d.actionCount maxStrategyBits)) maxStrategyBits := by
  have product : ∀ domains : List Domain, domains ⊆ d.vars ++ d.inputs →
      domains.foldl (fun total x => min (total * x.values.length) maxStrategyBits) 1 =
        min (domains.map (·.values.length)).prod maxStrategyBits := by
    intro domains known
    have positive : ∀ n ∈ domains.map (·.values.length), 0 < n := by
      intro n listed
      obtain ⟨x, member, rfl⟩ := List.mem_map.mp listed
      exact List.length_pos_iff.mpr (named.domains x (known member)).1
    rw [← List.foldl_map (f := fun x : Domain => x.values.length) (g := fun total n => min (total * n) maxStrategyBits),
      capped_product _ positive (by decide), Nat.one_mul]
  unfold strategyBits
  dsimp only
  rw [product _ (List.Subset.trans List.filter_sublist.subset (List.subset_append_left _ _)), product _ (List.subset_append_right _ _)]
  rfl

theorem build_reserve (d : Description) : Yields d.build fun sys => sys.space.reserved = d.strategyBits := by
  intro sys done
  have created := (build_builds done).created
  unfold Space.create at created
  dsimp only at created
  split at created
  · cases created
  · rw [← Except.ok.inj created]
    exact Int.toNat_natCast _

theorem build_observes (d : Description) :
    Yields d.build fun sys => ∀ a ∈ sys.agents, ∀ v ∈ a.observed, d.observes v.name = true := by
  intro sys done a listed v observed
  obtain ⟨x, described, acts⟩ := mem_of_map_m (build_builds done).acting a listed
  obtain ⟨protocol, _, same⟩ := ok_of_bind acts
  cases same
  obtain ⟨name, member, found⟩ := List.mem_filterMap.mp observed
  have named : v.name = name := by simpa using List.find?_some found
  exact List.any_eq_true.mpr ⟨x, described, List.contains_iff_mem.mpr (named ▸ member)⟩

theorem lay_states_pairs (first : Nat) (ds : List Domain) :
    (layStates first ds).map (fun v => (v.name, v.domain)) = ds.map fun x => (x.name, x.values) := by
  induction ds generalizing first with
  | nil => rfl
  | cons d rest ih => simp only [layStates, List.map_cons, ih]

theorem lay_inputs_domains (first : Nat) (ds : List Domain) : (layInputs first ds).map (·.domain) = ds.map (·.values) := by
  induction ds generalizing first with
  | nil => rfl
  | cons d rest ih => simp only [layInputs, List.map_cons, ih]

end Description

namespace System.Compiled

variable {sys : System} {d : Description} (compiled : sys.Compiled d)

include compiled

theorem observation_count :
    ((sys.stateVars.filter fun v => d.observes v.name).map (·.domain.length)).prod = d.observationCount := by
  have pairs := congrArg (fun pairs => (pairs.filter fun pair : String × List String => d.observes pair.1).map (·.2.length))
    (Description.lay_states_pairs 0 d.vars)
  simp only [List.filter_map, List.map_map] at pairs
  rw [compiled.stateVars, Description.observationCount]
  exact congrArg List.prod pairs

theorem action_count : (sys.inputVars.map (·.domain.length)).prod = d.actionCount := by
  have domains := congrArg (List.map List.length) (Description.lay_inputs_domains (2 * Description.bitCount d.vars) d.inputs)
  simp only [List.map_map] at domains
  rw [compiled.inputVars, Description.actionCount]
  exact congrArg List.prod domains

end System.Compiled

namespace System

variable {sys : System} {t : Team}

namespace Owned

variable (owned : sys.Owned) (wf : sys.WellFormed) (of : t.Of sys) (members : t.members.Nodup)

include owned of members

theorem actions_nodup : t.actions.Nodup := by
  have all : (sys.agents.flatMap (·.actions)).Nodup := List.Nodup.of_map _ owned
  refine List.nodup_flatMap.mpr ⟨fun a member => (List.nodup_flatMap.mp all).1 a (of a member), ?_⟩
  refine members.imp_of_mem fun {a c} first second different => List.disjoint_left.mpr fun v acts actsToo => ?_
  exact different (owned.owner (of a first) (of c second) acts actsToo)

include wf

theorem action_bits_nodup : t.actionBits.Nodup := by
  refine List.nodup_flatMap.mpr ⟨fun v listed => (List.nodup_flatMap.mp wf.laid.inputNodup).1 v (wf.action_input of listed), ?_⟩
  refine (owned.actions_nodup of members).imp_of_mem fun {v w} first second different => List.disjoint_left.mpr fun b bit bitToo => ?_
  exact different (wf.input_of_bit (wf.action_input of first) (wf.action_input of second) bit bitToo)

end Owned

end System

namespace Encoding

variable {sys : System} {t : Team} {os : List Observation} {moves : Region}

-- The reserved bits that the observations with a choice take up.
def demand (os : List Observation) : Nat := ((os.filter hasChoice).map fun o => 2 * width o.actions.length).sum

theorem demand_eq (os : List Observation) : demand os = 2 * Frame.codeWidth ((os.filter hasChoice).map (·.actions.length)) := by
  rw [demand, Frame.codeWidth, List.map_map, ← List.sum_map_mul_left]
  rfl

section

variable {U : Set Valuation} (seen : Observed sys t U os)

include seen

theorem observations_le (masked : U ⊆ sys.statesMask.members) {vs : List Variable} (states : ∀ v ∈ vs, v ∈ sys.stateVars)
    (observed : ∀ a ∈ t.members, ∀ v ∈ a.observed, v ∈ vs) : os.length ≤ (vs.map (·.domain.length)).prod := by
  have met : ∀ o ∈ os, ∃ μ ∈ U, μ ∈ o.states.members := fun o listed => (seen.fits o listed).meets
  choose! state played here using met
  rw [← List.length_map state]
  refine length_le_values (fun ρ listed v known => ?_) (List.pairwise_map.mpr (seen.apart.imp_of_mem fun {o p} first second apart => ?_))
  · obtain ⟨o, member, rfl⟩ := List.mem_map.mp listed
    have inside := masked (played o member)
    rw [sys.states_mask_eq, maskAll, Region.mem_inter_all] at inside
    exact inside _ (List.mem_map_of_mem (states v known))
  · by_contra none
    push Not at none
    have same : t.Same (state o) (state p) := fun a member v sees b bit => none v (observed a member v sees) b bit
    have masked := masked (played p second)
    exact apart _ (((seen.fits o first).alike _ (here o first) _).mpr ⟨masked, same⟩) (here p second)

theorem actions_le (masked : U ⊆ sys.inputsMask.members) (distinct : ∀ o ∈ os, o.actions.Nodup) {vs : List Variable}
    (inputs : ∀ v ∈ vs, v ∈ sys.inputVars) (acted : ∀ v ∈ t.actions, v ∈ vs) :
    ∀ o ∈ os, o.actions.length ≤ (vs.map (·.domain.length)).prod := by
  intro o known
  have fits := seen.fits o known
  have listed : ∀ a ∈ o.actions, ∃ μ ∈ U, ∀ ρ, ρ ∈ a.members ↔ t.Plays ρ μ := by
    intro a offered
    obtain ⟨μ, played, _, spec⟩ := fits.played a offered
    exact ⟨μ, played, spec⟩
  choose! move played spec using listed
  rw [← List.length_map move]
  refine length_le_values (fun ρ member v input => ?_)
    (List.pairwise_map.mpr ((distinct o known).imp_of_mem fun {a c} first second different => ?_))
  · obtain ⟨a, offered, rfl⟩ := List.mem_map.mp member
    have inside := masked (played a offered)
    rw [sys.inputs_mask_eq, maskAll, Region.mem_inter_all] at inside
    exact inside _ (List.mem_map_of_mem (inputs v input))
  · by_contra none
    push Not at none
    have plays : t.Plays (move a) (move c) := by
      intro b bit
      obtain ⟨v, listed, here⟩ := List.mem_flatMap.mp bit
      exact none v (acted v listed) b here
    refine different (Region.members_injective (Set.ext fun ρ => ?_))
    rw [spec a first, spec c second]
    exact ⟨fun one => one.trans plays, fun other => other.trans plays.symm⟩

end

theorem demand_le (os : List Observation) {most : Nat} (few : ∀ o ∈ os, o.actions.length ≤ most) :
    demand os ≤ os.length * (2 * width most) := by
  have each : ∀ need ∈ (os.filter hasChoice).map fun o => 2 * width o.actions.length, need ≤ 2 * width most := by
    intro need listed
    obtain ⟨o, member, rfl⟩ := List.mem_map.mp listed
    exact Nat.mul_le_mul_left 2 (width_mono (few o (List.mem_filter.mp member).1))
  have bound := List.sum_le_card_nsmul _ _ each
  rw [nsmul_eq_mul, Nat.cast_id, List.length_map] at bound
  exact bound.trans (Nat.mul_le_mul_right _ (List.length_filter_le _ _))

theorem of_moves_eq (listed : observations sys t (Nat.pow 2 sys.stateBits.length + 1) moves = .ok os) (equivalence : Region) :
    (demand os ≤ sys.space.reserved → ∃ e, ofMoves sys t equivalence moves = .ok e) ∧
    (sys.space.reserved < demand os → ofMoves sys t equivalence moves = .error
      (.inside s!"{(os.filter hasChoice).length} strategy variables" (.space (.notEnoughReserved (demand os) sys.space.reserved)))) := by
  unfold ofMoves
  rw [listed, ok_bind]
  dsimp only
  rw [Frame.strategy_vars_eq, ← demand_eq]
  constructor
  · intro room
    rw [if_neg (Nat.not_lt.mpr room)]
    exact ⟨_, rfl⟩
  · intro short
    rw [if_pos short, List.length_map, List.length_range]
    rfl

-- Every observation is one of those that the reserve counts, and its actions are among the joint ones.
theorem demand_le_reserve {d : Description} (built : d.build = .ok sys) (of : t.Of sys) (played : sys.PlayedSet moves)
    (seen : Observed sys t moves.members os) (distinct : ∀ o ∈ os, o.actions.Nodup) (capped : demand os ≤ Description.maxStrategyBits)
    (few : ∀ o ∈ os, o.actions.length ≤ Description.maxStrategyBits) : demand os ≤ d.strategyBits := by
  have wf := d.build_well_formed sys built
  have compiled := d.build_compiled sys built
  have classes : os.length ≤ d.observationCount := by
    rw [← compiled.observation_count]
    refine observations_le seen (fun _ member => (played.masked member).1) (fun v member => (List.mem_filter.mp member).1) ?_
    exact fun a member v observed => List.mem_filter.mpr ⟨wf.observes of member observed, d.build_observes sys built a (of a member) v observed⟩
  have joint : ∀ o ∈ os, o.actions.length ≤ min d.actionCount Description.maxStrategyBits := by
    intro o known
    refine Nat.le_min.mpr ⟨?_, few o known⟩
    rw [← compiled.action_count]
    exact actions_le seen (fun _ member => (played.masked member).2) distinct (fun _ input => input) (fun _ => wf.action_input of) o known
  rw [Description.strategy_bits_eq compiled.named]
  refine Nat.le_min.mpr ⟨?_, capped⟩
  have wide := width_pos (min d.actionCount Description.maxStrategyBits)
  by_cases many : d.observationCount ≤ Description.maxStrategyBits
  · rw [Nat.min_eq_left many, Nat.mul_assoc]
    exact (demand_le os joint).trans (Nat.mul_le_mul_right _ classes)
  · rw [Nat.min_eq_right (by omega), Nat.mul_assoc]
    exact capped.trans (Nat.le_mul_of_pos_right _ (by omega))

/-- An encoding fails only for want of room for a list of actions or of reserved bits, the latter when the observations demand more than the
description reserves. While the demand is within the cap and no observation lists more actions than the cap, that does not happen. What is
listed are no more actions than are allowed, and all of them unless they are so many that they count as none. -/
theorem reserve_suffices {d : Description} (built : d.build = .ok sys) {names : List String} (named : sys.teamOf names = .ok t)
    (reads : moves.Reads sys.moveBit) (inside : moves.members ⊆ (sys.protocolOf t).members) (equivalence : Region) :
    (Fits sys t moves → ∃ os, observations sys t (Nat.pow 2 sys.stateBits.length + 1) moves = .ok os) ∧
    (∀ e, observations sys t (Nat.pow 2 sys.stateBits.length + 1) moves = .error e →
      e = .space .noRoom ∧ ofMoves sys t equivalence moves = .error e) ∧
    ∀ os, observations sys t (Nat.pow 2 sys.stateBits.length + 1) moves = .ok os →
      (demand os ≤ d.strategyBits → ∃ e, ofMoves sys t equivalence moves = .ok e) ∧
      (d.strategyBits < demand os → ofMoves sys t equivalence moves = .error
        (.inside s!"{(os.filter hasChoice).length} strategy variables" (.space (.notEnoughReserved (demand os) d.strategyBits)))) ∧
      (demand os ≤ Description.maxStrategyBits → (∀ o ∈ os, o.actions.length ≤ Description.maxStrategyBits) →
        demand os ≤ d.strategyBits) ∧
      ∀ o ∈ os, o.actions.length ≤ (t.actions.map (·.domain.length)).prod ∧
        o.actions.length ≤ sys.space.count (offered sys t moves o.states) t.actionBits ∧
        (Counts sys t moves → o.actions.length = sys.space.count (offered sys t moves o.states) t.actionBits) := by
  have wf := d.build_well_formed sys built
  have owned := d.build_owned sys built
  obtain ⟨sorted, found, team⟩ := ok_of_bind named
  obtain ⟨of, same⟩ := System.team_spec team
  have members : t.members.Nodup := by
    obtain ⟨parts, _, done⟩ := ok_of_bind found
    cases done
    exact List.Nodup.of_map _ (same.symm ▸ (System.sort_distinct_in_order _).1)
  have played := (wf.protocol_played of).sub inside reads
  refine ⟨fun fits => ?_, fun e failed => ?_, fun os listed => ?_⟩
  · obtain ⟨os, listed, _⟩ | ⟨_, crowded⟩ := observations_spec wf of _ played (state_count_bound sys moves)
    · exact ⟨os, listed⟩
    · exact absurd fits crowded
  · obtain ⟨rfl, _⟩ := observations_error wf of played failed
    refine ⟨rfl, ?_⟩
    unfold ofMoves
    rw [failed]
    rfl
  obtain ⟨seen, lists⟩ := observations_yield wf of played os listed
  have distinctBits := owned.action_bits_nodup wf of members
  have declared : ∀ b ∈ t.actionBits, b < sys.space.size := by
    intro b bit
    have less := wf.laid.declared b (.inr (wf.action_bit of bit))
    rw [Space.size]
    omega
  have distinct : ∀ o ∈ os, o.actions.Nodup := fun o known =>
    (Region.pick_all_nodup _ distinctBits).sublist (Space.listing_part (lists o known)).1
  obtain ⟨fits, short⟩ := of_moves_eq listed equivalence
  rw [d.build_reserve sys built] at fits short
  refine ⟨fits, short, demand_le_reserve built of played seen distinct, fun o known => ⟨?_, ?_⟩⟩
  · exact actions_le seen (fun _ member => (played.masked member).2) distinct (fun _ => wf.action_input of) (fun _ acted => acted) o known
  · obtain ⟨part, whole⟩ := Space.listing_part (lists o known)
    rw [← Space.length_listed _ distinctBits declared]
    exact ⟨part.length_le, fun counts => whole.mpr (observed_room wf of seen played lists counts known)⟩

def latch : Description where
  name := "latch"
  vars := [⟨"lit", ["false", "true"]⟩]
  inputs := [⟨"switch", ["false", "true"]⟩]
  trans := ["next(lit) <-> switch"]
  agents := [{ name := "keeper", observes := ["lit"], actions := ["switch"] }]

theorem reserve_suffices_latch : ∃ (sys : System) (t : Team) (e : Encoding) (os : List Observation), latch.build = .ok sys ∧
    sys.teamOf ["keeper"] = .ok t ∧
    observations sys t (Nat.pow 2 sys.stateBits.length + 1) (sys.protocolOf t) = .ok os ∧ demand os = 4 ∧ latch.strategyBits = 4 ∧
    ofMoves sys t (sys.equivalenceOf t) (sys.protocolOf t) = .ok e := by
  have demands : ((do
      let sys ← latch.build
      let t ← sys.teamOf ["keeper"]
      return demand (← observations sys t (Nat.pow 2 sys.stateBits.length + 1) (sys.protocolOf t))) : Except Error Nat).toOption = some 4 := by
    decide +kernel
  obtain ⟨sys, built, demands⟩ := ok_of_bind (ok_of_to_option demands)
  obtain ⟨t, named, demands⟩ := ok_of_bind demands
  obtain ⟨os, listed, demands⟩ := ok_of_bind demands
  have demands : demand os = 4 := Except.ok.inj demands
  have wf := latch.build_well_formed sys built
  obtain ⟨_, _, found⟩ := reserve_suffices built named (wf.protocol_reads t) (Set.Subset.refl _) (sys.equivalenceOf t)
  have reserve : latch.strategyBits = 4 := by decide
  obtain ⟨e, done⟩ := (found os listed).1 (by rw [demands, reserve])
  exact ⟨sys, t, e, os, built, named, listed, demands, reserve, done⟩

end Encoding

end Coalition
