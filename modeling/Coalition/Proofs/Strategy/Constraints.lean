import Coalition.Evaluation.Search

-- Systems that differ in their fairness constraints.

set_option autoImplicit false

namespace Coalition

namespace System

def under (sys : System) (constraints : List Region) : System := { sys with fairness := constraints }

variable (sys : System) (constraints : List Region)

theorem agents_of_name_under (fuel : Nat) : (sys.under constraints).agentsOfName fuel = sys.agentsOfName fuel := by
  induction fuel with
  | zero => rfl
  | succ fuel ih =>
      funext name
      unfold agentsOfName
      rw [ih]
      rfl

theorem team_of_under (names : List String) : (sys.under constraints).teamOf names = sys.teamOf names := by
  unfold teamOf agentsOf
  rw [agents_of_name_under]
  rfl

end System

namespace Splitter

def under (sp : Splitter) (constraints : List Region) : Splitter := { sp with sys := sp.sys.under constraints }

variable (sp : Splitter) (constraints : List Region)

theorem conflicts_in_under (team : Team) (fuel : Nat) : (sp.under constraints).conflictsIn team fuel = sp.conflictsIn team fuel := by
  induction fuel with
  | zero => rfl
  | succ fuel ih =>
      funext moves
      unfold conflictsIn
      rw [ih]
      rfl

theorem any_conflicts_under (moves : Region) (teams : List Team) :
    (sp.under constraints).anyConflicts moves teams = sp.anyConflicts moves teams := by
  induction teams with
  | nil => rfl
  | cons team rest ih =>
      unfold anyConflicts
      rw [ih, conflicts_in_under]
      rfl

theorem is_conflicting_under (moves : Region) : (sp.under constraints).isConflicting moves = sp.isConflicting moves := by
  unfold isConflicting
  rw [any_conflicts_under]
  rfl

theorem part_under (fixed : Region) (fuel : Nat) : (sp.under constraints).part fixed fuel = sp.part fixed fuel := by
  induction fuel with
  | zero => rfl
  | succ fuel ih =>
      funext common moves
      unfold part
      simp only [is_conflicting_under, ih]
      rfl

theorem buckets_under (team : Team) (fixed : Region) (fuel : Nat) :
    (sp.under constraints).buckets team fixed fuel = sp.buckets team fixed fuel := by
  induction fuel with
  | zero => rfl
  | succ fuel ih =>
      funext moves
      unfold buckets
      rw [ih]
      rfl

theorem split_agent_under (agent : Team) (fixed : Region) (fuel : Nat) :
    (sp.under constraints).splitAgent agent fixed fuel = sp.splitAgent agent fixed fuel := by
  induction fuel with
  | zero => rfl
  | succ fuel ih =>
      funext moves
      unfold splitAgent
      simp only [buckets_under, ih]
      rfl

theorem split_agents_under (fixed moves : Region) (teams : List Team) :
    (sp.under constraints).splitAgents fixed moves teams = sp.splitAgents fixed moves teams := by
  induction teams with
  | nil => rfl
  | cons agent others ih =>
      unfold splitAgents
      simp only [split_agent_under, ih]
      rfl

theorem split_class_under (fixed moves : Region) : (sp.under constraints).splitClass fixed moves = sp.splitClass fixed moves := by
  unfold splitClass
  rw [split_agents_under, buckets_under]
  rfl

theorem split_from_under (fixed : Region) (fuel : Nat) :
    (sp.under constraints).splitFrom fixed fuel = sp.splitFrom fixed fuel := by
  induction fuel with
  | zero => rfl
  | succ fuel ih =>
      funext moves
      unfold splitFrom
      simp only [part_under, split_class_under, ih]
      rfl

theorem split_under (moves fixed : Region) : (sp.under constraints).split moves fixed = sp.split moves fixed := by
  unfold split
  dsimp only
  rw [split_from_under]
  rfl

theorem extend_from_under (protocol moves : Region) (fuel : Nat) :
    (sp.under constraints).extendFrom protocol moves fuel = sp.extendFrom protocol moves fuel := by
  induction fuel with
  | zero => rfl
  | succ fuel ih =>
      funext strategy
      unfold extendFrom
      simp only [split_under, ih]
      rfl

theorem extend_under (protocol strategy moves : Region) :
    (sp.under constraints).extend protocol strategy moves = sp.extend protocol strategy moves := by
  unfold extend
  rw [extend_from_under]
  rfl

end Splitter

namespace Search

theorem reach_until_under (sys : System) (constraints : List Region) (all : Region) (fuel : Nat) :
    reachUntil (sys.under constraints) all fuel = reachUntil sys all fuel := by
  induction fuel with
  | zero => rfl
  | succ fuel ih =>
      funext reached
      unfold reachUntil
      simp only [ih]
      rfl

end Search

end Coalition
