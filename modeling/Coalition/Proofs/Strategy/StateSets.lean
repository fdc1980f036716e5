import Coalition.Proofs.Strategy.Encoding
import Coalition.Proofs.Strategy.StateGame

-- What the games on states and the encodings compute are sets of states, whichever moves in reachable states they are given.

set_option autoImplicit false

namespace Coalition

namespace Region

variable {K : Region → Prop} {f : Region → Counted Region} {start : Region} {regions : List Region} {n : Nat}

theorem fixpoint_keeps (known : K start) (keeps : ∀ r, K r → K (f r).value) : K (fixpoint n start f).value :=
  (fixpoint_induct (P := fun _ => True) keeps (fun _ _ _ => trivial) known trivial).1

theorem union_over_keeps (empty : K .empty) (union : ∀ r s, K r → K s → K (r.union s)) (each : ∀ c ∈ regions, K (f c).value) :
    K (unionOver f regions).value := by
  induction regions with
  | nil => exact empty
  | cons c rest ih =>
      obtain ⟨first, others⟩ := List.forall_mem_cons.mp each
      exact union _ _ first (ih others)

theorem inter_over_keeps (known : K start) (inter : ∀ r s, K r → K s → K (r.inter s)) (each : ∀ c ∈ regions, K (f c).value) :
    K (interOver start f regions).value := by
  induction regions with
  | nil => exact known
  | cons c rest ih =>
      obtain ⟨first, others⟩ := List.forall_mem_cons.mp each
      exact inter _ _ first (ih others)

end Region

namespace StateGame

open Region

structure Plays (g : StateGame) : Prop where
  system : g.sys.WellFormed
  played : g.sys.PlayedSet g.protocol

variable {g : StateGame} {f : Region → Counted Region} {start left right target bad good body : Region} {regions : List Region}

theorem least_state_set (keeps : ∀ r, g.sys.StateSet r → g.sys.StateSet (f r).value) : g.sys.StateSet (g.least f).value :=
  fixpoint_keeps (.empty _) keeps

theorem greatest_state_set (keeps : ∀ r, g.sys.StateSet r → g.sys.StateSet (f r).value) : g.sys.StateSet (g.greatest f).value :=
  fixpoint_keeps (.mask _) keeps

theorem union_over_state_set (each : ∀ c ∈ regions, g.sys.StateSet (f c).value) : g.sys.StateSet (unionOver f regions).value :=
  union_over_keeps (.empty _) (fun _ _ => .union) each

theorem inter_over_state_set (known : g.sys.StateSet start) (each : ∀ c ∈ regions, g.sys.StateSet (f c).value) :
    g.sys.StateSet (interOver start f regions).value :=
  inter_over_keeps known (fun _ _ first second => first.inter second.reads) each

section

variable (plays : g.Plays)

include plays

theorem force_state_set (reads : target.Reads g.sys.moveBit) : g.sys.StateSet (g.force target) := by
  have moves : g.sys.PlayedSet (g.sys.forcingMoves g.team g.protocol target .univ) := by
    refine plays.played.sub (fun ρ member => ?_) (plays.system.forcing_reads plays.played.reads reads (reads_univ _))
    unfold System.forcingMoves at member
    rw [members_diff, members_inter] at member
    exact member.1.1
  exact (Splitter.mk g.sys g.team .group).hide_state_set plays.system moves

theorem permit_state_set (known : g.sys.StateSet target) : g.sys.StateSet (g.permit target) := by
  have kept : (g.sys.statesOutside (target.hide g.sys.inputBits)).Reads g.sys.moveBit :=
    (Frame.StateSet.outside (Frame.reads_hide_inputs known.moves)).moves
  exact .outside (force_state_set plays kept).reads

theorem unfair_state_set : g.sys.StateSet g.unfair.value :=
  least_state_set fun _ inside => union_over_state_set fun c listed => by
    have outside : g.sys.StateSet (g.sys.statesOutside c) := .outside (plays.system.fairness c listed).reads
    refine force_state_set plays (greatest_state_set fun y avoids => ?_).moves
    exact (inside.union outside).inter (force_state_set plays avoids.moves).reads

theorem fair_state_set : g.sys.StateSet g.fair.value := by
  have mask : g.sys.StateSet g.sys.statesMask := .mask _
  unfold fair permitAlways
  split
  · exact greatest_state_set fun _ inside => mask.inter (permit_state_set plays inside).reads
  · refine greatest_state_set fun _ inside => inter_over_state_set mask fun c listed => permit_state_set plays ?_
    refine least_state_set fun _ reached => ?_
    exact (inside.inter (plays.system.fairness c listed).reads).union (mask.inter (permit_state_set plays reached).reads)

section

variable (leftKnown : g.sys.StateSet left) (rightKnown : g.sys.StateSet right)

include rightKnown

theorem force_next_state_set (badKnown : g.sys.StateSet bad) : g.sys.StateSet (g.forceNext bad right) :=
  force_state_set plays (rightKnown.union badKnown).moves

theorem permit_next_state_set (goodReads : good.Reads g.sys.stateBit) : g.sys.StateSet (g.permitNext good right) :=
  permit_state_set plays (rightKnown.inter goodReads)

include leftKnown

theorem force_strong_state_set (badKnown : g.sys.StateSet bad) : g.sys.StateSet (g.forceStrong bad left right).value := by
  have stay : g.sys.StateSet ((right.union left).union bad) := (rightKnown.union leftKnown).union badKnown
  unfold forceStrong
  split
  · exact least_state_set fun _ inside => rightKnown.union (leftKnown.inter (force_state_set plays inside.moves).reads)
  · refine least_state_set fun _ inside => stay.inter (rightKnown.union (union_over_state_set fun c listed => ?_)).reads
    have outside : g.sys.StateSet (g.sys.statesOutside c) := .outside (plays.system.fairness c listed).reads
    refine force_state_set plays (greatest_state_set fun _ avoids => ?_).moves
    exact (stay.inter (inside.union outside).reads).inter (rightKnown.union (force_state_set plays avoids.moves)).reads

theorem force_weak_state_set (badKnown : g.sys.StateSet bad) : g.sys.StateSet (g.forceWeak bad left right).value :=
  greatest_state_set fun _ inside =>
    ((rightKnown.union leftKnown).union badKnown).inter (rightKnown.union (force_state_set plays inside.moves)).reads

section

variable (goodReads : good.Reads g.sys.stateBit)

include goodReads

theorem permit_strong_state_set : g.sys.StateSet (g.permitStrong good left right).value :=
  least_state_set fun _ inside => (rightKnown.inter goodReads).union (leftKnown.inter (permit_state_set plays inside).reads)

theorem permit_weak_state_set : g.sys.StateSet (g.permitWeak good left right).value := by
  have goal := rightKnown.inter goodReads
  unfold permitWeak
  split
  · exact greatest_state_set fun _ inside => rightKnown.union (leftKnown.inter (permit_state_set plays inside).reads)
  · refine greatest_state_set fun _ inside => goal.union (inter_over_state_set leftKnown fun c listed => permit_state_set plays ?_)
    refine least_state_set fun _ reached => ?_
    exact (goal.union (inside.inter (plays.system.fairness c listed).reads)).union (leftKnown.inter (permit_state_set plays reached).reads)

end

end

end

end StateGame

namespace Encoding

variable {sys : System} {t u : Team} {vars : List Variable} {rules : List Rule} {moves : Region} {goal : Goal}

-- Codes are forgotten, and nothing but reachable states is left.
theorem winning_state_set (wf : sys.WellFormed) (of : t.Of sys) (ofToo : u.Of sys) (extra : sys.Extra vars) (played : sys.PlayedSet moves)
    (prescribes : Prescribes sys t moves.members vars rules) (left : sys.StateSet goal.left) (right : sys.StateSet goal.right) :
    let e := encode sys (sys.equivalenceOf u) moves vars rules
    sys.StateSet (e.winning goal e.unfair.value).value := by
  intro e
  -- what wins reads states and codes, which shows under any code
  obtain ⟨κ, coded⟩ := prescribes.coded
  have mirrors := @mirrors_under _ t _ _ κ _ (sys.equivalenceOf u) wf of extra played prescribes coded
  have won := (won_spec mirrors (reads_extended vars left.reads) (reads_extended vars right.reads) (view_states wf extra left.reads)
    (view_states wf extra right.reads)).1
  have losing : (e.equiv.pre (e.reachable.inter (e.top.diff (e.won goal e.unfair.value)))).Reads (sys.extended vars).stateBit :=
    reads_equiv_pre wf extra ofToo ((reads_extended vars wf.reachable_state_set.reads).inter (reads_top.diff won))
  have jumped : (e.jump.pre (e.top.diff (e.equiv.pre (e.reachable.inter (e.top.diff (e.won goal e.unfair.value)))))).Reads
      (sys.extended vars).stateBit := by
    show ((sys.toFrame.relation _ vars).pre _).Reads _
    rw [Frame.relation_extended]
    exact Frame.reads_relation_pre (extra.laid wf.laid) (reads_jump wf vars) (reads_top.diff losing)
  rw [winning_eq]
  refine .within wf.reachable_state_set ((jumped.hide (codeBits vars)).mono ?_)
  rintro b ⟨bit, notCode⟩
  have stateOrCode : b ∈ sys.stateBits ++ codeBits vars := Frame.extended_state_bits sys.toFrame vars ▸ bit
  exact (List.mem_append.mp stateOrCode).resolve_right notCode

theorem finds_state_set (wf : sys.WellFormed) (of : t.Of sys) (ofToo : u.Of sys) (played : sys.PlayedSet moves) (left : sys.StateSet goal.left)
    (right : sys.StateSet goal.right) :
    Yields (ofMoves sys t (sys.equivalenceOf u) moves) fun e => sys.StateSet (e.winning goal e.unfair.value).value := by
  intro e found
  obtain ⟨vars, rules, extra, prescribes, _, rfl⟩ := of_moves_spec wf of _ played e found
  exact winning_state_set wf of ofToo extra played prescribes left right

end Encoding

end Coalition
