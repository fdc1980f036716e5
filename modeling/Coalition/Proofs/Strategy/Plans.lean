import Coalition.Proofs.Model.Inclusion
import Coalition.Proofs.Region.Plan
import Coalition.Proofs.Strategy.StateSets
import Coalition.Strategy.MoveGame

-- The plans of the operators: reachability and knowledge by chains, path operators under fairness, the games on states and on moves, and
-- encodings.

set_option autoImplicit false

namespace Coalition

open Region Plan

theorem up_from_empty (r : Region) : Direction.up.le .empty r := by
  show Region.empty.members ⊆ r.members
  simp

theorem down_into {r s t : Region} (le : s.members ⊆ r.members) (within : t.members ⊆ s.members) : Direction.down.le r t :=
  within.trans le

theorem union_within {top unfair : Region} (left right : Region) (within : unfair.members ⊆ top.members) :
    (((left.inter top).union (right.inter top)).union unfair).members ⊆ top.members := by
  rw [members_union, members_union]
  exact Set.union_subset (Set.union_subset (inter_subset_right _ _) (inter_subset_right _ _)) within

namespace System

variable (sys : System)

def reachPlan (source : Region) : Plan :=
  .loop .up .empty (.union (.const (sys.statesOf source)) (.image sys.post (.var 0)))

def commonPlan (t : Team) (states : Region) : Plan :=
  .loop .up (sys.statesOf states)
    (.image (fun z => (t.singles.map sys.unobserved).foldl (fun r bits => r.union ((z.hide bits).inter sys.reachable)) z) (.var 0))

-- Under fairness every step looks for a path to each constraint.
def alwaysPlan (states : Region) : Plan :=
  if sys.fairness.isEmpty then .loop .down sys.statesMask (.inter (.const states) (.image sys.pre (.var 0)))
  else
    .loop .down sys.statesMask <| interOver (.const states) (fun c =>
      .image sys.pre <| .loop .up .empty <|
        .union (.inter (.var 1) (.const c)) (.inter (.const states) (.image sys.pre (.var 0)))) sys.fairness

def untilPlan (fair left right : Region) : Plan :=
  .loop .up .empty <|
    .union (.const ((right.inter fair).inter sys.reachable)) (.inter (.const left) (.image (sys.someNext fair) (.var 0)))

def chainPlan (fair : Region) (t : Team) (states : Region) : Plan :=
  .loop .up .empty (.image (sys.possibleForSome fair t) (.union (.var 0) (.const states)))

def linkPlan (t : Team) (states : Region) : Plan :=
  .loop .up .empty (.union (.const states) (.inter (.image (sys.equivalentsForSome t) (.var 0)) (.const sys.reachable)))

variable {sys} {source states fair left right : Region} {t : Team}

theorem reach_from_plan : sys.reachFrom source = ((sys.reachPlan source).eval sys.space.size []).value := rfl

theorem common_equivalents_plan : sys.commonEquivalents t states = ((sys.commonPlan t states).eval sys.space.size []).value := rfl

theorem some_always_plan : sys.someAlways states = (sys.alwaysPlan states).eval sys.space.size [] := by
  unfold someAlways alwaysPlan
  split
  · rfl
  · exact eval_loop fun z => eval_inter_over fun c _ => rfl

theorem some_until_plan : sys.someUntil fair left right = (sys.untilPlan fair left right).eval sys.space.size [] := rfl

theorem possible_by_chain_plan : sys.possibleByChain fair t states = (sys.chainPlan fair t states).eval sys.space.size [] := rfl

theorem equivalents_by_chain_plan : sys.equivalentsByChain t states = (sys.linkPlan t states).eval sys.space.size [] := rfl

namespace WellFormed

variable (wf : sys.WellFormed)

include wf

theorem regular_reach (spans : source.Over sys.space.size) : (sys.reachPlan source).Regular sys.space.size :=
  ⟨reads_empty _, ⟨wf.isotone_states_of.keeps source spans, wf.isotone_post, trivial⟩, fun _ _ => up_from_empty _⟩

theorem regular_common (spans : states.Over sys.space.size) : (sys.commonPlan t states).Regular sys.space.size := by
  refine ⟨wf.isotone_states_of.keeps states spans, ⟨wf.isotone_link _, trivial⟩, fun _ _ ρ member => ?_⟩
  show ρ ∈ (List.foldl _ (sys.statesOf states) _).members
  rw [← List.foldl_map (f := fun bits => (Region.hide _ bits).inter sys.reachable) (g := Region.union), mem_fold_union]
  exact .inl member

theorem regular_always (known : sys.StateSet states) : (sys.alwaysPlan states).Regular sys.space.size := by
  have spans := wf.state_set_range known
  unfold alwaysPlan
  split
  · exact ⟨wf.over_mask, ⟨spans, wf.isotone_pre, trivial⟩, fun _ _ => down_into known.inside (inter_subset_left _ _)⟩
  · refine ⟨wf.over_mask, regular_inter_over spans fun c listed => ⟨wf.isotone_pre, ?_⟩, fun _ _ => ?_⟩
    · exact ⟨reads_empty _, ⟨⟨trivial, wf.over_fairness c listed⟩, spans, wf.isotone_pre, trivial⟩, fun _ _ => up_from_empty _⟩
    · exact down_into known.inside (inter_over_subset _ _ _ _)

variable (fairOver : fair.Over sys.space.size)

include fairOver

theorem regular_until (leftOver : left.Over sys.space.size) (rightOver : right.Over sys.space.size) :
    (sys.untilPlan fair left right).Regular sys.space.size :=
  ⟨reads_empty _, ⟨(rightOver.inter fairOver).inter wf.over_reachable, leftOver, wf.isotone_some_next fairOver, trivial⟩,
    fun _ _ => up_from_empty _⟩

theorem regular_chain (spans : states.Over sys.space.size) : (sys.chainPlan fair t states).Regular sys.space.size :=
  ⟨reads_empty _, ⟨wf.isotone_possible_for_some t fairOver, trivial, spans⟩, fun _ _ => up_from_empty _⟩

omit fairOver in
theorem regular_link (spans : states.Over sys.space.size) : (sys.linkPlan t states).Regular sys.space.size :=
  ⟨reads_empty _, ⟨spans, ⟨wf.isotone_equivalents_for_some t, trivial⟩, wf.over_reachable⟩, fun _ _ => up_from_empty _⟩

end WellFormed

end System

namespace StateGame

variable (g : StateGame)

-- For each constraint the team avoids it from where it can, until it has come back to what it wins already.
def unfairPlan : Plan :=
  .loop .up .empty <| unionOver (fun c =>
    .image g.force <| .loop .down g.sys.statesMask <|
      .inter (.union (.var 1) (.const (g.sys.statesOutside c))) (.image g.force (.var 0))) g.sys.fairness

def permitAlwaysPlan (body : Region) : Plan :=
  if g.sys.fairness.isEmpty then .loop .down g.sys.statesMask (.inter (.const body) (.image g.permit (.var 0)))
  else
    .loop .down g.sys.statesMask <| interOver (.const body) (fun c =>
      .image g.permit <| .loop .up .empty <|
        .union (.inter (.var 1) (.const c)) (.inter (.const body) (.image g.permit (.var 0)))) g.sys.fairness

def forceStrongPlan (unfair left right : Region) : Plan :=
  if g.sys.fairness.isEmpty then .loop .up .empty (.union (.const right) (.inter (.const left) (.image g.force (.var 0))))
  else
    let stay := (right.union left).union unfair
    .loop .up .empty <| .image (fun won => stay.inter (right.union won)) <| unionOver (fun c =>
      .image g.force <| .loop .down g.sys.statesMask <|
        .inter (.inter (.const stay) (.union (.var 1) (.const (g.sys.statesOutside c))))
          (.union (.const right) (.image g.force (.var 0)))) g.sys.fairness

def forceWeakPlan (unfair left right : Region) : Plan :=
  .loop .down g.sys.statesMask
    (.inter (.const ((right.union left).union unfair)) (.union (.const right) (.image g.force (.var 0))))

def permitStrongPlan (fair left right : Region) : Plan :=
  .loop .up .empty (.union (.const (right.inter fair)) (.inter (.const left) (.image g.permit (.var 0))))

def permitWeakPlan (fair left right : Region) : Plan :=
  if g.sys.fairness.isEmpty then
    .loop .down g.sys.statesMask (.union (.const right) (.inter (.const left) (.image g.permit (.var 0))))
  else
    let goal := right.inter fair
    .loop .down g.sys.statesMask <| .image (fun stay => goal.union stay) <| interOver (.const left) (fun c =>
      .image g.permit <| .loop .up .empty <|
        .union (.union (.const goal) (.inter (.var 1) (.const c))) (.inter (.const left) (.image g.permit (.var 0)))) g.sys.fairness

variable {g} {body bad good left right target : Region}

theorem unfair_plan : g.unfair = g.unfairPlan.eval g.sys.space.size [] := by
  unfold unfair unfairPlan
  exact eval_loop fun z => eval_union_over fun c _ => rfl

theorem permit_always_plan : g.permitAlways body = (g.permitAlwaysPlan body).eval g.sys.space.size [] := by
  unfold permitAlways permitAlwaysPlan
  split
  · rfl
  · exact eval_loop fun z => eval_inter_over fun c _ => rfl

theorem force_strong_plan : g.forceStrong bad left right = (g.forceStrongPlan bad left right).eval g.sys.space.size [] := by
  unfold forceStrong forceStrongPlan
  split
  · rfl
  · exact eval_loop fun z => eval_image (eval_union_over fun c _ => rfl)

theorem force_weak_plan : g.forceWeak bad left right = (g.forceWeakPlan bad left right).eval g.sys.space.size [] := rfl

theorem permit_strong_plan : g.permitStrong good left right = (g.permitStrongPlan good left right).eval g.sys.space.size [] := rfl

theorem permit_weak_plan : g.permitWeak good left right = (g.permitWeakPlan good left right).eval g.sys.space.size [] := by
  unfold permitWeak permitWeakPlan
  split
  · rfl
  · exact eval_loop fun z => eval_image (eval_inter_over fun c _ => rfl)

section

variable (plays : g.Plays)

include plays

theorem protocol_over : g.protocol.Over g.sys.space.size := plays.system.over_moves plays.played.reads

theorem isotone_force : Isotone g.sys.space.size g.force := plays.system.isotone_forcing_states g.team (protocol_over plays)

theorem isotone_permit : Isotone g.sys.space.size g.permit := plays.system.isotone_unavoidable g.team (protocol_over plays)

theorem force_inside (target : Region) : (g.force target).members ⊆ g.sys.statesMask.members := by
  have moves : (g.sys.forcingMoves g.team g.protocol target .univ).members ⊆ g.sys.statesMask.members := by
    unfold System.forcingMoves
    rw [members_diff, members_inter]
    exact fun ρ member => (plays.played.masked member.1.1).1
  refine (hide_mono _ moves).trans fun ρ member => ?_
  obtain ⟨σ, inside, same⟩ := (Frame.mem_hide_inputs plays.system.laid (Frame.StateSet.mask g.sys.toFrame).moves).mp member
  exact (Frame.mem_of_state g.sys.reads_states_mask same).mp inside

theorem outside_over {c : Region} (listed : c ∈ g.sys.fairness) : (g.sys.statesOutside c).Over g.sys.space.size :=
  plays.system.over_mask.diff (plays.system.over_fairness c listed)

theorem regular_unfair : g.unfairPlan.Regular g.sys.space.size := by
  have forces := isotone_force plays
  refine ⟨reads_empty _, regular_union_over fun c listed => ⟨forces, plays.system.over_mask, ?_, fun _ _ => ?_⟩, fun _ _ => up_from_empty _⟩
  · exact ⟨⟨trivial, outside_over plays listed⟩, forces, trivial⟩
  · exact down_into (force_inside plays _) (inter_subset_right _ _)

theorem regular_permit_always (known : g.sys.StateSet body) : (g.permitAlwaysPlan body).Regular g.sys.space.size := by
  have permits := isotone_permit plays
  have spans := plays.system.state_set_range known
  unfold permitAlwaysPlan
  split
  · exact ⟨plays.system.over_mask, ⟨spans, permits, trivial⟩, fun _ _ => down_into known.inside (inter_subset_left _ _)⟩
  · refine ⟨plays.system.over_mask, regular_inter_over spans fun c listed => ⟨permits, ?_⟩, fun _ _ => ?_⟩
    · exact ⟨reads_empty _, ⟨⟨trivial, plays.system.over_fairness c listed⟩, spans, permits, trivial⟩, fun _ _ => up_from_empty _⟩
    · exact down_into known.inside (inter_over_subset _ _ _ _)

variable (leftKnown : g.sys.StateSet left) (rightKnown : g.sys.StateSet right)

include leftKnown rightKnown

theorem regular_force_strong (badKnown : g.sys.StateSet bad) : (g.forceStrongPlan bad left right).Regular g.sys.space.size := by
  have forces := isotone_force plays
  have mask := plays.system.over_mask
  have leftOver := plays.system.state_set_range leftKnown
  have rightOver := plays.system.state_set_range rightKnown
  have stay : g.sys.StateSet ((right.union left).union bad) := (rightKnown.union leftKnown).union badKnown
  have stayOver := plays.system.state_set_range stay
  unfold forceStrongPlan
  split
  · exact ⟨reads_empty _, ⟨rightOver, leftOver, forces, trivial⟩, fun _ _ => up_from_empty _⟩
  · refine ⟨reads_empty _, ⟨.inter (.const stayOver) (.union (.const rightOver) .id), regular_union_over fun c listed => ?_⟩,
      fun _ _ => up_from_empty _⟩
    refine ⟨forces, mask, ⟨⟨stayOver, trivial, outside_over plays listed⟩, rightOver, forces, trivial⟩, fun _ _ => ?_⟩
    exact down_into stay.inside ((inter_subset_left _ _).trans (inter_subset_left _ _))

theorem regular_force_weak (badKnown : g.sys.StateSet bad) : (g.forceWeakPlan bad left right).Regular g.sys.space.size := by
  have stay : g.sys.StateSet ((right.union left).union bad) := (rightKnown.union leftKnown).union badKnown
  have stayOver := plays.system.state_set_range stay
  have rightOver := plays.system.state_set_range rightKnown
  refine ⟨plays.system.over_mask, ⟨stayOver, rightOver, isotone_force plays, trivial⟩, ?_⟩
  exact fun _ _ => down_into stay.inside (inter_subset_left _ _)

variable (goodOver : good.Over g.sys.space.size)

include goodOver

theorem regular_permit_strong : (g.permitStrongPlan good left right).Regular g.sys.space.size :=
  ⟨reads_empty _, ⟨(plays.system.state_set_range rightKnown).inter goodOver, plays.system.state_set_range leftKnown, isotone_permit plays,
    trivial⟩, fun _ _ => up_from_empty _⟩

theorem regular_permit_weak : (g.permitWeakPlan good left right).Regular g.sys.space.size := by
  have permits := isotone_permit plays
  have mask := plays.system.over_mask
  have leftOver := plays.system.state_set_range leftKnown
  have rightOver := plays.system.state_set_range rightKnown
  have goalOver := rightOver.inter goodOver
  unfold permitWeakPlan
  split
  · refine ⟨mask, ⟨rightOver, leftOver, permits, trivial⟩, fun _ _ => down_into (Set.Subset.refl _) ?_⟩
    refine (members_union _ _).trans_subset (Set.union_subset rightKnown.inside ?_)
    exact (inter_subset_left _ _).trans leftKnown.inside
  · refine ⟨mask, ⟨.union (.const goalOver) .id, regular_inter_over leftOver fun c listed => ⟨permits, ?_⟩⟩,
      fun _ _ => down_into (Set.Subset.refl _) ?_⟩
    · exact ⟨reads_empty _, ⟨⟨goalOver, trivial, plays.system.over_fairness c listed⟩, leftOver, permits, trivial⟩,
        fun _ _ => up_from_empty _⟩
    · refine (members_union _ _).trans_subset (Set.union_subset ?_ ((inter_over_subset _ _ _ _).trans leftKnown.inside))
      exact (inter_subset_left _ _).trans rightKnown.inside

end

end StateGame

namespace MoveGame

variable (g : MoveGame)

def unfairPlan : Plan :=
  if g.sys.fairness.isEmpty then .const .empty
  else
    .loop .up .empty <| unionOver (fun c =>
      .image g.force <| .loop .down g.top <|
        .inter (.union (.var 1) (.const (g.outside c))) (.image g.force (.var 0))) g.sys.fairness

def strongPlan (left right : Region) : Plan :=
  let left := left.inter g.top
  let right := right.inter g.top
  if g.sys.fairness.isEmpty then .loop .up .empty (.union (.const right) (.inter (.const left) (.image g.force (.var 0))))
  else
    .given g.unfairPlan fun unfair =>
      let stay := (right.union left).union unfair
      .loop .up .empty <| .image (fun won => stay.inter (right.union won)) <| unionOver (fun c =>
        .image g.force <| .loop .down g.top <|
          .inter (.inter (.const stay) (.union (.var 1) (.const (g.outside c))))
            (.union (.const right) (.image g.force (.var 0)))) g.sys.fairness

def weakPlan (left right : Region) : Plan :=
  let left := left.inter g.top
  let right := right.inter g.top
  .given g.unfairPlan fun unfair =>
    .loop .down g.top (.inter (.const ((right.union left).union unfair)) (.union (.const right) (.image g.force (.var 0))))

def winningPlan (goal : Goal) : Plan :=
  .given (match goal.kind with
    | .next => .given g.unfairPlan fun unfair => .const (g.force ((goal.right.inter g.sys.movesMask).union unfair))
    | .strong => g.strongPlan goal.left goal.right
    | .weak => g.weakPlan goal.left goal.right)
    fun won => .const ((won.inter g.sys.movesMask).inter g.protocol)

variable {g} {left right : Region} {goal : Goal}

theorem unfair_plan : g.unfair = g.unfairPlan.eval g.sys.space.size [] := by
  unfold unfair unfairPlan
  split
  · rfl
  · exact eval_loop fun z => eval_union_over fun c _ => rfl

theorem strong_plan : g.strong left right = (g.strongPlan left right).eval g.sys.space.size [] := by
  unfold strong strongPlan
  dsimp only
  split
  · rfl
  · exact eval_given unfair_plan fun unfair => eval_loop fun z => eval_image (eval_union_over fun c _ => rfl)

theorem weak_plan : g.weak left right = (g.weakPlan left right).eval g.sys.space.size [] := eval_given unfair_plan fun _ => rfl

theorem winning_plan : g.winning goal = (g.winningPlan goal).eval g.sys.space.size [] := by
  unfold winning winningPlan
  cases goal.kind with
  | next => exact eval_given (eval_given unfair_plan fun _ => rfl) fun won => rfl
  | strong => exact eval_given strong_plan fun won => rfl
  | weak => exact eval_given weak_plan fun won => rfl

section

variable (wf : g.sys.WellFormed) (protocol : g.sys.PlayedSet g.protocol) (moves : g.sys.PlayedSet g.moves)

theorem force_within (inside : g.protocol.members ⊆ g.sys.movesMask.members) (target : Region) :
    (g.force target).members ⊆ g.top.members := by
  unfold force System.forcingMoves top
  rw [members_diff, members_inter, members_inter]
  exact fun ρ member => ⟨inside member.1.1, member.1.2⟩

include wf moves

theorem top_over : g.top.Over g.sys.space.size :=
  (wf.over_mask.inter wf.over_inputs).inter (wf.over_moves moves.reads)

theorem constraint_over {c : Region} (listed : c ∈ g.sys.fairness) : (g.outside c).Over g.sys.space.size :=
  (wf.over_mask.diff (wf.over_fairness c listed)).inter (top_over wf moves)

include protocol

theorem isotone_force : Isotone g.sys.space.size g.force :=
  wf.isotone_forcing_moves g.team (wf.over_moves protocol.reads) (wf.over_moves moves.reads)

theorem regular_unfair : g.unfairPlan.Regular g.sys.space.size := by
  have forces := isotone_force wf protocol moves
  unfold unfairPlan
  split
  · exact reads_empty _
  · refine ⟨reads_empty _, regular_union_over fun c listed => ⟨forces, top_over wf moves, ?_, fun _ _ => ?_⟩, fun _ _ => up_from_empty _⟩
    · exact ⟨⟨trivial, constraint_over wf moves listed⟩, forces, trivial⟩
    · exact down_into (force_within protocol.inside _) (inter_subset_right _ _)

omit wf moves in
theorem unfair_within : g.unfair.value.members ⊆ g.top.members := by
  unfold unfair
  split
  · simp
  · refine (fixpoint_induct (K := fun _ => True) (P := fun r => r.members ⊆ g.top.members) (fun _ _ => trivial) (fun z _ _ => ?_)
      trivial (by simp)).2
    exact union_over_keeps (K := fun r => r.members ⊆ g.top.members) (by simp)
      (fun r s first second => (members_union r s).trans_subset (Set.union_subset first second)) fun c _ => force_within protocol.inside _

theorem regular_strong (leftOver : left.Over g.sys.space.size) (rightOver : right.Over g.sys.space.size) :
    (g.strongPlan left right).Regular g.sys.space.size := by
  have forces := isotone_force wf protocol moves
  have top := top_over wf moves
  have leftIn := leftOver.inter top
  have rightIn := rightOver.inter top
  unfold strongPlan
  dsimp only
  split
  · exact ⟨reads_empty _, ⟨rightIn, leftIn, forces, trivial⟩, fun _ _ => up_from_empty _⟩
  · have unfair := regular_unfair wf protocol moves
    have unfairOver := eval_over unfair (List.forall_mem_nil _)
    have within := unfair_within protocol
    rw [unfair_plan] at within
    refine ⟨unfair, reads_empty _, ⟨.inter (.const ((rightIn.union leftIn).union unfairOver)) (.union (.const rightIn) .id),
      regular_union_over fun c listed => ⟨forces, top, ?_, fun _ _ => ?_⟩⟩, fun _ _ => up_from_empty _⟩
    · exact ⟨⟨(rightIn.union leftIn).union unfairOver, trivial, constraint_over wf moves listed⟩, rightIn, forces, trivial⟩
    · exact down_into (union_within right left within) ((inter_subset_left _ _).trans (inter_subset_left _ _))

theorem regular_weak (leftOver : left.Over g.sys.space.size) (rightOver : right.Over g.sys.space.size) :
    (g.weakPlan left right).Regular g.sys.space.size := by
  have top := top_over wf moves
  have leftIn := leftOver.inter top
  have rightIn := rightOver.inter top
  have unfair := regular_unfair wf protocol moves
  have unfairOver := eval_over unfair (List.forall_mem_nil _)
  have within := unfair_within protocol
  rw [unfair_plan] at within
  refine ⟨unfair, top, ⟨(rightIn.union leftIn).union unfairOver, rightIn, isotone_force wf protocol moves, trivial⟩, fun _ _ => ?_⟩
  exact down_into (union_within right left within) (inter_subset_left _ _)

theorem regular_winning (leftOver : goal.left.Over g.sys.space.size) (rightOver : goal.right.Over g.sys.space.size) :
    (g.winningPlan goal).Regular g.sys.space.size := by
  have mask := wf.over_mask.inter wf.over_inputs
  have won : ∀ p : Plan, p.Regular g.sys.space.size →
      (Plan.given p fun won => .const ((won.inter g.sys.movesMask).inter g.protocol)).Regular g.sys.space.size := fun p regular =>
    ⟨regular, ((eval_over regular (List.forall_mem_nil _)).inter mask).inter (wf.over_moves protocol.reads)⟩
  unfold winningPlan
  apply won
  cases goal.kind with
  | next =>
      have unfair := regular_unfair wf protocol moves
      exact ⟨unfair, (isotone_force wf protocol moves).keeps _ ((rightOver.inter mask).union (eval_over unfair (List.forall_mem_nil _)))⟩
  | strong => exact regular_strong wf protocol moves leftOver rightOver
  | weak => exact regular_weak wf protocol moves leftOver rightOver

end

end MoveGame

namespace Encoding

variable (e : Encoding)

def unfairPlan : Plan :=
  if e.fairness.isEmpty then .const .empty
  else
    .given (.loop .down e.top <| interOver (.const e.top) (fun c =>
      .image e.dia <| .loop .up .empty (.union (.inter (.var 1) (.const c)) (.image e.dia (.var 0)))) e.fairness)
      fun fair => .const (e.valid.diff fair)

def strongPlan (left right unfair : Region) : Plan :=
  if e.fairness.isEmpty then .loop .up .empty (.union (.const right) (.inter (.const left) (.image e.box (.var 0))))
  else
    let stay := (left.union right).union unfair
    .loop .up .empty <| .image (fun won => stay.inter (right.union won)) <| unionOver (fun c =>
      .image e.box <| .loop .down e.top <|
        .inter (.inter (.union (.var 1) (.const (e.top.diff c))) (.const stay)) (.union (.const right) (.image e.box (.var 0)))) e.fairness

def weakPlan (left right unfair : Region) : Plan :=
  .loop .down e.top (.inter (.const ((left.union right).union unfair)) (.union (.const right) (.image e.box (.var 0))))

def winningPlan (goal : Goal) (unfair : Region) : Plan :=
  let left := goal.left.inter e.top
  let right := goal.right.inter e.top
  .given (match goal.kind with
    | .next => .const (e.box (right.union unfair))
    | .strong => e.strongPlan left right unfair
    | .weak => e.weakPlan left right unfair)
    fun won =>
      let losing := e.equiv.pre (e.reachable.inter (e.top.diff won))
      .const (((e.jump.pre (e.top.diff losing)).hide e.bits).inter e.reachable)

variable {e} {left right unfair : Region} {goal : Goal}

theorem unfair_plan : e.unfair = e.unfairPlan.eval e.size [] := by
  unfold Encoding.unfair unfairPlan
  split
  · rfl
  · exact eval_given (eval_loop fun z => eval_inter_over fun c _ => rfl) fun fair => rfl

theorem strong_plan : e.strong left right unfair = (e.strongPlan left right unfair).eval e.size [] := by
  unfold strong strongPlan
  split
  · rfl
  · exact eval_loop fun z => eval_image (eval_union_over fun c _ => rfl)

theorem winning_plan : e.winning goal unfair = (e.winningPlan goal unfair).eval e.size [] := by
  unfold winning winningPlan
  cases goal.kind with
  | next => rfl
  | strong => exact eval_given strong_plan fun won => rfl
  | weak => rfl

structure Over (e : Encoding) : Prop where
  top : e.top.Over e.size
  valid : e.valid.Over e.size
  inside : e.valid.members ⊆ e.top.members
  follow : Isotone e.size e.follow.pre
  equiv : Isotone e.size e.equiv.pre
  jump : Isotone e.size e.jump.pre
  fairness : ∀ c ∈ e.fairness, c.Over e.size
  reachable : e.reachable.Over e.size

namespace Over

variable (spans : e.Over)

include spans

theorem isotone_dia : Isotone e.size e.dia := .inter (.const spans.valid) spans.follow

theorem isotone_box : Isotone e.size e.box := .inter (.const spans.valid) (spans.follow.dual spans.top spans.top)

theorem regular_unfair : e.unfairPlan.Regular e.size := by
  have possible := spans.isotone_dia
  unfold unfairPlan
  split
  · exact reads_empty _
  · have fair : (Plan.loop .down e.top <| interOver (.const e.top) (fun c =>
        .image e.dia <| .loop .up .empty (.union (.inter (.var 1) (.const c)) (.image e.dia (.var 0)))) e.fairness).Regular e.size := by
      refine ⟨spans.top, regular_inter_over spans.top fun c listed => ⟨possible, reads_empty _, ?_, fun _ _ => up_from_empty _⟩, fun _ _ => ?_⟩
      · exact ⟨⟨trivial, spans.fairness c listed⟩, possible, trivial⟩
      · exact down_into (Set.Subset.refl _) (inter_over_subset _ _ _ _)
    exact ⟨fair, spans.valid.diff (eval_over fair (List.forall_mem_nil _))⟩

variable (leftOver : left.Over e.size) (rightOver : right.Over e.size) (unfairOver : unfair.Over e.size)

include leftOver rightOver unfairOver

theorem regular_strong (stay : ((left.union right).union unfair).members ⊆ e.top.members) :
    (e.strongPlan left right unfair).Regular e.size := by
  have forces := spans.isotone_box
  have stayOver := (leftOver.union rightOver).union unfairOver
  unfold strongPlan
  split
  · exact ⟨reads_empty _, ⟨rightOver, leftOver, forces, trivial⟩, fun _ _ => up_from_empty _⟩
  · refine ⟨reads_empty _, ⟨.inter (.const stayOver) (.union (.const rightOver) .id), regular_union_over fun c listed => ?_⟩,
      fun _ _ => up_from_empty _⟩
    refine ⟨forces, spans.top, ⟨⟨⟨trivial, spans.top.diff (spans.fairness c listed)⟩, stayOver⟩, rightOver, forces, trivial⟩, fun _ _ => ?_⟩
    exact down_into stay ((inter_subset_left _ _).trans (inter_subset_right _ _))

theorem regular_weak (stay : ((left.union right).union unfair).members ⊆ e.top.members) : (e.weakPlan left right unfair).Regular e.size :=
  ⟨spans.top, ⟨(leftOver.union rightOver).union unfairOver, rightOver, spans.isotone_box, trivial⟩,
    fun _ _ => down_into stay (inter_subset_left _ _)⟩

omit leftOver rightOver in
theorem regular_winning (leftOver : goal.left.Over e.size) (rightOver : goal.right.Over e.size)
    (within : unfair.members ⊆ e.top.members) : (e.winningPlan goal unfair).Regular e.size := by
  have left := leftOver.inter spans.top
  have right := rightOver.inter spans.top
  have stay := union_within goal.left goal.right within
  have known : ∀ won : Region, won.Over e.size →
      (((e.jump.pre (e.top.diff (e.equiv.pre (e.reachable.inter (e.top.diff won))))).hide e.bits).inter e.reachable).Over e.size := by
    intro won wonOver
    have losing := spans.equiv.keeps _ (spans.reachable.inter (spans.top.diff wonOver))
    exact ((spans.jump.keeps _ (spans.top.diff losing)).hide_within e.bits).inter spans.reachable
  have whole : ∀ p : Plan, p.Regular e.size → (Plan.given p fun won =>
      .const (((e.jump.pre (e.top.diff (e.equiv.pre (e.reachable.inter (e.top.diff won))))).hide e.bits).inter e.reachable)).Regular e.size :=
    fun p regular => ⟨regular, known _ (eval_over regular (List.forall_mem_nil _))⟩
  unfold winningPlan
  apply whole
  cases goal.kind with
  | next => exact spans.isotone_box.keeps _ (right.union unfairOver)
  | strong => exact spans.regular_strong left right unfairOver stay
  | weak => exact spans.regular_weak left right unfairOver stay

end Over

theorem of_moves_over {sys : System} (wf : sys.WellFormed) {t u : Team} (of : t.Of sys) (ofToo : u.Of sys) {moves : Region}
    (played : sys.PlayedSet moves) : Yields (ofMoves sys t (sys.equivalenceOf u) moves) fun e => e.size = sys.space.size ∧ e.Over := by
  intro e found
  obtain ⟨vars, rules, extra, prescribes, _, rfl⟩ := of_moves_spec wf of _ played e found
  have laid := extra.laid wf.laid
  have range : ∀ {r : Region}, r.Reads (sys.extended vars).stepBit → r.Over sys.space.size := fun reads => reads.mono fun b bit => by
    rw [Finset.mem_coe, Finset.mem_range]
    exact laid.declared b bit
  have states : ∀ {r : Region}, r.Reads (sys.extended vars).stateBit → r.Over sys.space.size :=
    fun reads => range (reads.mono fun _ bit => .inl (.inl bit))
  have relation : ∀ r : Region, r.Reads (sys.extended vars).stepBit → Isotone sys.space.size (sys.toFrame.relation r vars).pre := by
    intro r reads
    rw [Frame.relation_extended]
    exact Relation.isotone_pre (range reads) (range ((Frame.reads_identity laid).mono fun _ bit => .inl bit))
  refine ⟨rfl, states reads_top, states (reads_valid wf of played prescribes), inter_subset_right _ _,
    relation _ (reads_follow wf extra of prescribes), relation _ ?_, relation _ (reads_jump wf vars), wf.over_fairness, wf.over_reachable⟩
  exact ((wf.reads_equivalence ofToo).mono (step_extended vars)).inter (reads_unchanged_codes extra)

namespace Over

variable (spans : e.Over)

include spans

theorem unfair_within : e.unfair.value.Over e.size ∧ e.unfair.value.members ⊆ e.top.members := by
  refine ⟨?_, ?_⟩
  · rw [unfair_plan]
    exact eval_over spans.regular_unfair (List.forall_mem_nil _)
  · unfold Encoding.unfair
    split
    · show Region.empty.members ⊆ _
      simp
    · show (e.valid.diff _).members ⊆ _
      rw [members_diff]
      exact Set.sdiff_subset.trans spans.inside

variable {n : Nat} (size : e.size = n)

include size

theorem unfair_planned : e.unfair = e.unfairPlan.eval n [] ∧ e.unfairPlan.Regular n := by
  subst size
  exact ⟨unfair_plan, spans.regular_unfair⟩

theorem winning_planned (same : unfair = e.unfair.value) (leftOver : goal.left.Over n) (rightOver : goal.right.Over n) :
    e.winning goal unfair = (e.winningPlan goal unfair).eval n [] ∧ (e.winningPlan goal unfair).Regular n := by
  subst size same
  obtain ⟨unfairOver, within⟩ := spans.unfair_within
  exact ⟨winning_plan, spans.regular_winning unfairOver leftOver rightOver within⟩

end Over

end Encoding

end Coalition
