import Coalition.Evaluation.Temporal
import Coalition.Model.Team
import Coalition.Proofs.Model.Step
import Coalition.Proofs.Region.Loop

-- From more states, more states have a successor there, more are reached, more look the same as one of them, and more moves force a step
-- there.

set_option autoImplicit false

namespace Coalition

open Region

theorem Relation.isotone_pre {r : Relation} {n : Nat} (region : r.region.Over n) (identity : r.identity.Over n) : Isotone n r.pre :=
  Isotone.inter (.const region) (((Isotone.id.hide r.inputBits).inter (.const identity)).hide r.stateBits) |>.hide (r.nextBits ++ r.inputBits)

namespace System.WellFormed

variable {sys : System} (wf : sys.WellFormed) {protocol moves fair : Region} (t : Team)

include wf

theorem over_mask : sys.statesMask.Over sys.space.size := wf.state_set_range (.mask _)

theorem over_inputs : sys.inputsMask.Over sys.space.size :=
  wf.reads_range (sys.reads_inputs_mask.mono (sys.input_subset_move.trans sys.move_subset_step))

theorem over_trans : sys.trans.Over sys.space.size := wf.reads_range wf.transReads

theorem over_identity : sys.identity.Over sys.space.size :=
  wf.reads_range ((Frame.reads_identity wf.laid).mono fun _ bit => .inl bit)

theorem over_moves {s : Region} (reads : s.Reads sys.moveBit) : s.Over sys.space.size := wf.reads_range (reads.mono sys.move_subset_step)

theorem over_reachable : sys.reachable.Over sys.space.size := wf.state_set_range wf.reachable_state_set

theorem over_fairness : ∀ c ∈ sys.fairness, c.Over sys.space.size := fun c listed => wf.state_set_range (wf.fairness c listed)

theorem isotone_states_of : Isotone sys.space.size sys.statesOf := (Isotone.id.hide sys.inputBits).inter (.const wf.over_mask)

theorem isotone_pre : Isotone sys.space.size sys.pre := Relation.isotone_pre wf.over_trans wf.over_identity

theorem isotone_post : Isotone sys.space.size sys.post := by
  have image := (Isotone.inter (.const (wf.over_trans.inter (reads_univ _))) .id).hide (sys.stateBits ++ sys.inputBits)
  exact (image.inter (.const wf.over_identity)).hide sys.nextBits

theorem isotone_pre_inputs : Isotone sys.space.size fun r => sys.preInputs r .univ := by
  have moved := ((Isotone.id.hide sys.inputBits).inter (.const wf.over_identity)).hide sys.stateBits
  exact (Isotone.inter (.const (wf.over_trans.inter (reads_univ _))) moved).hide sys.nextBits

theorem isotone_some_next (spans : fair.Over sys.space.size) : Isotone sys.space.size (sys.someNext fair) :=
  wf.isotone_pre.comp (wf.isotone_states_of.inter (.const spans))

theorem isotone_equivalents : Isotone sys.space.size (sys.equivalents t) :=
  ((Isotone.id.inter (.const wf.over_mask)).hide (sys.unobserved t)).inter (.const wf.over_mask)

theorem isotone_possible_for_some (spans : fair.Over sys.space.size) : Isotone sys.space.size (sys.possibleForSome fair t) :=
  .union_all t.singles fun agent _ => (wf.isotone_equivalents agent).comp ((Isotone.id.inter (.const wf.over_reachable)).inter (.const spans))

theorem isotone_equivalents_for_some : Isotone sys.space.size (sys.equivalentsForSome t) :=
  .union_all t.singles fun agent _ => wf.isotone_equivalents agent

theorem isotone_link (hidden : List (List Nat)) :
    Isotone sys.space.size fun z => hidden.foldl (fun r bits => r.union ((z.hide bits).inter sys.reachable)) z :=
  .fold_union hidden (fun bits _ => (Isotone.id.hide bits).inter (.const wf.over_reachable)) .id

variable (protocolOver : protocol.Over sys.space.size)

include protocolOver

theorem isotone_forcing_moves (movesOver : moves.Over sys.space.size) :
    Isotone sys.space.size fun target => sys.forcingMoves t protocol target moves := by
  have escapes := (wf.isotone_pre_inputs.hide (sys.otherInputs t)).dual (protocolOver.inter movesOver) wf.over_mask
  exact escapes.comp (Isotone.id.hide sys.inputBits)

theorem isotone_forcing_states : Isotone sys.space.size fun target => sys.forcingStates t protocol target .univ :=
  (wf.isotone_forcing_moves t protocolOver (reads_univ _)).hide sys.inputBits

theorem isotone_unavoidable : Isotone sys.space.size (sys.unavoidableStates t protocol) :=
  ((wf.isotone_forcing_states t protocolOver).dual wf.over_mask wf.over_mask).comp (Isotone.id.hide sys.inputBits)

end System.WellFormed

end Coalition
