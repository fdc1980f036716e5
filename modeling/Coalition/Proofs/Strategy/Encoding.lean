import Coalition.Proofs.Evaluation.Winnable
import Coalition.Proofs.Strategy.Code
import Coalition.Proofs.Strategy.Mirror

-- Every code of an encoding is a uniform strategy and every uniform strategy lies within one, and what the encoding computes for a code
-- is what winning with its moves means.

set_option autoImplicit false

namespace Coalition

def Valuation.under (s κ : Valuation) (bits : List Nat) : Valuation := fun b => if b ∈ bits then κ b else s b

namespace System

-- In every reachable state something is played, and what is played in one is played in all that look the same.
structure Regular (sys : System) (t : Team) (moves : Set Valuation) : Prop where
  lively : ∀ s, sys.Reachable s → ∃ ρ ∈ moves, sys.stateOf ρ = s
  alike : ∀ ρ ∈ moves, ∀ u, sys.Reachable u → t.Same ρ u → ∃ σ ∈ moves, sys.stateOf σ = u ∧ t.Plays σ ρ

def Shared (sys : System) (t : Team) (moves : Set Valuation) : Prop :=
  ∀ ρ ∈ moves, ∀ u, sys.Reachable u → t.Same ρ u → ∃ σ ∈ moves, sys.stateOf σ = u ∧ t.Plays σ ρ

def Obeys (sys : System) (vars : List Variable) (rules : List Encoding.Rule) (κ ρ : Valuation) : Prop :=
  ∀ rule ∈ rules, (sys.stateOf ρ).under κ (codeBits vars) ∈ rule.condition.members → ρ ∈ rule.action.members

def obeying (sys : System) (vars : List Variable) (rules : List Encoding.Rule) (κ : Valuation) (moves : Set Valuation) : Set Valuation :=
  {ρ | ρ ∈ moves ∧ sys.Obeys vars rules κ ρ}

-- The reachable states under a code. A state forces what all transitions that obey the rules lead to.
def arenaUnder (sys : System) (vars : List Variable) (rules : List Encoding.Rule) (κ : Valuation) : Arena Valuation where
  top := {s | sys.Reachable s}
  force := ⟨fun X => {s | sys.Reachable s ∧ ∀ τ ∈ sys.trans.members, sys.stateOf τ = s → sys.Obeys vars rules κ τ → sys.nextOf τ ∈ X},
    fun _ _ le _ ⟨reached, forced⟩ => ⟨reached, fun τ trans here obeys => le (forced τ trans here obeys)⟩⟩
  constraints := sys.fairness.map (·.members)
  force_top _ _ member := member.1

-- The reachable states where one of the moves is what the rules prescribe, or nothing is prescribed.
def liveUnder (sys : System) (vars : List Variable) (rules : List Encoding.Rule) (κ : Valuation) (moves : Set Valuation) : Set Valuation :=
  {s | sys.Reachable s ∧ ∀ rule ∈ rules, s.under κ (codeBits vars) ∈ rule.condition.members →
    ∃ ρ ∈ moves, sys.stateOf ρ = s ∧ ρ ∈ rule.action.members}

def stepUnder (sys : System) (vars : List Variable) (rules : List Encoding.Rule) (κ : Valuation) (moves : Set Valuation) :
    Set Valuation →o Set Valuation where
  toFun X := sys.liveUnder vars rules κ moves ∩ (sys.arenaUnder vars rules κ).permit X
  monotone' _ _ le := Set.inter_subset_inter_right _ ((sys.arenaUnder vars rules κ).permit.mono le)

-- The states under a code, which force something only where what is prescribed can be played.
def arenaPlaying (sys : System) (vars : List Variable) (rules : List Encoding.Rule) (κ : Valuation) (moves : Set Valuation) :
    Arena Valuation :=
  (sys.arenaUnder vars rules κ).limit (sys.liveUnder vars rules κ moves)

end System

namespace Encoding

variable {sys : System} {t : Team} {vars : List Variable} {rules : List Rule} {moves : Set Valuation} {κ s u ρ σ τ : Valuation}

theorem under_code (s κ : Valuation) {bits : List Nat} {b : Nat} (code : b ∈ bits) : s.under κ bits b = κ b := if_pos code

theorem under_state (extra : sys.Extra vars) (laid : sys.Laid) (s κ : Valuation) {b : Nat} (state : b ∈ sys.stateBits) :
    s.under κ (codeBits vars) b = s b := by
  refine if_neg fun code => ?_
  have less := laid.declared b (.inl (.inl state))
  have more := (extra.reserved b code).1
  omega

theorem coded_under (s : Valuation) (coded : Coded vars κ) : Coded vars (s.under κ (codeBits vars)) :=
  coded.congr fun _ code => (under_code s κ code).symm

section

variable (wf : sys.WellFormed) (of : t.Of sys) (extra : sys.Extra vars) (inside : moves ⊆ (sys.protocolOf t).members)
  (regular : sys.Regular t moves) (governs : Governs sys t moves vars rules)

include wf

include of inside in
theorem played_reached (played : ρ ∈ moves) : sys.Reachable (sys.stateOf ρ) :=
  wf.mem_reachable.mp (wf.protocol_inside of (inside played)).2

include extra

theorem state_under (s κ : Valuation) : sys.stateOf (s.under κ (codeBits vars)) = sys.stateOf s :=
  Frame.state_of_eq_iff.mpr fun _ state => under_state extra wf.laid s κ state

theorem masked_under (reached : sys.Reachable s) (κ : Valuation) : s.under κ (codeBits vars) ∈ sys.statesMask.members := by
  have here := wf.reachable_state_set.inside (wf.mem_of_reachable reached)
  exact (Frame.mem_of_state sys.reads_states_mask (state_under wf extra s κ)).mpr here

include of

theorem same_under (s κ : Valuation) : t.Same s (s.under κ (codeBits vars)) := by
  rw [← wf.same_states of, state_under wf extra]
  exact .refl t _

include governs regular

theorem exists_obeying (coded : Coded vars κ) (reached : sys.Reachable s) : ∃ ρ ∈ sys.obeying vars rules κ moves, sys.stateOf ρ = s := by
  obtain ⟨ρ, played, rfl⟩ := regular.lively s reached
  have seen := (wf.same_state_of of ρ).trans (same_under wf of extra (sys.stateOf ρ) κ)
  obtain ⟨rule, listed, applies⟩ := governs.applies ρ played _ (masked_under wf extra reached κ) seen (coded_under _ coded)
  obtain ⟨μ, playedMu, spec, same⟩ := governs.plays rule listed
  have alike := (same _ applies).trans (same_under wf of extra (sys.stateOf ρ) κ).symm
  obtain ⟨σ, playedSigma, here, plays⟩ := regular.alike μ playedMu _ reached alike
  refine ⟨σ, ⟨playedSigma, fun other otherListed otherApplies => ?_⟩, here⟩
  rw [here] at otherApplies
  rw [← governs.unique rule listed other otherListed _ applies otherApplies, spec]
  exact plays

omit regular

theorem obeys_iff (coded : Coded vars κ) (obeys : ρ ∈ sys.obeying vars rules κ moves) (reached : sys.Reachable (sys.stateOf ρ))
    (here : sys.stateOf τ = sys.stateOf ρ) : sys.Obeys vars rules κ τ ↔ t.Plays τ ρ := by
  constructor
  · intro obeysTau
    have seen := (wf.same_state_of of ρ).trans (same_under wf of extra (sys.stateOf ρ) κ)
    obtain ⟨rule, listed, applies⟩ := governs.applies ρ obeys.1 _ (masked_under wf extra reached κ) seen (coded_under _ coded)
    obtain ⟨μ, _, spec, _⟩ := governs.plays rule listed
    have first := (spec ρ).mp (obeys.2 rule listed applies)
    have second := (spec τ).mp (obeysTau rule listed (here.symm ▸ applies))
    exact second.trans first.symm
  · intro plays rule listed applies
    obtain ⟨μ, _, spec, _⟩ := governs.plays rule listed
    rw [here] at applies
    exact (spec τ).mpr (plays.trans ((spec ρ).mp (obeys.2 rule listed applies)))

include inside

theorem obeying_agrees (coded : Coded vars κ) : Agreeing [t] (sys.obeying vars rules κ moves) := by
  intro w viewer ρ here σ there same
  obtain rfl := List.mem_singleton.mp viewer
  have reached := played_reached wf of inside here.1
  have reachedToo := played_reached wf of inside there.1
  have seen := (wf.same_state_of of ρ).trans (same_under wf of extra (sys.stateOf ρ) κ)
  obtain ⟨rule, listed, applies⟩ := governs.applies ρ here.1 _ (masked_under wf extra reached κ) seen (coded_under _ coded)
  have alike := (seen.symm.trans same).trans ((wf.same_state_of of σ).trans (same_under wf of extra (sys.stateOf σ) κ))
  have appliesToo := governs.spreads rule listed _ applies _ (masked_under wf extra reachedToo κ) alike fun b code => by
    rw [under_code _ _ code, under_code _ _ code]
  obtain ⟨μ, _, spec, _⟩ := governs.plays rule listed
  exact ((spec ρ).mp (here.2 rule listed applies)).trans ((spec σ).mp (there.2 rule listed appliesToo)).symm

include regular

theorem covers_under (coded : Coded vars κ) :
    Arena.Covers ((sys.arena t (sys.protocolOf t)).on (sys.obeying vars rules κ moves)) (sys.arenaUnder vars rules κ) sys.stateOf := by
  constructor
  case top => exact fun ρ member => played_reached wf of inside member.2.1
  case force =>
    intro Z X le
    have lifts {u : Valuation} (there : u ∈ X) :
        ∃ σ ∈ (sys.protocolOf t).members ∩ sys.obeying vars rules κ moves, sys.stateOf σ = u := by
      obtain ⟨σ, obeys, same⟩ := exists_obeying wf of extra regular governs coded (le there)
      exact ⟨σ, ⟨inside obeys.1, obeys⟩, same⟩
    ext ρ
    constructor
    · rintro ⟨obeys, member, forced⟩
      have reached := played_reached wf of inside obeys.1
      refine ⟨⟨member, obeys⟩, reached, fun τ trans here obeysTau => ?_⟩
      exact (System.leads_atop wf.laid lifts).mp (forced τ trans here ((obeys_iff wf of extra governs coded obeys reached here).mp obeysTau))
    · rintro ⟨⟨member, obeys⟩, reached, forced⟩
      refine ⟨obeys, member, fun τ trans here plays => (System.leads_atop wf.laid lifts).mpr ?_⟩
      exact forced τ trans here ((obeys_iff wf of extra governs coded obeys reached here).mpr plays)
  case constraints => exact wf.fairness_states

variable {goal : Goal} (left : sys.StateSet goal.left) (right : sys.StateSet goal.right)

include left right

theorem won_obeying (coded : Coded vars κ) : sys.won t (sys.protocolOf t) goal (sys.obeying vars rules κ moves) =
    {ρ | ρ ∈ sys.obeying vars rules κ moves ∧
      sys.stateOf ρ ∈ (sys.arenaUnder vars rules κ).wins goal.kind goal.left.members goal.right.members} := by
  have won := (covers_under wf of extra inside regular governs coded).wins_atop goal.kind goal.left.members goal.right.members
  rw [Frame.preimage_state left.reads, Frame.preimage_state right.reads] at won
  rw [System.won, won]
  ext ρ
  exact ⟨fun member => ⟨member.1.2, member.2⟩, fun member => ⟨⟨inside member.1.1, member.1⟩, member.2⟩⟩

theorem sure_obeying (coded : Coded vars κ) (reached : sys.Reachable s) :
    sys.Sure .group t (sys.won t (sys.protocolOf t) goal (sys.obeying vars rules κ moves)) s ↔
      ∀ u, sys.Reachable u → t.Same s u → u ∈ (sys.arenaUnder vars rules κ).wins goal.kind goal.left.members goal.right.members := by
  have here : ∀ u, sys.Reachable u →
      ((∃ ρ ∈ sys.won t (sys.protocolOf t) goal (sys.obeying vars rules κ moves), sys.stateOf ρ = u) ↔
        u ∈ (sys.arenaUnder vars rules κ).wins goal.kind goal.left.members goal.right.members) := by
    intro u reachedU
    rw [won_obeying wf of extra inside regular governs left right coded]
    constructor
    · rintro ⟨ρ, ⟨_, wins⟩, rfl⟩
      exact wins
    · intro wins
      obtain ⟨ρ, obeys, rfl⟩ := exists_obeying wf of extra regular governs coded reachedU
      exact ⟨ρ, ⟨obeys, wins⟩, rfl⟩
  constructor
  · rintro ⟨_, all⟩ u reachedU same
    exact (here u reachedU).mp (all t (List.mem_singleton.mpr rfl) u reachedU same)
  · intro all
    refine ⟨(here s reached).mpr (all s reached (.refl t s)), fun w viewer u reachedU same => (here u reachedU).mpr ?_⟩
    obtain rfl := List.mem_singleton.mp viewer
    exact all u reachedU same

-- What can be won is won under some code.
theorem winnable_coded : sys.Winnable .group t (sys.protocolOf t) goal moves s ↔ sys.Reachable s ∧ ∃ κ, Coded vars κ ∧
    ∀ u, sys.Reachable u → t.Same s u → u ∈ (sys.arenaUnder vars rules κ).wins goal.kind goal.left.members goal.right.members := by
  constructor
  · rintro ⟨U, le, agreeing, sure⟩
    obtain ⟨ρ, won, here⟩ := sure.1
    have reached : sys.Reachable s := here ▸ played_reached wf of inside (le (System.won_subset won))
    obtain ⟨κ, coded, chosen⟩ := governs.chosen U le agreeing
    refine ⟨reached, κ, coded, (sure_obeying wf of extra inside regular governs left right coded reached).mp (sure.mono ?_)⟩
    refine System.won_mono fun μ member => ⟨le member, fun rule listed applies => ?_⟩
    exact chosen μ member rule listed _ applies ((wf.same_state_of of μ).trans (same_under wf of extra _ κ))
      fun b code => (under_code _ _ code).symm
  · rintro ⟨reached, κ, coded, wins⟩
    exact ⟨_, fun _ member => member.1, obeying_agrees wf of extra inside governs coded,
      (sure_obeying wf of extra inside regular governs left right coded reached).mpr wins⟩

end

def encode (sys : System) (equivalence moves : Region) (vars : List Variable) (rules : List Rule) : Encoding where
  bits := codeBits vars
  top := sys.statesMask.inter (maskAll vars false)
  valid := (rules.foldl (fun r rule => r.inter (rule.condition.implies ((moves.inter rule.action).hide sys.inputBits)))
    (maskAll vars false)).inter (sys.statesMask.inter (maskAll vars false))
  follow := sys.toFrame.relation (rules.foldl (fun r rule => r.inter (rule.condition.implies rule.action))
    (sys.trans.inter (Region.interAll (vars.map (·.unchanged))))) vars
  equiv := sys.toFrame.relation (equivalence.inter (Region.interAll (vars.map (·.unchanged)))) vars
  jump := sys.toFrame.relation ((sys.statesMask.inter (maskAll vars true)).inter sys.identity) vars
  fairness := sys.fairness
  reachable := sys.reachable
  size := sys.space.size

theorem of_moves_spec (wf : sys.WellFormed) (of : t.Of sys) (equivalence : Region) {moves : Region} (played : sys.PlayedSet moves) :
    Yields (ofMoves sys t equivalence moves) fun e => ∃ vars rules, sys.Extra vars ∧ Prescribes sys t moves.members vars rules ∧
      (Counts sys t moves → Governs sys t moves.members vars rules) ∧ e = encode sys equivalence moves vars rules := by
  refine yields_bind (observations_yield wf of played) fun os ⟨seen, lists⟩ =>
    yields_bind (sys.strategy_vars_spec (by simp)) fun vars ⟨extra, sizes⟩ => yields_ok ?_
  refine ⟨vars, _, extra, prescriptions_prescribe seen extra sizes, fun counts => ?_, rfl⟩
  exact prescriptions_govern seen extra sizes (fun ρ member => (played.masked member).1) fun o known =>
    observed_complete wf of seen played lists counts known

theorem mem_rules {start : Region} {f : Rule → Region} :
    ρ ∈ (rules.foldl (fun r rule => r.inter (rule.condition.implies (f rule))) start).members ↔
      ρ ∈ start.members ∧ ∀ rule ∈ rules, ρ ∈ rule.condition.members → ρ ∈ (f rule).members := by
  induction rules generalizing start with
  | nil => simp
  | cons rule rest ih =>
      have implied : ρ ∈ (rule.condition.implies (f rule)).members ↔ (ρ ∈ rule.condition.members → ρ ∈ (f rule).members) := by
        simp only [Region.mem_members, Region.contains_implies]
        cases rule.condition.contains ρ <;> simp
      rw [List.foldl_cons, ih, Region.members_inter, Set.mem_inter_iff, implied, List.forall_mem_cons, and_assoc]

theorem reads_rules {start : Region} {f : Rule → Region} {bits : Set Nat} (known : start.Reads bits)
    (each : ∀ rule ∈ rules, rule.condition.Reads bits ∧ (f rule).Reads bits) :
    (rules.foldl (fun r rule => r.inter (rule.condition.implies (f rule))) start).Reads bits := by
  induction rules generalizing start with
  | nil => exact known
  | cons rule rest ih =>
      obtain ⟨condition, action⟩ := each rule List.mem_cons_self
      exact ih (known.inter (condition.implies action)) fun other listed => each other (List.mem_cons_of_mem _ listed)

theorem mem_mask_all : ρ ∈ (maskAll vars false).members ↔ Coded vars ρ := by
  unfold maskAll Coded
  rw [Region.mem_inter_all]
  simp only [List.forall_mem_map]

theorem mem_unchanged_all (extra : sys.Extra vars) :
    ρ ∈ (Region.interAll (vars.map (·.unchanged))).members ↔ ∀ b ∈ codeBits vars, ρ b = ρ (b + 1) := by
  rw [Region.mem_inter_all]
  simp only [List.forall_mem_map]
  constructor
  · intro all b code
    obtain ⟨v, listed, bit⟩ := List.mem_flatMap.mp code
    exact (Region.mem_unchanged (extra.paired v listed).2).mp (all v listed) b bit
  · intro all v listed
    exact (Region.mem_unchanged (extra.paired v listed).2).mpr fun b bit => all b (List.mem_flatMap.mpr ⟨v, listed, bit⟩)

section

variable {moves equivalence r target : Region} (wf : sys.WellFormed) (extra : sys.Extra vars)

theorem reads_extended (vars : List Variable) (reads : r.Reads sys.stateBit) : r.Reads (sys.extended vars).stateBit :=
  reads.mono fun b state => by
    rw [Frame.stateBit, Frame.extended_state_bits]
    exact List.mem_append_left _ state

theorem step_extended (vars : List Variable) : sys.stepBit ⊆ (sys.extended vars).stepBit := by
  rintro b ((state | next) | input)
  · refine .inl (.inl ?_)
    rw [Frame.stateBit, Frame.extended_state_bits]
    exact List.mem_append_left _ state
  · refine .inl (.inr ?_)
    rw [Frame.nextBit, Frame.extended_next_bits]
    exact List.mem_append_left _ next
  · exact .inr input

theorem reads_mask_codes (sys : System) (vars : List Variable) : (maskAll vars false).Reads (sys.extended vars).stateBit :=
  Frame.reads_mask_all fun v member b bit => by
    rw [Frame.stateBit, Frame.extended_state_bits]
    exact List.mem_append_right _ (List.mem_flatMap.mpr ⟨v, member, bit⟩)

theorem reads_mask_next_codes (sys : System) (vars : List Variable) : (maskAll vars true).Reads (sys.extended vars).stepBit :=
  Frame.reads_mask_all fun v member b bit => by
    refine .inl (.inr ?_)
    rw [Frame.nextBit, Frame.extended_next_bits]
    exact List.mem_append_right _ (List.mem_flatMap.mpr ⟨v, member, bit⟩)

theorem extended_move_step (vars : List Variable) : (sys.extended vars).stateBit ⊆ (sys.extended vars).stepBit :=
  (sys.extended vars).state_subset_move.trans (sys.extended vars).move_subset_step

include extra

theorem reads_unchanged_codes : (Region.interAll (vars.map (·.unchanged))).Reads (sys.extended vars).stepBit := by
  refine Region.Reads.of_mem fun ρ σ agree member => ?_
  rw [mem_unchanged_all extra] at member ⊢
  intro b code
  have now : b ∈ (sys.extended vars).stepBit := by
    refine .inl (.inl ?_)
    rw [Frame.stateBit, Frame.extended_state_bits]
    exact List.mem_append_right _ code
  have later : b + 1 ∈ (sys.extended vars).stepBit := by
    refine .inl (.inr ?_)
    rw [Frame.nextBit, Frame.extended_next_bits, extra.next_bits]
    exact List.mem_append_right _ (List.mem_map_of_mem code)
  rw [← agree b now, ← agree (b + 1) later, member b code]

include wf

theorem mem_under (reads : r.Reads (sys.extended vars).stateBit) (here : sys.stateOf ρ = sys.stateOf s)
    (code : ∀ b ∈ codeBits vars, ρ b = κ b) : ρ ∈ r.members ↔ s.under κ (codeBits vars) ∈ r.members := by
  rw [Frame.state_of_eq_iff] at here
  refine reads.congr fun b bit => ?_
  rw [Frame.stateBit, Frame.extended_state_bits] at bit
  rcases List.mem_append.mp bit with state | coded
  · rw [here b state, under_state extra wf.laid s κ state]
  · rw [code b coded, under_code s κ coded]

theorem mem_next_under (reads : r.Reads (sys.extended vars).stateBit) (later : ∀ b ∈ sys.stateBits, τ (b + 1) = u b)
    (code : ∀ b ∈ codeBits vars, τ (b + 1) = κ b) : (sys.extended vars).nextOf τ ∈ r.members ↔ u.under κ (codeBits vars) ∈ r.members := by
  refine Frame.mem_next_of (extra.laid wf.laid) reads fun b bit => ?_
  rw [Frame.extended_state_bits] at bit
  rcases List.mem_append.mp bit with state | coded
  · rw [later b state, under_state extra wf.laid u κ state]
  · rw [code b coded, under_code u κ coded]

theorem mem_pre_under (known : r.Reads (sys.extended vars).stepBit) (reads : target.Reads (sys.extended vars).stateBit) :
    s.under κ (codeBits vars) ∈ ((sys.toFrame.relation r vars).pre target).members ↔ ∃ τ ∈ r.members,
      (∀ b ∈ sys.stateBits, τ b = s b) ∧ (∀ b ∈ codeBits vars, τ b = κ b) ∧ (sys.extended vars).nextOf τ ∈ target.members := by
  rw [Frame.relation_extended, Frame.mem_relation_pre (extra.laid wf.laid) known reads]
  refine exists_congr fun τ => and_congr_right fun _ => ?_
  rw [Frame.state_of_eq_iff, Frame.extended_state_bits, ← and_assoc]
  refine and_congr_left fun _ => ?_
  rw [List.forall_mem_append]
  refine and_congr (forall₂_congr fun b state => ?_) (forall₂_congr fun b code => ?_)
  · rw [under_state extra wf.laid s κ state]
  · rw [under_code s κ code]

theorem exists_step_under (x s κ u μ : Valuation) : ∃ τ : Valuation, (∀ b ∈ sys.stateBits, τ b = s b) ∧ (∀ b ∈ codeBits vars, τ b = κ b) ∧
    (∀ b ∈ sys.inputBits, τ b = x b) ∧ (∀ b ∈ sys.stateBits, τ (b + 1) = u b) ∧ ∀ b ∈ codeBits vars, τ (b + 1) = μ b := by
  have laid := extra.laid wf.laid
  obtain ⟨τ, now, later⟩ := Frame.exists_step laid
    (Valuation.under (fun b => if b ∈ sys.inputBits then x b else s b) κ (codeBits vars)) (u.under μ (codeBits vars))
  have bits : ∀ b, b ∈ (sys.extended vars).stateBits ↔ b ∈ sys.stateBits ∨ b ∈ codeBits vars := by
    intro b
    rw [Frame.extended_state_bits, List.mem_append]
  refine ⟨τ, fun b state => ?_, fun b code => ?_, fun b input => ?_, fun b state => ?_, fun b code => ?_⟩
  · rw [now b (Frame.state_not_next laid ((bits b).mpr (.inl state))), under_state extra wf.laid _ κ state]
    exact if_neg fun input => (wf.laid.inputApart b input).1 state
  · rw [now b (Frame.state_not_next laid ((bits b).mpr (.inr code))), under_code _ κ code]
  · have apart := laid.inputApart b input
    rw [now b apart.2, Valuation.under, if_neg fun code => apart.1 ((bits b).mpr (.inr code)), if_pos input]
  · rw [later b ((bits b).mpr (.inl state)), under_state extra wf.laid u μ state]
  · rw [later b ((bits b).mpr (.inr code)), under_code u μ code]

section

variable (of : t.Of sys) (prescribes : Prescribes sys t moves.members vars rules)

omit wf extra in
theorem reads_action (wf : sys.WellFormed) (of : t.Of sys) {rule : Rule} (prescribes : Prescribes sys t moves.members vars rules)
    (listed : rule ∈ rules) : rule.action.Reads sys.inputBit := by
  obtain ⟨μ, _, spec, _⟩ := prescribes.plays rule listed
  refine Region.Reads.of_mem fun ρ σ agree member => ?_
  rw [spec] at member ⊢
  exact fun b acts => (agree b (wf.action_bit of acts)).symm.trans (member b acts)

include of prescribes

theorem reads_follow : (rules.foldl (fun r rule => r.inter (rule.condition.implies rule.action))
    (sys.trans.inter (Region.interAll (vars.map (·.unchanged))))).Reads (sys.extended vars).stepBit := by
  refine reads_rules ((wf.transReads.mono (step_extended vars)).inter (reads_unchanged_codes extra)) fun rule listed => ⟨?_, ?_⟩
  · exact (prescribes.reads rule listed).mono (extended_move_step vars)
  · exact (reads_action wf of prescribes listed).mono fun b input => .inr input

theorem mem_follow_pre (reads : target.Reads (sys.extended vars).stateBit) (reached : sys.Reachable s) :
    s.under κ (codeBits vars) ∈ ((encode sys equivalence moves vars rules).follow.pre target).members ↔
      ∃ τ ∈ sys.trans.members, sys.stateOf τ = s ∧ sys.Obeys vars rules κ τ ∧
        (sys.nextOf τ).under κ (codeBits vars) ∈ target.members := by
  refine (mem_pre_under wf extra (reads_follow wf extra of prescribes) reads).trans ?_
  have itself := wf.reachable_state reached
  have next : ∀ τ : Valuation, ∀ b ∈ sys.stateBits, τ (b + 1) = sys.nextOf τ b := by
    intro τ b state
    simp [Frame.next_of_apply wf.laid, state]
  simp only [mem_rules, Region.members_inter, Set.mem_inter_iff, mem_unchanged_all extra]
  constructor
  · rintro ⟨τ, ⟨⟨trans, unchanged⟩, obeys⟩, here, code, leads⟩
    have state : sys.stateOf τ = sys.stateOf s := Frame.state_of_eq_iff.mpr here
    refine ⟨τ, trans, state.trans itself, fun rule listed applies => obeys rule listed ?_, ?_⟩
    · exact (mem_under wf extra (prescribes.reads rule listed) (sys.state_of_state τ).symm code).mpr applies
    · exact (mem_next_under wf extra reads (next τ) fun b bit => (unchanged b bit).symm.trans (code b bit)).mp leads
  · rintro ⟨τ, trans, here, obeys, leads⟩
    obtain ⟨σ, now, code, inputs, later, unchanged⟩ := exists_step_under wf extra τ s κ (sys.nextOf τ) κ
    have state : ∀ b ∈ sys.stateBits, τ b = σ b := by
      intro b bit
      rw [now b bit, ← here]
      exact (Valuation.on_apply bit).symm
    refine ⟨σ, ⟨⟨?_, fun b bit => (code b bit).trans (unchanged b bit).symm⟩, fun rule listed applies => ?_⟩, now, code, ?_⟩
    · refine wf.trans_agree trans state (fun b input => (inputs b input).symm) fun b bit => ?_
      obtain ⟨c, member, rfl⟩ := List.mem_map.mp (Frame.next_bits_eq wf.laid ▸ bit)
      rw [later c member, next τ c member]
    · have same : sys.stateOf σ = sys.stateOf (sys.stateOf τ) := by
        rw [sys.state_of_state]
        exact Frame.state_of_eq_iff.mpr fun b bit => (state b bit).symm
      have known := obeys rule listed ((mem_under wf extra (prescribes.reads rule listed) same code).mp applies)
      exact (reads_action wf of prescribes listed).mem known fun b input => (inputs b input).symm
    · exact (mem_next_under wf extra reads later unchanged).mpr leads

end

theorem reads_equiv_pre (of : t.Of sys) (reads : target.Reads (sys.extended vars).stateBit) :
    ((encode sys (sys.equivalenceOf t) moves vars rules).equiv.pre target).Reads (sys.extended vars).stateBit := by
  show ((sys.toFrame.relation _ vars).pre _).Reads _
  rw [Frame.relation_extended]
  exact Frame.reads_relation_pre (extra.laid wf.laid)
    (((wf.reads_equivalence of).mono (step_extended vars)).inter (reads_unchanged_codes extra)) reads

theorem mem_equiv_pre (of : t.Of sys) (reads : target.Reads (sys.extended vars).stateBit) (reached : sys.Reachable s) :
    s.under κ (codeBits vars) ∈ ((encode sys (sys.equivalenceOf t) moves vars rules).equiv.pre target).members ↔
      ∃ u ∈ sys.statesMask.members, t.Same s u ∧ u.under κ (codeBits vars) ∈ target.members := by
  have known : ((sys.equivalenceOf t).inter (Region.interAll (vars.map (·.unchanged)))).Reads (sys.extended vars).stepBit :=
    ((wf.reads_equivalence of).mono (step_extended vars)).inter (reads_unchanged_codes extra)
  refine (mem_pre_under wf extra known reads).trans ?_
  have next : ∀ τ : Valuation, ∀ b ∈ sys.stateBits, τ (b + 1) = sys.nextOf τ b := by
    intro τ b state
    simp [Frame.next_of_apply wf.laid, state]
  simp only [Region.members_inter, Set.mem_inter_iff, mem_unchanged_all extra, wf.mem_equivalence of]
  constructor
  · rintro ⟨τ, ⟨⟨_, masked, same⟩, unchanged⟩, here, code, leads⟩
    refine ⟨sys.nextOf τ, masked, ?_, ?_⟩
    · have alike : t.Same (sys.stateOf s) (sys.stateOf τ) := (Frame.state_of_eq_iff.mpr here) ▸ .refl t _
      exact ((wf.same_states of).mp alike).trans same
    · exact (mem_next_under wf extra reads (next τ) fun b bit => (unchanged b bit).symm.trans (code b bit)).mp leads
  · rintro ⟨u, masked, same, leads⟩
    obtain ⟨τ, now, code, _, later, unchanged⟩ := exists_step_under wf extra s s κ u κ
    have here : sys.stateOf τ = sys.stateOf s := Frame.state_of_eq_iff.mpr now
    have there : sys.nextOf τ = sys.stateOf u := by
      rw [← Frame.state_of_next wf.laid, Frame.state_of_eq_iff]
      exact fun b state => (next τ b state).symm.trans (later b state)
    refine ⟨τ, ⟨⟨?_, ?_, ?_⟩, fun b bit => (code b bit).trans (unchanged b bit).symm⟩, now, code,
      (mem_next_under wf extra reads later unchanged).mpr leads⟩
    · exact (Frame.mem_of_state sys.reads_states_mask here).mpr (wf.reachable_state_set.inside (wf.mem_of_reachable reached))
    · rw [there, Frame.mem_state_of sys.reads_states_mask]
      exact masked
    · rw [there]
      have alike : t.Same (sys.stateOf τ) (sys.stateOf s) := here ▸ .refl t _
      exact (((wf.same_states of).mp alike).trans same).trans (wf.same_state_of of u)

omit extra in
theorem reads_jump (vars : List Variable) :
    ((sys.statesMask.inter (maskAll vars true)).inter sys.identity).Reads (sys.extended vars).stepBit := by
  refine ((reads_extended vars sys.reads_states_mask).mono (extended_move_step vars) |>.inter (reads_mask_next_codes sys vars)).inter ?_
  exact (Frame.reads_identity wf.laid).mono (Set.subset_union_left.trans (step_extended vars))

theorem mem_jump_pre (reads : target.Reads (sys.extended vars).stateBit) (reached : sys.Reachable s) :
    s.under κ (codeBits vars) ∈ ((encode sys equivalence moves vars rules).jump.pre target).members ↔
      ∃ μ, Coded vars μ ∧ s.under μ (codeBits vars) ∈ target.members := by
  refine (mem_pre_under wf extra (reads_jump wf vars) reads).trans ?_
  have paired : ∀ v ∈ vars, v.nextBits = v.bits.map (· + 1) := fun v member => (extra.paired v member).2
  simp only [Region.members_inter, Set.mem_inter_iff, Frame.mem_identity wf.laid]
  constructor
  · rintro ⟨τ, ⟨⟨_, masked⟩, same⟩, here, _, leads⟩
    have coded := (Frame.mem_mask_next paired (σ := fun b => τ (b + 1)) fun _ _ _ _ => rfl).mp masked
    refine ⟨fun b => τ (b + 1), mem_mask_all.mp coded, ?_⟩
    exact (mem_next_under wf extra reads (fun b state => (same b state).symm.trans (here b state)) fun _ _ => rfl).mp leads
  · rintro ⟨μ, coded, leads⟩
    obtain ⟨τ, now, code, _, later, after⟩ := exists_step_under wf extra s s κ s μ
    have here : sys.stateOf τ = sys.stateOf s := Frame.state_of_eq_iff.mpr now
    refine ⟨τ, ⟨⟨?_, ?_⟩, fun b state => (now b state).trans (later b state).symm⟩, now, code,
      (mem_next_under wf extra reads later after).mpr leads⟩
    · exact (Frame.mem_of_state sys.reads_states_mask here).mpr (wf.reachable_state_set.inside (wf.mem_of_reachable reached))
    · refine (Frame.mem_mask_next paired (σ := μ) fun v member b bit => ?_).mpr (mem_mask_all.mpr coded)
      exact (after b (List.mem_flatMap.mpr ⟨v, member, bit⟩)).symm

end

def view (sys : System) (vars : List Variable) (κ : Valuation) (r : Region) : Set Valuation :=
  {s | sys.Reachable s ∧ s.under κ (codeBits vars) ∈ r.members}

theorem view_inter (r q : Region) : view sys vars κ (r.inter q) = view sys vars κ r ∩ view sys vars κ q := by
  ext s
  simp only [view, Region.members_inter, Set.mem_ofPred_eq, Set.mem_inter_iff]
  tauto

theorem view_union (r q : Region) : view sys vars κ (r.union q) = view sys vars κ r ∪ view sys vars κ q := by
  ext s
  simp only [view, Region.members_union, Set.mem_ofPred_eq, Set.mem_union]
  tauto

theorem view_diff (r q : Region) : view sys vars κ (r.diff q) = view sys vars κ r \ view sys vars κ q := by
  ext s
  simp only [view, Region.members_diff, Set.mem_ofPred_eq, Set.mem_sdiff]
  tauto

theorem view_empty : view sys vars κ .empty = ∅ := by
  ext s
  simp [view]

theorem view_mono {r q : Region} (le : r.members ⊆ q.members) : view sys vars κ r ⊆ view sys vars κ q :=
  fun _ ⟨reached, here⟩ => ⟨reached, le here⟩

section

variable {moves equivalence r q : Region} (wf : sys.WellFormed) (of : t.Of sys) (extra : sys.Extra vars)
  (played : sys.PlayedSet moves) (regular : sys.Regular t moves.members) (prescribes : Prescribes sys t moves.members vars rules)
  (coded : Coded vars κ)

theorem reads_top : (encode sys equivalence moves vars rules).top.Reads (sys.extended vars).stateBit :=
  (reads_extended vars sys.reads_states_mask).inter (reads_mask_codes sys vars)

include wf extra

theorem reads_code_range (reads : r.Reads (sys.extended vars).stateBit) :
    r.Reads (Finset.range (encode sys equivalence moves vars rules).size : Finset Nat) :=
  reads.mono fun b bit => by
    have less := (extra.laid wf.laid).declared b (.inl (.inl bit))
    rw [Finset.mem_coe, Finset.mem_range]
    exact less

include coded

theorem view_top : view sys vars κ (encode sys equivalence moves vars rules).top = (sys.arenaUnder vars rules κ).top := by
  ext s
  refine and_iff_left_of_imp fun reached => ?_
  show _ ∈ (Region.inter _ _).members
  rw [Region.members_inter]
  exact ⟨masked_under wf extra reached κ, mem_mask_all.mpr (coded_under s coded)⟩

omit coded

theorem view_states (known : r.Reads sys.stateBit) : view sys vars κ r = r.members ∩ {s | sys.Reachable s} := by
  ext s
  have same : s.under κ (codeBits vars) ∈ r.members ↔ s ∈ r.members := Frame.mem_of_state known (state_under wf extra s κ)
  show _ ∧ _ ↔ _ ∧ _
  rw [same, and_comm]
  rfl

include of played prescribes

omit extra in
theorem reads_valid : (encode sys equivalence moves vars rules).valid.Reads (sys.extended vars).stateBit := by
  refine Region.Reads.inter (reads_rules (reads_mask_codes sys vars) fun rule listed => ⟨prescribes.reads rule listed, ?_⟩)
    (@reads_top _ _ rules moves equivalence)
  refine reads_extended vars (Frame.reads_hide_inputs (played.reads.inter ?_))
  exact (reads_action wf of prescribes listed).mono sys.input_subset_move

include coded

theorem view_valid : view sys vars κ (encode sys equivalence moves vars rules).valid = sys.liveUnder vars rules κ moves.members := by
  ext s
  refine and_congr_right fun reached => ?_
  have top := (@view_top _ _ rules _ moves equivalence wf extra coded).ge (reached : s ∈ (sys.arenaUnder vars rules κ).top)
  show _ ∈ (Region.inter _ _).members ↔ _
  rw [Region.members_inter]
  refine (and_iff_left top.2).trans (mem_rules.trans ((and_iff_right (mem_mask_all.mpr (coded_under s coded))).trans ?_))
  refine forall₂_congr fun rule listed => imp_congr_right fun _ => ?_
  have actionReads := (reads_action wf of prescribes listed).mono sys.input_subset_move
  rw [Frame.mem_hide_inputs wf.laid (played.reads.inter actionReads)]
  unfold Frame.HasState
  simp only [state_under wf extra, wf.reachable_state reached, Region.members_inter, Set.mem_inter_iff]
  exact exists_congr fun σ => by tauto

theorem view_box (reads : r.Reads (sys.extended vars).stateBit) : view sys vars κ ((encode sys equivalence moves vars rules).box r) =
    (sys.arenaPlaying vars rules κ moves.members).force (view sys vars κ r) := by
  rw [box, view_inter, view_diff, view_valid wf of extra played prescribes coded, view_top wf extra coded]
  refine congrArg (sys.liveUnder vars rules κ moves.members ∩ ·) (Set.ext fun s => ?_)
  refine and_congr_right fun reached => ?_
  show ¬ (_ ∧ _) ↔ _
  rw [mem_follow_pre wf extra of prescribes (reads_top.diff reads) reached]
  constructor
  · intro none τ trans here obeys
    have next := System.Reachable.next (here.symm ▸ reached : sys.Reachable (sys.stateOf τ)) trans
    refine ⟨next, ?_⟩
    by_contra outside
    refine none ⟨reached, τ, trans, here, obeys, ?_⟩
    rw [Region.members_diff]
    have top := (@view_top _ _ rules _ moves equivalence wf extra coded).ge next
    exact ⟨top.2, outside⟩
  · rintro forced ⟨_, τ, trans, here, obeys, outside⟩
    rw [Region.members_diff] at outside
    exact outside.2 (forced τ trans here obeys).2

theorem view_dia (reads : r.Reads (sys.extended vars).stateBit) : view sys vars κ ((encode sys equivalence moves vars rules).dia r) =
    sys.stepUnder vars rules κ moves.members (view sys vars κ r) := by
  rw [dia, view_inter, view_valid wf of extra played prescribes coded]
  refine congrArg (sys.liveUnder vars rules κ moves.members ∩ ·) (Set.ext fun s => ?_)
  refine and_congr_right fun reached => ?_
  show _ ↔ ¬ (_ ∧ _)
  rw [mem_follow_pre wf extra of prescribes reads reached]
  constructor
  · rintro ⟨τ, trans, here, obeys, inside⟩ ⟨_, forced⟩
    have next := System.Reachable.next (here.symm ▸ reached : sys.Reachable (sys.stateOf τ)) trans
    exact (forced τ trans here obeys).2 ⟨next, inside⟩
  · intro free
    by_contra none
    refine free ⟨reached, fun τ trans here obeys => ?_⟩
    have next := System.Reachable.next (here.symm ▸ reached : sys.Reachable (sys.stateOf τ)) trans
    exact ⟨next, fun inside => none ⟨τ, trans, here, obeys, inside.2⟩⟩

theorem mirrors_under : Mirrors (encode sys equivalence moves vars rules) (sys.extended vars).stateBit (view sys vars κ)
    (sys.arenaPlaying vars rules κ moves.members) (sys.stepUnder vars rules κ moves.members) where
  viewing := ⟨view_inter, view_union, view_diff, view_empty, fun _ _ => view_mono⟩
  range _ := reads_code_range wf extra
  topReads := reads_top
  top := view_top wf extra coded
  validReads := reads_valid wf of played prescribes
  valid X := (view_valid wf of extra played prescribes coded).symm ▸ Set.inter_subset_left
  boxReads r reads := by
    refine (reads_valid wf of played prescribes).inter (reads_top.diff ?_)
    have known := reads_follow wf extra of prescribes
    have target := (@reads_top sys vars rules moves equivalence).diff reads
    show ((sys.toFrame.relation _ vars).pre _).Reads _
    rw [Frame.relation_extended]
    exact Frame.reads_relation_pre (extra.laid wf.laid) known target
  box _ := view_box wf of extra played prescribes coded
  diaReads r reads := by
    refine (reads_valid wf of played prescribes).inter ?_
    show ((sys.toFrame.relation _ vars).pre _).Reads _
    rw [Frame.relation_extended]
    exact Frame.reads_relation_pre (extra.laid wf.laid) (reads_follow wf extra of prescribes) reads
  dia _ := view_dia wf of extra played prescribes coded
  possible X s member := ⟨member.2.1, fun forced => member.2.2 forced.2⟩
  inside _ _ member := member.1
  constraintReads c listed := reads_extended vars (wf.fairness c listed).reads
  constraints := ⟨Region.members, rfl, fun c listed => view_states wf extra (wf.fairness c listed).reads⟩
  within X := by
    refine congrArg (sys.liveUnder vars rules κ moves.members ∩ ·) (Set.ext fun s => ?_)
    refine and_congr_right fun reached => forall₂_congr fun τ trans => forall₂_congr fun here _ => ?_
    exact and_iff_left (System.Reachable.next (here.symm ▸ reached : sys.Reachable (sys.stateOf τ)) trans)

omit played prescribes coded

theorem mem_safe {won : Region} (coded : Coded vars κ) (reads : won.Reads (sys.extended vars).stateBit) (reached : sys.Reachable s) :
    let e := encode sys (sys.equivalenceOf t) moves vars rules
    s.under κ (codeBits vars) ∈ (e.top.diff (e.equiv.pre (e.reachable.inter (e.top.diff won)))).members ↔
      ∀ u, sys.Reachable u → t.Same s u → u ∈ view sys vars κ won := by
  intro e
  have target : (e.reachable.inter (e.top.diff won)).Reads (sys.extended vars).stateBit :=
    (reads_extended vars wf.reachable_state_set.reads).inter (reads_top.diff reads)
  have top := fun u reachedU => ((@view_top _ _ rules κ moves (sys.equivalenceOf t) wf extra coded).ge
    (reachedU : u ∈ (sys.arenaUnder vars rules κ).top)).2
  rw [Region.members_diff, Set.mem_sdiff, mem_equiv_pre wf extra of target reached]
  simp only [Region.members_inter, Region.members_diff, Set.mem_inter_iff, Set.mem_sdiff]
  constructor
  · rintro ⟨_, none⟩ u reachedU same
    refine ⟨reachedU, ?_⟩
    by_contra outside
    have inside := wf.mem_of_reachable reachedU
    refine none ⟨u, wf.reachable_state_set.inside inside, same, ?_, top u reachedU, outside⟩
    exact (Frame.mem_of_state wf.reachable_state_set.reads (state_under wf extra u κ)).mpr inside
  · intro all
    refine ⟨top _ reached, ?_⟩
    rintro ⟨u, _, same, inside, _, outside⟩
    have reachedU : sys.Reachable (sys.stateOf u) := by
      rw [← state_under wf extra u κ]
      exact wf.mem_reachable.mp inside
    have here := all (sys.stateOf u) reachedU (same.trans (wf.same_state_of of u))
    refine outside ((mem_under wf extra reads ?_ fun b code => under_code u κ code).mpr here.2)
    rw [state_under wf extra, sys.state_of_state]

omit of in
theorem mem_hide_jump {target : Region} (reads : target.Reads (sys.extended vars).stateBit) (reached : sys.Reachable (sys.stateOf ρ)) :
    ρ ∈ (((encode sys equivalence moves vars rules).jump.pre target).hide (codeBits vars)).members ↔
      ∃ κ, Coded vars κ ∧ (sys.stateOf ρ).under κ (codeBits vars) ∈ target.members := by
  have jumpReads : ((encode sys equivalence moves vars rules).jump.pre target).Reads (sys.extended vars).stateBit := by
    show ((sys.toFrame.relation _ vars).pre _).Reads _
    rw [Frame.relation_extended]
    exact Frame.reads_relation_pre (extra.laid wf.laid) (reads_jump wf vars) reads
  rw [Region.mem_hide]
  constructor
  · rintro ⟨σ, jumped, agree⟩
    have same : sys.stateOf σ = sys.stateOf (sys.stateOf ρ) := by
      rw [sys.state_of_state, Frame.state_of_eq_iff]
      refine fun b state => agree b fun code => ?_
      have less := wf.laid.declared b (.inl (.inl state))
      have more := (extra.reserved b code).1
      omega
    exact (mem_jump_pre wf extra reads reached).mp ((mem_under wf extra jumpReads same fun _ _ => rfl).mp jumped)
  · rintro ⟨κ, coded, inside⟩
    have jumped := (@mem_jump_pre _ _ rules κ _ moves equivalence _ wf extra reads reached).mpr ⟨κ, coded, inside⟩
    refine ⟨ρ.under κ (codeBits vars), (mem_under wf extra jumpReads ?_ fun b code => under_code ρ κ code).mpr jumped,
      fun b outside => if_neg outside⟩
    rw [state_under wf extra, sys.state_of_state]

include played prescribes

variable {goal : Goal} (left : sys.StateSet goal.left) (right : sys.StateSet goal.right)

include left right

-- The encoding finds the states where some code wins from every reachable state that looks the same.
theorem mem_winning : ρ ∈ ((encode sys (sys.equivalenceOf t) moves vars rules).winning goal
      (encode sys (sys.equivalenceOf t) moves vars rules).unfair.value).value.members ↔
    sys.Reachable (sys.stateOf ρ) ∧ ∃ κ, Coded vars κ ∧ ∀ u, sys.Reachable u → t.Same (sys.stateOf ρ) u →
      u ∈ (sys.arenaPlaying vars rules κ moves.members).counting
        (view sys vars κ (encode sys (sys.equivalenceOf t) moves vars rules).unfair.value) goal.kind goal.left.members goal.right.members := by
  have spec := fun κ coded => won_spec (@mirrors_under _ t _ _ κ _ (sys.equivalenceOf t) wf of extra played prescribes coded)
    (reads_extended vars left.reads) (reads_extended vars right.reads) (view_states wf extra left.reads)
    (view_states wf extra right.reads)
  obtain ⟨some, codedSome⟩ := prescribes.coded
  have wonReads := (spec some codedSome).1
  have wins := fun κ coded => (spec κ coded).2
  rw [winning_eq, Region.members_inter, Set.mem_inter_iff, and_comm]
  generalize (encode sys (sys.equivalenceOf t) moves vars rules).won goal _ = won at *
  refine (and_congr_left' wf.mem_reachable).trans (and_congr_right fun reached => ?_)
  refine (mem_hide_jump wf extra (reads_top.diff (reads_equiv_pre wf extra of ?_)) reached).trans ?_
  · exact (reads_extended vars wf.reachable_state_set.reads).inter (reads_top.diff wonReads)
  · refine exists_congr fun κ => and_congr_right fun coded => ?_
    rw [← wins κ coded]
    exact mem_safe wf of extra coded wonReads reached

omit played left right in
-- Moves that are offered wherever the team sees the same are prescribed only where they can be played.
theorem live_under (shared : sys.Shared t moves.members) : sys.liveUnder vars rules κ moves.members = {s | sys.Reachable s} := by
  refine Set.Subset.antisymm (fun s member => member.1) fun s reached => ⟨reached, fun rule listed applies => ?_⟩
  obtain ⟨μ, playedMu, spec, same⟩ := prescribes.plays rule listed
  obtain ⟨σ, playedSigma, here, plays⟩ := shared μ playedMu s reached ((same _ applies).trans (same_under wf of extra s κ).symm)
  exact ⟨σ, playedSigma, here, (spec σ).mpr plays⟩

omit wf of extra played prescribes left right in
theorem playing_eq (live : sys.liveUnder vars rules κ moves.members = {s | sys.Reachable s}) :
    sys.arenaPlaying vars rules κ moves.members = sys.arenaUnder vars rules κ :=
  Arena.limit_eq fun X => live.symm ▸ (sys.arenaUnder vars rules κ).force_top X

omit left right in
-- Where everything prescribed can be played, an outcome is unfair when unfairness is forced.
theorem unfair_live (live : sys.liveUnder vars rules κ moves.members = {s | sys.Reachable s}) (coded : Coded vars κ) :
    view sys vars κ (encode sys equivalence moves vars rules).unfair.value = (sys.arenaPlaying vars rules κ moves.members).unfair := by
  refine unfair_eq (mirrors_under wf of extra played prescribes coded) ?_ (OrderHom.ext _ _ (funext fun X => ?_))
  · rw [view_valid wf of extra played prescribes coded, live]
    rfl
  · rw [playing_eq live]
    show sys.liveUnder vars rules κ moves.members ∩ (sys.arenaUnder vars rules κ).permit X = _
    rw [live]
    exact Set.inter_eq_right.mpr ((sys.arenaUnder vars rules κ).permit_subset_top X)

omit extra played prescribes in
-- An encoding of the protocol finds the states that can be won.
theorem finds_winnable (counts : Counts sys t (sys.protocolOf t)) (regular : sys.Regular t (sys.protocolOf t).members) :
    Yields (ofMoves sys t (sys.equivalenceOf t) (sys.protocolOf t)) fun e => ∀ ρ, ρ ∈ (e.winning goal e.unfair.value).value.members ↔
      sys.Winnable .group t (sys.protocolOf t) goal (sys.protocolOf t).members (sys.stateOf ρ) := by
  have played := wf.protocol_played of
  intro e known ρ
  obtain ⟨vars, rules, extra, prescribes, governs, rfl⟩ := of_moves_spec wf of _ played e known
  rw [mem_winning wf of extra played prescribes left right,
    winnable_coded wf of extra (Set.Subset.refl _) regular (governs counts) left right]
  refine and_congr_right fun _ => exists_congr fun κ => and_congr_right fun coded => ?_
  have live := live_under (κ := κ) wf of extra prescribes regular.alike
  rw [unfair_live wf of extra played prescribes live coded, ← Arena.wins_eq_counting, playing_eq live]

end

end Encoding

end Coalition
