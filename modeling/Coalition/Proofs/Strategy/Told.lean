import Coalition.Proofs.Strategy.Extend
import Coalition.Proofs.Strategy.MoveGame

-- Moves that are told by the state and some inputs.

set_option autoImplicit false

namespace Coalition

namespace Enumeration

variable {α β : Type} {P : α → Prop} {Q : β → Prop}

def Each (P : α → Prop) (e : Enumeration α) : Prop := ∀ a ∈ e.items, P a

theorem each_done : (Enumeration.done : Enumeration α).Each P := nofun

theorem each_fail (error : Error) : (Enumeration.fail error : Enumeration α).Each P := nofun

theorem each_single {a : α} (holds : P a) : (single a).Each P := fun _ listed => List.mem_singleton.mp listed ▸ holds

theorem each_item {a : α} {tail : Unit → Enumeration α} (first : P a) (later : (tail ()).Each P) : (item a tail).Each P :=
  List.forall_mem_cons.mpr ⟨first, later⟩

theorem Each.map {e : Enumeration α} {f : α → β} (each : e.Each P) (next : ∀ a, P a → Q (f a)) : (e.map f).Each Q := by
  intro b listed
  rw [items_map] at listed
  obtain ⟨a, member, rfl⟩ := List.mem_map.mp listed
  exact next a (each a member)

theorem Each.append {e : Enumeration α} {later : Unit → Enumeration α} (first : e.Each P) (second : (later ()).Each P) :
    (e.append later).Each P := by
  intro a listed
  rw [items_append] at listed
  obtain member | member := List.mem_append.mp listed
  · exact first a member
  · split at member
    · exact second a member
    · cases member

theorem Each.bind {e : Enumeration α} {f : α → Enumeration β} (each : e.Each P) (next : ∀ a, P a → (f a).Each Q) : (e.bind f).Each Q := by
  induction e with
  | done => exact each_done
  | fail error => exact each_fail error
  | item a tail ih =>
      obtain ⟨first, later⟩ := List.forall_mem_cons.mp each
      exact (next a first).append (ih () later)

theorem each_of_except {x : Except Error β} {f : β → Enumeration α} (yields : Yields x Q) (next : ∀ b, Q b → (f b).Each P) :
    (ofExcept x f).Each P := by
  cases x with
  | error e => exact each_fail e
  | ok b => exact next b (yields b rfl)

end Enumeration

theorem Region.pick_reads {s c : Region} {vars : List Nat} (picked : s.pick vars = some c) : c.Reads {v | v ∈ vars} := by
  unfold Region.pick at picked
  split at picked
  · cases picked
  · obtain rfl := Option.some.inj picked
    exact Region.reads_cell_of vars _

-- Well-formed moves in reachable states, told by the state and the inputs of `bits`.
structure System.Told (sys : System) (bits : Set Nat) (s : Region) : Prop where
  played : sys.PlayedSet s
  own : ∀ ρ ∈ s.members, ∀ σ ∈ sys.inputsMask.members, sys.stateOf σ = sys.stateOf ρ → (∀ b ∈ bits, σ b = ρ b) → σ ∈ s.members

namespace System.Told

variable {sys : System} {bits : Set Nat} {r s : Region}

theorem empty (sys : System) (bits : Set Nat) : sys.Told bits .empty := ⟨⟨by simp, by simp, Region.reads_empty _⟩, by simp⟩

theorem union (first : sys.Told bits r) (second : sys.Told bits s) : sys.Told bits (r.union s) := by
  refine ⟨⟨?_, ?_, first.played.reads.union second.played.reads⟩, fun ρ member σ mask same agree => ?_⟩
  · rw [Region.members_union]
    exact Set.union_subset first.played.inside second.played.inside
  · rw [Region.members_union]
    exact Set.union_subset first.played.reached second.played.reached
  · rw [Region.members_union] at member ⊢
    exact member.imp (fun here => first.own ρ here σ mask same agree) fun here => second.own ρ here σ mask same agree

theorem inter (told : sys.Told bits s) (reads : r.Reads sys.moveBit)
    (alike : ∀ ρ σ : Valuation, sys.stateOf σ = sys.stateOf ρ → (∀ b ∈ bits, σ b = ρ b) → ρ ∈ r.members → σ ∈ r.members) :
    sys.Told bits (s.inter r) := by
  refine ⟨told.played.inter reads, fun ρ member σ mask same agree => ?_⟩
  rw [Region.members_inter] at member ⊢
  exact ⟨told.own ρ member.1 σ mask same agree, alike ρ σ same agree member.2⟩

theorem states (told : sys.Told bits s) (reads : r.Reads sys.stateBit) : sys.Told bits (s.inter r) :=
  told.inter (reads.mono sys.state_subset_move) fun _ _ same _ => (Frame.mem_of_state reads same).mpr

theorem inputs (told : sys.Told bits s) (inside : bits ⊆ sys.inputBit) (reads : r.Reads bits) : sys.Told bits (s.inter r) :=
  told.inter (reads.mono (inside.trans sys.input_subset_move)) fun _ _ _ agree => (reads.congr agree).mpr

theorem diff (first : sys.Told bits r) (second : sys.Told bits s) : sys.Told bits (r.diff s) := by
  refine ⟨first.played.diff second.played.reads, fun ρ member σ mask same agree => ?_⟩
  rw [Region.members_diff] at member ⊢
  refine ⟨first.own ρ member.1 σ mask same agree, fun here => member.2 ?_⟩
  exact second.own σ here ρ (first.played.masked member.1).2 same.symm fun b bit => (agree b bit).symm

theorem of_played (played : sys.PlayedSet s) : sys.Told sys.inputBit s :=
  ⟨played, fun _ member _ _ same agree => played.reads.mem member fun b bit =>
    bit.elim (fun state => (Frame.state_of_eq_iff.mp same b state).symm) fun input => (agree b input).symm⟩

end System.Told

namespace System.WellFormed

variable {sys : System} (wf : sys.WellFormed) {t : Team} (of : t.Of sys)

include wf of

theorem protocol_told : sys.Told {b | b ∈ t.actionBits} (sys.protocolOf t) := by
  refine ⟨wf.protocol_played of, fun ρ member σ mask same agree => ?_⟩
  obtain ⟨_, τ, trans, reached, here, plays⟩ := (wf.mem_protocol of).mp member
  exact (wf.mem_protocol of).mpr ⟨mask, τ, trans, reached, here.trans same.symm, fun b acts => (plays b acts).trans (agree b acts).symm⟩

end System.WellFormed

namespace Splitter

open Enumeration

variable {sp : Splitter} {bits : Set Nat} {w : Team} {fixed moves common protocol strategy : Region}

theorem pick_move_reads (sp : Splitter) (moves : Region) : Yields (sp.pickMove moves) fun c => c.Reads sp.sys.moveBit := by
  intro c found
  unfold pickMove at found
  cases picked : sp.sys.pickMove moves with
  | none => simp [picked] at found
  | some d =>
      obtain rfl : d = c := by simpa [picked] using found
      exact (Region.pick_reads picked).mono fun b listed => List.mem_append.mp listed

theorem pick_state_reads (sp : Splitter) (moves : Region) : Yields (sp.pickState moves) fun c => c.Reads sp.sys.moveBit := by
  intro c found
  unfold pickState at found
  cases picked : sp.sys.pickState moves with
  | none => simp [picked] at found
  | some d =>
      obtain rfl : d = c := by simpa [picked] using found
      exact (Region.pick_reads picked).mono fun b listed => .inl listed

theorem action_reads (reads : moves.Reads sp.sys.moveBit) (acts : ∀ b ∈ w.actionBits, b ∈ bits) : (sp.actionOf w moves).Reads bits := by
  refine (reads.hide _).mono fun b ⟨bit, kept⟩ => ?_
  obtain state | input := bit
  · exact (kept (List.mem_append_left _ state)).elim
  · obtain own | other := System.action_or_other w input
    · exact acts b own
    · exact (kept (List.mem_append_right _ other)).elim

theorem buckets_told (inside : bits ⊆ sp.sys.inputBit) (acts : ∀ b ∈ w.actionBits, b ∈ bits) (fuel : Nat) (told : sp.sys.Told bits moves) :
    (sp.buckets w fixed fuel moves).Each (sp.sys.Told bits) := by
  induction fuel generalizing moves with
  | zero => exact each_fail .endless
  | succ fuel ih =>
      unfold buckets
      split
      · exact each_done
      · refine each_of_except (sp.pick_move_reads moves) fun move reads => ?_
        have bucket := told.inputs inside (action_reads reads acts)
        dsimp only
        split
        · exact each_item bucket (ih (told.diff bucket))
        · exact ih (told.diff bucket)

section

variable (wf : sp.sys.WellFormed) (inside : bits ⊆ sp.sys.inputBit)

include wf

theorem class_reads (w : Team) (reads : moves.Reads sp.sys.moveBit) : (sp.classOf w moves).Reads sp.sys.stateBit :=
  ((System.equivalents_state_set reads).inter wf.reachable_state_set.reads).reads

theorem class_of_move_reads (of : sp.team.Of sp.sys) (reads : moves.Reads sp.sys.moveBit) : (sp.classOfMove moves).Reads sp.sys.stateBit := by
  unfold classOfMove
  split
  · exact class_reads wf sp.team reads
  · exact (wf.common_equivalents_spec of reads).1.reads

include inside

theorem split_agent_told (acts : ∀ b ∈ w.actionBits, b ∈ bits) (fuel : Nat) (told : sp.sys.Told bits moves) :
    (sp.splitAgent w fixed fuel moves).Each (sp.sys.Told bits) := by
  induction fuel generalizing moves with
  | zero => exact each_fail .endless
  | succ fuel ih =>
      unfold splitAgent
      split
      · exact each_single told
      · refine each_of_except (sp.pick_state_reads moves) fun state reads => ?_
        have here := told.states (class_reads wf w reads)
        have rest := ih (told.diff here)
        dsimp only
        split
        · exact each_fail .endless
        · have found : (sp.buckets w fixed sp.bound (moves.inter (sp.classOf w state))).Each (sp.sys.Told bits) := buckets_told inside acts sp.bound here
          split
          · exact rest
          · exact found.bind fun bucket known => rest.map fun s other => other.union known

theorem split_agents_told (teams : List Team) (acts : ∀ w ∈ teams, ∀ b ∈ w.actionBits, b ∈ bits) (told : sp.sys.Told bits moves) :
    (sp.splitAgents fixed moves teams).Each (sp.sys.Told bits) := by
  induction teams with
  | nil => exact each_single told
  | cons agent others ih =>
      obtain ⟨first, later⟩ := List.forall_mem_cons.mp acts
      exact (ih later).bind fun part known => split_agent_told wf inside first sp.bound known

variable (acts : ∀ b ∈ sp.team.actionBits, b ∈ bits)

include acts

theorem split_class_told (told : sp.sys.Told bits moves) : (sp.splitClass fixed moves).Each (sp.sys.Told bits) := by
  unfold splitClass
  split
  · refine split_agents_told wf inside sp.team.singles (fun w single b own => acts b ?_) told
    have viewer : w ∈ sp.team.viewers .individual := single
    exact Team.viewer_acts viewer own
  · have found : (sp.buckets sp.team fixed sp.bound moves).Each (sp.sys.Told bits) := buckets_told inside acts sp.bound told
    split
    · exact each_single (.empty _ _)
    · exact found

variable (of : sp.team.Of sp.sys)

include of

omit inside acts in
theorem part_told (fuel : Nat) (commonTold : sp.sys.Told bits common) (told : sp.sys.Told bits moves) :
    Yields (sp.part fixed fuel common moves) fun p =>
      sp.sys.Told bits p.common ∧ sp.sys.Told bits p.conflicting ∧ sp.sys.Told bits p.rest := by
  induction fuel generalizing common moves with
  | zero => exact yields_error Error.endless
  | succ fuel ih =>
      have none : sp.sys.Told bits .empty := .empty _ _
      unfold part
      split
      · exact yields_ok ⟨commonTold, none, none⟩
      · refine yields_bind (sp.pick_move_reads moves) fun move reads => ?_
        have here := told.states (class_of_move_reads wf of reads)
        have rest := told.diff here
        refine yields_bind (P := fun _ => True) (fun _ _ => trivial) fun conflict _ => ?_
        split
        · exact yields_ok ⟨commonTold, here, rest⟩
        · exact ih (commonTold.union here) rest

theorem split_from_told (fuel : Nat) (told : sp.sys.Told bits moves) : (sp.splitFrom fixed fuel moves).Each (sp.sys.Told bits) := by
  induction fuel generalizing moves with
  | zero => exact each_fail .endless
  | succ fuel ih =>
      unfold splitFrom
      split
      · exact each_single told
      · refine each_of_except (part_told wf of sp.bound (.empty _ _) told) fun p parted => ?_
        obtain ⟨common, conflicting, rest⟩ := parted
        split
        · exact each_single common
        · exact (split_class_told wf inside acts conflicting).bind fun choice chosen =>
            (ih rest).map fun s known => (common.union known).union chosen

theorem split_told (told : sp.sys.Told bits moves) : (sp.split moves fixed).Each (sp.sys.Told bits) := by
  unfold split
  dsimp only
  rw [masked_played told.played]
  exact split_from_told wf inside acts of sp.bound told

theorem extend_from_told (protocolTold : sp.sys.Told bits protocol) (reads : moves.Reads sp.sys.moveBit) (fuel : Nat)
    (told : sp.sys.Told bits strategy) : (sp.extendFrom protocol moves fuel strategy).Each (sp.sys.Told bits) := by
  induction fuel generalizing strategy with
  | zero => exact each_fail .endless
  | succ fuel ih =>
      have added : sp.sys.Told bits ((sp.freshStates strategy moves).inter protocol) := by
        have fresh := protocolTold.states (fresh_states_reads wf reads told.played.reads)
        have same : (sp.freshStates strategy moves).inter protocol = protocol.inter (sp.freshStates strategy moves) :=
          Region.members_injective (by rw [Region.members_inter, Region.members_inter, Set.inter_comm])
        rwa [same]
      unfold extendFrom
      dsimp only
      split
      · exact each_single told
      · refine (split_told wf inside acts of added).bind fun s known => ?_
        split
        · exact each_single told
        · exact ih (told.union known)

theorem extend_told (protocolTold : sp.sys.Told bits protocol) (reads : moves.Reads sp.sys.moveBit) (told : sp.sys.Told bits strategy) :
    (sp.extend protocol strategy moves).Each (sp.sys.Told bits) :=
  extend_from_told wf inside acts of protocolTold reads sp.bound told

end

end Splitter

end Coalition
