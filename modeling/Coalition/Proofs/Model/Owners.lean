import Coalition.Proofs.Model.Meaning
import Coalition.Proofs.Model.Names

-- A valid description gives an action to one agent, once, so that in a built system the bits of an input that some agent acts on belong
-- to no other agent, and a move can be put together from the moves of teams without members in common.

set_option autoImplicit false

namespace Coalition

namespace Description

theorem claim_actions_owned (inputs : List Domain) (agent : String) (owners : List (String × String)) (actions : List String) :
    Yields (claimActions inputs agent owners actions) fun after => after.map (·.1) = actions.reverse ++ owners.map (·.1) ∧
      ((owners.map (·.1)).Nodup → (after.map (·.1)).Nodup) := by
  induction actions generalizing owners with
  | nil => exact yields_ok ⟨rfl, id⟩
  | cons action rest ih =>
      unfold claimActions
      split
      · exact yields_error _
      · cases found : owners.lookup action with
        | some before => exact yields_error _
        | none =>
            intro after done
            obtain ⟨listed, distinct⟩ := ih ((action, agent) :: owners) after done
            refine ⟨by rw [listed]; simp, fun before => distinct (List.nodup_cons.mpr ⟨fun old => ?_, before⟩)⟩
            obtain ⟨entry, member, same⟩ := List.mem_map.mp old
            have different := List.lookup_eq_none_iff.mp found entry member
            simp [same] at different

theorem check_agents_owned (d : Description) (names : List (String × Declared)) (owners : List (String × String))
    (agents : List AgentDescription) (before : (owners.map (·.1)).Nodup) :
    Yields (checkAgents d names owners agents) fun _ =>
      (agents.flatMap (·.actions)).Nodup ∧ ∀ action ∈ agents.flatMap (·.actions), action ∉ owners.map (·.1) := by
  induction agents generalizing names owners with
  | nil => exact yields_ok ⟨List.nodup_nil, by simp⟩
  | cons a rest ih =>
      unfold checkAgents
      refine yields_bind (P := fun _ => True) (fun _ _ => trivial) fun names _ => ?_
      cases bad : a.observes.find? fun o => !d.vars.any (·.name == o) with
      | some o => exact yields_error _
      | none =>
          refine yields_bind (claim_actions_owned _ _ _ _) fun after claimed => fun done ended => ?_
          obtain ⟨listed, distinct⟩ := claimed
          obtain ⟨others, fresh⟩ := ih _ _ (distinct before) done ended
          have own := List.nodup_append.mp (listed ▸ distinct before)
          rw [listed] at fresh
          rw [List.flatMap_cons]
          refine ⟨List.nodup_append.mpr ⟨List.nodup_reverse.mp own.1, others, fun x first y later same => ?_⟩, fun action acts old => ?_⟩
          · exact fresh y later (List.mem_append_left _ (List.mem_reverse.mpr (same ▸ first)))
          · obtain first | later := List.mem_append.mp acts
            · exact own.2.2 action (List.mem_reverse.mpr first) action old rfl
            · exact fresh action later (List.mem_append_right _ old)

theorem validate_owned (d : Description) : Yields d.validate fun _ => (d.agents.flatMap (·.actions)).Nodup := by
  unfold validate
  refine yields_bind (P := fun _ => True) (fun _ _ => trivial) fun names _ => ?_
  refine yields_bind (P := fun _ => True) (fun _ _ => trivial) fun names _ => ?_
  refine yields_bind (check_agents_owned d names [] d.agents List.nodup_nil) fun names owned => ?_
  exact fun _ _ => owned.1

theorem build_agent_actions (f : Frame) (compile : String → Except Error Region) (a : AgentDescription) :
    Yields (buildAgent f compile a) fun built => (built.actions.map (·.name)).Sublist a.actions := by
  refine yields_bind (P := fun _ => True) (fun _ _ => trivial) fun protocol _ => yields_ok ?_
  show ((a.actions.filterMap f.find?).map (·.name)).Sublist a.actions
  induction a.actions with
  | nil => exact .slnil
  | cons action rest ih =>
      cases found : f.find? action with
      | none =>
          rw [List.filterMap_cons_none found]
          exact ih.cons action
      | some v =>
          have named : v.name = action := by simpa using List.find?_some found
          rw [List.filterMap_cons_some found, List.map_cons, named]
          exact ih.cons_cons action

end Description

-- No input is an action of two agents.
def System.Owned (sys : System) : Prop := ((sys.agents.flatMap (·.actions)).map (·.name)).Nodup

theorem Description.build_owned (d : Description) : Yields d.build System.Owned := by
  intro sys done
  have built := build_builds done
  refine (validate_owned d _ built.valid).sublist ?_
  have each := map_m_ok_iff.mp built.acting
  generalize d.agents = described at each ⊢
  generalize sys.agents = agents at each ⊢
  induction each with
  | nil => exact List.Sublist.refl _
  | cons acts _ ih =>
      rw [List.flatMap_cons, List.flatMap_cons, List.map_append]
      exact (build_agent_actions _ _ _ _ acts).append ih

namespace System

variable {sys : System} {t u : Team}

theorem WellFormed.input_of_bit (wf : sys.WellFormed) {v w : Variable} (vInput : v ∈ sys.inputVars) (wInput : w ∈ sys.inputVars) {b : Nat}
    (vBit : b ∈ v.bits) (wBit : b ∈ w.bits) : v = w :=
  source_unique wf.laid.inputNodup vInput wInput vBit wBit

namespace Owned

variable (owned : sys.Owned) (wf : sys.WellFormed)

include owned

theorem owner {a c : Agent} (known : a ∈ sys.agents) (knownToo : c ∈ sys.agents) {v : Variable} (acts : v ∈ a.actions)
    (actsToo : v ∈ c.actions) : a = c :=
  source_unique (List.Nodup.of_map _ owned) known knownToo acts actsToo

include wf

theorem apart (of : t.Of sys) (ofToo : u.Of sys) (disjoint : ∀ a ∈ t.members, a ∉ u.members) {b : Nat} (bit : b ∈ t.actionBits) :
    b ∉ u.actionBits := by
  intro bitToo
  obtain ⟨v, listed, here⟩ := List.mem_flatMap.mp bit
  obtain ⟨a, member, acts⟩ := List.mem_flatMap.mp listed
  obtain ⟨w, listedToo, hereToo⟩ := List.mem_flatMap.mp bitToo
  obtain ⟨c, memberToo, actsToo⟩ := List.mem_flatMap.mp listedToo
  have same := wf.input_of_bit (wf.action_input of listed) (wf.action_input ofToo listedToo) here hereToo
  obtain rfl := owned.owner (of a member) (ofToo c memberToo) acts (same ▸ actsToo)
  exact disjoint a member memberToo

end Owned

end System

namespace Team

variable {sys : System} {t u : Team} {ρ τ : Valuation}

-- The action of the team in the one valuation, and everything else in the other.
def joined (t : Team) (ρ τ : Valuation) : Valuation := fun b => if b ∈ t.actionBits then ρ b else τ b

theorem joined_plays (t : Team) (ρ τ : Valuation) : t.Plays (t.joined ρ τ) ρ := fun _ bit => if_pos bit

theorem joined_leaves (apart : ∀ b ∈ u.actionBits, b ∉ t.actionBits) (ρ τ : Valuation) : u.Plays (t.joined ρ τ) τ :=
  fun b bit => if_neg (apart b bit)

theorem joined_self (t : Team) (ρ : Valuation) : t.joined ρ ρ = ρ := funext fun _ => ite_self _

theorem joined_state (wf : sys.WellFormed) (of : t.Of sys) (ρ τ : Valuation) : sys.stateOf (t.joined ρ τ) = sys.stateOf τ :=
  Frame.state_of_eq_iff.mpr fun b state => if_neg fun bit => (wf.laid.inputApart b (wf.action_bit of bit)).1 state

-- The inputs of a team are its own as a whole, so that each keeps a value of its domain.
theorem joined_inputs (wf : sys.WellFormed) (of : t.Of sys) (left : ρ ∈ sys.inputsMask.members) (right : τ ∈ sys.inputsMask.members) :
    t.joined ρ τ ∈ sys.inputsMask.members := by
  rw [sys.inputs_mask_eq, Frame.mem_mask_all] at left right ⊢
  intro v input
  by_cases acts : v ∈ t.actions
  · obtain ⟨value, index, found, stored⟩ := left v input
    refine ⟨value, index, found, fun entry place => (if_pos ?_).trans (stored entry place)⟩
    exact List.mem_flatMap.mpr ⟨v, acts, List.fst_mem_of_mem_zipIdx place⟩
  · obtain ⟨value, index, found, stored⟩ := right v input
    refine ⟨value, index, found, fun entry place => (if_neg fun bit => ?_).trans (stored entry place)⟩
    obtain ⟨w, listed, here⟩ := List.mem_flatMap.mp bit
    have same := wf.input_of_bit input (wf.action_input of listed) (List.fst_mem_of_mem_zipIdx place) here
    exact acts (same ▸ listed)

end Team

end Coalition
