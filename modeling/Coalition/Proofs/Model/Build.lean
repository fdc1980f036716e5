import Mathlib.Data.List.Nodup
import Coalition.Model.Build
import Coalition.Proofs.Model.Expression

-- State bits lie at even places with the next bit right after each, the input bits lie above, and every region of a system reads only the
-- bits its part of the description may mention.

set_option autoImplicit false

namespace Coalition

namespace Description

theorem declare_new (what : Declared) (names : List (String × Declared)) (name : String) :
    Yields (declare what names name) fun after =>
      after = (name, what) :: names ∧ name ∉ names.map (·.1) ∧ name ≠ "" := by
  unfold declare
  by_cases blank : name.isEmpty = true
  · rw [if_pos blank]
    exact yields_error _
  · rw [if_neg blank]
    cases found : names.lookup name with
    | some before => exact yields_error _
    | none =>
        refine yields_ok ⟨rfl, ?_, fun same => blank (same ▸ rfl)⟩
        rw [List.lookup_eq_none_iff] at found
        intro listed
        obtain ⟨entry, member, same⟩ := List.mem_map.mp listed
        have different := found entry member
        simp [same] at different

theorem check_domain_new (names : List (String × Declared)) (d : Domain) :
    Yields (checkDomain names d) fun after => (∃ what, after = (d.name, what) :: names) ∧ d.name ∉ names.map (·.1) := by
  unfold checkDomain
  refine yields_bind (declare_new _ _ _) fun after known => ?_
  by_cases none : d.values.isEmpty = true
  · simp only [none, if_true]
    exact yields_error _
  · by_cases twice : hasDuplicates d.values = true
    · simp only [none, twice, if_true]
      exact yields_error _
    · simp only [none, twice]
      exact yields_ok ⟨⟨_, known.1⟩, known.2.1⟩

theorem check_domains_distinct (ds : List Domain) (names : List (String × Declared)) (before : (names.map (·.1)).Nodup) :
    Yields (ds.foldlM checkDomain names) fun _ =>
      (ds.map (·.name)).Nodup ∧ ∀ name ∈ ds.map (·.name), name ∉ names.map (·.1) := by
  induction ds generalizing names with
  | nil => exact yields_ok ⟨List.nodup_nil, by simp⟩
  | cons d rest ih =>
      rw [List.foldlM_cons]
      refine yields_bind (check_domain_new names d) fun next known => ?_
      obtain ⟨⟨what, rfl⟩, new⟩ := known
      intro after done
      obtain ⟨nodup, fresh⟩ := ih ((d.name, what) :: names) (List.nodup_cons.mpr ⟨new, before⟩) after done
      have outside : d.name ∉ rest.map (·.name) := fun listed => fresh _ listed List.mem_cons_self
      refine ⟨List.nodup_cons.mpr ⟨outside, nodup⟩, fun name listed => ?_⟩
      rcases List.mem_cons.mp listed with rfl | later
      · exact new
      · exact fun old => fresh name later (List.mem_cons_of_mem _ old)

theorem claim_actions_known (inputs : List Domain) (agent : String) (owners : List (String × String)) (actions : List String) :
    Yields (claimActions inputs agent owners actions) fun _ => ∀ action ∈ actions, ∃ i ∈ inputs, i.name = action := by
  induction actions generalizing owners with
  | nil => exact yields_ok (by simp)
  | cons action rest ih =>
      unfold claimActions
      by_cases known : inputs.any (·.name == action) = true
      · simp only [known, Bool.not_true, Bool.false_eq_true, if_false]
        cases owners.lookup action with
        | some before => exact yields_error _
        | none =>
            intro after done
            refine List.forall_mem_cons.mpr ⟨?_, ih _ after done⟩
            simpa using known
      · simp only [known, Bool.not_false, if_true]
        exact yields_error _

structure ValidAgent (d : Description) (a : AgentDescription) : Prop where
  named : a.name ≠ ""
  observes : ∀ o ∈ a.observes, ∃ v ∈ d.vars, v.name = o
  actions : ∀ x ∈ a.actions, ∃ i ∈ d.inputs, i.name = x

theorem check_agents_valid (d : Description) (names : List (String × Declared)) (owners : List (String × String))
    (agents : List AgentDescription) :
    Yields (checkAgents d names owners agents) fun _ => ∀ a ∈ agents, d.ValidAgent a := by
  induction agents generalizing names owners with
  | nil => exact yields_ok (by simp)
  | cons a rest ih =>
      unfold checkAgents
      refine yields_bind (declare_new _ _ _) fun names known => ?_
      cases bad : a.observes.find? fun o => !d.vars.any (·.name == o) with
      | some o => exact yields_error _
      | none =>
          refine yields_bind (claim_actions_known _ _ _ _) fun owners actions => ?_
          intro after done
          refine List.forall_mem_cons.mpr ⟨⟨known.2.2, fun o listed => ?_, actions⟩, ih _ _ after done⟩
          have observed := List.find?_eq_none.mp bad o listed
          simpa using observed

structure Valid (d : Description) : Prop where
  distinct : ((d.vars ++ d.inputs).map (·.name)).Nodup
  agents : ∀ a ∈ d.agents, d.ValidAgent a

theorem validate_valid (d : Description) : Yields d.validate fun _ => d.Valid := by
  unfold validate
  refine yields_bind (check_domains_distinct _ _ List.nodup_nil) fun names known => ?_
  refine yields_bind (P := fun _ => True) (fun _ _ => trivial) fun names _ => ?_
  refine yields_bind (check_agents_valid d names [] d.agents) fun names agents => ?_
  exact fun _ _ => ⟨known.1, agents⟩

theorem bit_count_cons (d : Domain) (rest : List Domain) : bitCount (d :: rest) = width d.values.length + bitCount rest := by
  have shifted : ∀ (ds : List Domain) (total : Nat),
      ds.foldl (fun total d => total + width d.values.length) total = total + bitCount ds := by
    intro ds
    induction ds with
    | nil => exact fun total => rfl
    | cons d rest ih =>
        intro total
        unfold bitCount
        rw [List.foldl_cons, List.foldl_cons, ih, ih]
        omega
  unfold bitCount
  rw [List.foldl_cons, shifted, Nat.zero_add]
  rfl

theorem lay_states_bits (first : Nat) (ds : List Domain) :
    (layStates first ds).flatMap (·.bits) = (List.range (bitCount ds)).map fun i => first + 2 * i := by
  induction ds generalizing first with
  | nil => rfl
  | cons d rest ih =>
      rw [bit_count_cons, List.range_add, List.map_append, List.map_map]
      unfold layStates
      rw [List.flatMap_cons, ih]
      congr 1
      apply List.map_congr_left
      intro i _
      simp only [Function.comp_apply]
      omega

theorem lay_inputs_bits (first : Nat) (ds : List Domain) :
    (layInputs first ds).flatMap (·.bits) = (List.range (bitCount ds)).map fun i => first + i := by
  induction ds generalizing first with
  | nil => rfl
  | cons d rest ih =>
      rw [bit_count_cons, List.range_add, List.map_append, List.map_map]
      unfold layInputs
      rw [List.flatMap_cons, ih]
      congr 1
      apply List.map_congr_left
      intro i _
      simp only [Function.comp_apply]
      omega

theorem mem_lay_states {first : Nat} {ds : List Domain} {v : Variable} (member : v ∈ layStates first ds) :
    v.kind = .state ∧ v.nextBits = v.bits.map (· + 1) := by
  induction ds generalizing first with
  | nil => simp [layStates] at member
  | cons d rest ih =>
      unfold layStates at member
      rcases List.mem_cons.mp member with rfl | later
      · refine ⟨rfl, ?_⟩
        simp only [List.map_map]
        rfl
      · exact ih later

theorem mem_lay_inputs {first : Nat} {ds : List Domain} {v : Variable} (member : v ∈ layInputs first ds) :
    v.kind = .input := by
  induction ds generalizing first with
  | nil => simp [layInputs] at member
  | cons d rest ih =>
      unfold layInputs at member
      rcases List.mem_cons.mp member with rfl | later
      · rfl
      · exact ih later

theorem nodup_lay_states_bits (first : Nat) (ds : List Domain) : ((layStates first ds).flatMap (·.bits)).Nodup := by
  rw [lay_states_bits]
  refine List.Nodup.map (fun i j (same : first + 2 * i = first + 2 * j) => ?_) List.nodup_range
  omega

theorem nodup_lay_inputs_bits (first : Nat) (ds : List Domain) : ((layInputs first ds).flatMap (·.bits)).Nodup := by
  rw [lay_inputs_bits]
  exact List.Nodup.map (fun _ _ same => Nat.add_left_cancel same) List.nodup_range

theorem mem_lay_states_bits {first b : Nat} {ds : List Domain} :
    b ∈ (layStates first ds).flatMap (·.bits) ↔ ∃ i < bitCount ds, first + 2 * i = b := by
  rw [lay_states_bits, List.mem_map]
  simp only [List.mem_range]

theorem mem_lay_states_next_bits {first b : Nat} {ds : List Domain} :
    b ∈ (layStates first ds).flatMap (·.nextBits) ↔ ∃ i < bitCount ds, first + 2 * i + 1 = b := by
  have next : (layStates first ds).flatMap (·.nextBits) = ((layStates first ds).flatMap (·.bits)).map (· + 1) := by
    rw [List.map_flatMap]
    exact List.flatMap_congr fun v member => (mem_lay_states member).2
  rw [next, lay_states_bits, List.map_map, List.mem_map]
  simp only [List.mem_range, Function.comp_apply]

theorem mem_lay_inputs_bits {first b : Nat} {ds : List Domain} :
    b ∈ (layInputs first ds).flatMap (·.bits) ↔ ∃ i < bitCount ds, first + i = b := by
  rw [lay_inputs_bits, List.mem_map]
  simp only [List.mem_range]

theorem lay_states_names (first : Nat) (ds : List Domain) : (layStates first ds).map (·.name) = ds.map (·.name) := by
  induction ds generalizing first with
  | nil => rfl
  | cons d rest ih => simp only [layStates, List.map_cons, ih]

theorem lay_states_domains (first : Nat) (ds : List Domain) : (layStates first ds).map (·.domain) = ds.map (·.values) := by
  induction ds generalizing first with
  | nil => rfl
  | cons d rest ih => simp only [layStates, List.map_cons, ih]

theorem lay_inputs_names (first : Nat) (ds : List Domain) : (layInputs first ds).map (·.name) = ds.map (·.name) := by
  induction ds generalizing first with
  | nil => rfl
  | cons d rest ih => simp only [layInputs, List.map_cons, ih]

end Description

namespace Frame

def stateBit (f : Frame) : Set Nat := {b | b ∈ f.stateBits}

def nextBit (f : Frame) : Set Nat := {b | b ∈ f.nextBits}

def inputBit (f : Frame) : Set Nat := {b | b ∈ f.inputBits}

structure Laid (f : Frame) : Prop where
  states : ∀ v ∈ f.stateVars, v.kind = .state ∧ v.nextBits = v.bits.map (· + 1)
  inputs : ∀ v ∈ f.inputVars, v.kind = .input
  stateNodup : f.stateBits.Nodup
  inputNodup : f.inputBits.Nodup
  apart : ∀ b ∈ f.stateBits, b + 1 ∉ f.stateBits
  inputApart : ∀ b ∈ f.inputBits, b ∉ f.stateBits ∧ b ∉ f.nextBits
  declared : ∀ b, b ∈ f.stateBit ∪ f.nextBit ∪ f.inputBit → b < f.space.declared

theorem laid_of_room (d : Description) {space : Space}
    (room : 2 * Description.bitCount d.vars + Description.bitCount d.inputs ≤ space.declared) :
    (Frame.ofVariables space (Description.layStates 0 d.vars)
      (Description.layInputs (2 * Description.bitCount d.vars) d.inputs)).Laid := by
  constructor
  case states => exact fun v => Description.mem_lay_states
  case inputs => exact fun v => Description.mem_lay_inputs
  case stateNodup => exact Description.nodup_lay_states_bits 0 d.vars
  case inputNodup => exact Description.nodup_lay_inputs_bits _ d.inputs
  case apart =>
    intro b member next
    obtain ⟨i, _, rfl⟩ := Description.mem_lay_states_bits.mp member
    obtain ⟨j, _, same⟩ := Description.mem_lay_states_bits.mp next
    omega
  case inputApart =>
    intro b member
    obtain ⟨i, _, rfl⟩ := Description.mem_lay_inputs_bits.mp member
    constructor
    · intro state
      obtain ⟨j, _, same⟩ := Description.mem_lay_states_bits.mp state
      omega
    · intro next
      obtain ⟨j, _, same⟩ := Description.mem_lay_states_next_bits.mp next
      omega
  case declared =>
    rintro b ((state | next) | input)
    · obtain ⟨i, _, rfl⟩ := Description.mem_lay_states_bits.mp state
      show 0 + 2 * i < space.declared
      omega
    · obtain ⟨i, _, rfl⟩ := Description.mem_lay_states_next_bits.mp next
      show 0 + 2 * i + 1 < space.declared
      omega
    · obtain ⟨i, _, rfl⟩ := Description.mem_lay_inputs_bits.mp input
      show 2 * Description.bitCount d.vars + i < space.declared
      omega

section

variable {f : Frame}

theorem bits_state {v : Variable} (member : v ∈ f.stateVars) : ∀ b ∈ v.bits, b ∈ f.stateBit :=
  fun _ listed => List.mem_flatMap.mpr ⟨v, member, listed⟩

theorem bits_next {v : Variable} (member : v ∈ f.stateVars) : ∀ b ∈ v.nextBits, b ∈ f.nextBit :=
  fun _ listed => List.mem_flatMap.mpr ⟨v, member, listed⟩

theorem bits_input {v : Variable} (member : v ∈ f.inputVars) : ∀ b ∈ v.bits, b ∈ f.inputBit :=
  fun _ listed => List.mem_flatMap.mpr ⟨v, member, listed⟩

def moveBit (f : Frame) : Set Nat := f.stateBit ∪ f.inputBit

def stepBit (f : Frame) : Set Nat := f.stateBit ∪ f.nextBit ∪ f.inputBit

theorem state_subset_move (f : Frame) : f.stateBit ⊆ f.moveBit := Set.subset_union_left

theorem input_subset_move (f : Frame) : f.inputBit ⊆ f.moveBit := Set.subset_union_right

theorem move_subset_step (f : Frame) : f.moveBit ⊆ f.stepBit :=
  Set.union_subset (fun _ member => .inl (.inl member)) fun _ member => .inr member

theorem reads_mask_all {vars : Set Nat} {vs : List Variable} {next : Bool}
    (bits : ∀ v ∈ vs, ∀ b ∈ v.bitsAt next, b ∈ vars) : (maskAll vs next).Reads vars := by
  apply Region.reads_inter_all
  intro mask listed
  obtain ⟨v, member, rfl⟩ := List.mem_map.mp listed
  apply Region.reads_union_all
  intro r value
  obtain ⟨index, _, rfl⟩ := List.mem_map.mp value
  apply Region.reads_cell
  intro entry place
  obtain ⟨bit, zipped, rfl⟩ := List.mem_map.mp place
  exact bits v member _ (List.fst_mem_of_mem_zipIdx zipped)

theorem reads_states_mask (f : Frame) : f.statesMask.Reads f.stateBit := by
  rw [f.states_mask_eq]
  exact reads_mask_all fun v member => bits_state member

theorem reads_next_mask (f : Frame) : f.nextMask.Reads f.nextBit := by
  rw [f.next_mask_eq]
  exact reads_mask_all fun v member => bits_next member

theorem reads_inputs_mask (f : Frame) : f.inputsMask.Reads f.inputBit := by
  rw [f.inputs_mask_eq]
  exact reads_mask_all fun v member => bits_input member

open Expression in
theorem state_scope_bits (laid : f.Laid) (r : Reading) (allowed : Scope.state.Allows f.vars r) :
    ∀ b ∈ r.var.bitsAt r.next, b ∈ f.stateBit := by
  obtain ⟨member, next, input⟩ := allowed
  have now : r.next = false := Bool.eq_false_iff.mpr fun later => Bool.noConfusion (next later).1
  rw [now]
  rcases List.mem_append.mp member with state | inputVar
  · exact bits_state state
  · exact absurd (input (laid.inputs _ inputVar)) Bool.false_ne_true

open Expression in
theorem move_scope_bits (r : Reading) (allowed : Scope.move.Allows f.vars r) :
    ∀ b ∈ r.var.bitsAt r.next, b ∈ f.moveBit := by
  obtain ⟨member, next, _⟩ := allowed
  have now : r.next = false := Bool.eq_false_iff.mpr fun later => Bool.noConfusion (next later).1
  rw [now]
  rcases List.mem_append.mp member with state | inputVar
  · exact fun b listed => .inl (bits_state state b listed)
  · exact fun b listed => .inr (bits_input inputVar b listed)

open Expression in
theorem transition_scope_bits (laid : f.Laid) (r : Reading) (allowed : Scope.transition.Allows f.vars r) :
    ∀ b ∈ r.var.bitsAt r.next, b ∈ f.stepBit := by
  obtain ⟨member, next, _⟩ := allowed
  cases later : r.next with
  | false =>
      rcases List.mem_append.mp member with state | inputVar
      · exact fun b listed => .inl (.inl (bits_state state b listed))
      · exact fun b listed => .inr (bits_input inputVar b listed)
  | true =>
      rcases List.mem_append.mp member with state | inputVar
      · exact fun b listed => .inl (.inr (bits_next state b listed))
      · exact absurd (laid.inputs _ inputVar) (next later).2

end

-- A set of states: well formed, and told by the state bits alone.
structure StateSet (f : Frame) (s : Region) : Prop where
  inside : s.members ⊆ f.statesMask.members
  reads : s.Reads f.stateBit

end Frame

structure Agent.Within (a : Agent) (f : Frame) : Prop where
  named : a.name ≠ ""
  observes : ∀ v ∈ a.observed, v ∈ f.stateVars
  acts : ∀ v ∈ a.actions, v ∈ f.inputVars

structure System.WellFormed (sys : System) : Prop where
  laid : sys.toFrame.Laid
  distinct : (sys.toFrame.vars.map (·.name)).Nodup
  init : sys.toFrame.StateSet sys.init
  transReads : sys.trans.Reads sys.stepBit
  transInside : sys.trans.members ⊆ sys.statesMask.members ∩ sys.inputsMask.members ∩ sys.nextMask.members
  fairness : ∀ c ∈ sys.fairness, sys.toFrame.StateSet c
  agents : ∀ a ∈ sys.agents, a.Within sys.toFrame
  vars : sys.names.vars = sys.toFrame.vars
  defines : ∀ entry ∈ sys.defines, entry.2.Reads sys.stateBit

namespace Description

theorem resolve_define_reads {vars : List Variable} {bits : Set Nat} (d : Description)
    (scope : ∀ r, Expression.Scope.state.Allows vars r → ∀ b ∈ r.var.bitsAt r.next, b ∈ bits) (fuel : Nat)
    (above : List String) (ready : List (String × Region)) (name : String) (known : ∀ entry ∈ ready, entry.2.Reads bits) :
    Yields (d.resolveDefine vars fuel above ready name) fun after => ∀ entry ∈ after, entry.2.Reads bits := by
  induction fuel generalizing above ready name with
  | zero => exact yields_error _
  | succ fuel ih =>
      unfold resolveDefine
      split
      · exact yields_ok known
      · split
        · exact yields_error _
        · dsimp only
          split
          · rename_i region compiled
            refine yields_ok (List.forall_mem_cons.mpr ⟨?_, known⟩)
            exact reads_compile _ scope known _ compiled
          · split
            · rename_i more resolved
              exact ih _ _ _ (ih _ _ _ known _ resolved)
            · exact yields_error _
          · exact yields_error _

theorem resolve_defines_reads {vars : List Variable} {bits : Set Nat} (d : Description)
    (scope : ∀ r, Expression.Scope.state.Allows vars r → ∀ b ∈ r.var.bitsAt r.next, b ∈ bits) :
    Yields (d.resolveDefines vars) fun after => ∀ entry ∈ after, entry.2.Reads bits :=
  yields_fold_m (by simp) fun ready known define _ => resolve_define_reads d scope _ [] ready define.1 known

theorem conjoin_reads {compile : String → Except Error Region} {vars : Set Nat} (part : String) (texts : List String)
    (each : ∀ text, Yields (compile text) fun region => region.Reads vars) :
    Yields (conjoin compile part texts) fun region => region.Reads vars := by
  refine yields_fold_m (Region.reads_univ vars) fun r reads text _ => ?_
  cases compiled : compile text with
  | error e => exact yields_error _
  | ok region => exact yields_ok (reads.inter (each text region compiled))

theorem find_of_name {f : Frame} (distinct : (f.vars.map (·.name)).Nodup) {v w : Variable} (member : v ∈ f.vars)
    (found : f.find? v.name = some w) : w = v := by
  have listed : w ∈ f.vars := List.mem_of_find?_eq_some found
  have same : w.name = v.name := by simpa using List.find?_some found
  exact List.inj_on_of_nodup_map distinct listed member same

theorem build_agent_within {d : Description} {f : Frame} (distinct : (f.vars.map (·.name)).Nodup)
    (states : f.stateVars.map (·.name) = d.vars.map (·.name)) (inputs : f.inputVars.map (·.name) = d.inputs.map (·.name))
    {compile : String → Except Error Region} (each : ∀ text, Yields (compile text) fun region => region.Reads f.moveBit)
    (a : AgentDescription) (valid : d.ValidAgent a) :
    Yields (buildAgent f compile a) fun built => built.Within f ∧ built.protocol.Reads f.moveBit := by
  refine yields_bind (conjoin_reads _ _ each) fun protocol reads => ?_
  refine yields_ok ⟨⟨valid.named, ?_, ?_⟩, reads⟩
  · intro v listed
    obtain ⟨o, observed, found⟩ := List.mem_filterMap.mp listed
    obtain ⟨declared, member, rfl⟩ := valid.observes o observed
    obtain ⟨w, state, same⟩ := List.mem_map.mp (states ▸ List.mem_map_of_mem member : declared.name ∈ f.stateVars.map (·.name))
    rw [← same] at found
    exact find_of_name distinct (List.mem_append_left _ state) found ▸ state
  · intro v listed
    obtain ⟨x, acts, found⟩ := List.mem_filterMap.mp listed
    obtain ⟨declared, member, rfl⟩ := valid.actions x acts
    obtain ⟨w, input, same⟩ := List.mem_map.mp (inputs ▸ List.mem_map_of_mem member : declared.name ∈ f.inputVars.map (·.name))
    rw [← same] at found
    exact find_of_name distinct (List.mem_append_right _ input) found ▸ input

theorem create_room (declared reserved : Int) :
    Yields (Space.create declared reserved) fun space => declared ≤ space.declared := by
  unfold Space.create
  dsimp only
  split
  · exact yields_error _
  · refine yields_ok ?_
    dsimp only
    omega

theorem protocols_inside (agents : List Agent) (start : Region) {vars : Set Nat} (reads : start.Reads vars)
    (each : ∀ a ∈ agents, a.protocol.Reads vars) : (agents.foldl (fun r a => r.inter a.protocol) start).Reads vars := by
  induction agents generalizing start with
  | nil => exact reads
  | cons a rest ih =>
      exact ih _ (reads.inter (each a List.mem_cons_self)) fun b listed => each b (List.mem_cons_of_mem _ listed)

-- What building goes through when it comes to a system. Every part of the system is what the step for it gave.
structure Builds (d : Description) (sys : System) : Prop where
  valid : d.validate = .ok ()
  created : Space.create (((2 * bitCount d.vars : Nat) : Int) + bitCount d.inputs) d.strategyBits = .ok sys.space
  frame : sys.toFrame = Frame.ofVariables sys.space (layStates 0 d.vars) (layInputs (2 * bitCount d.vars) d.inputs)
  resolved : d.resolveDefines sys.toFrame.vars = .ok sys.defines
  names : sys.names = ⟨sys.toFrame.vars, d.defines.map (·.1), sys.defines.map (·.1)⟩
  initial : ∃ r, conjoin (System.compile sys.names sys.defines .state) "init" d.init = .ok r ∧ sys.init = r.inter sys.statesMask
  acting : d.agents.mapM (buildAgent sys.toFrame (System.compile sys.names sys.defines .move)) = .ok sys.agents
  moving : ∃ r, conjoin (System.compile sys.names sys.defines .transition) "trans" d.trans = .ok r ∧
    sys.trans = (((sys.agents.foldl (fun r a => r.inter a.protocol) r).inter sys.statesMask).inter sys.inputsMask).inter sys.nextMask
  constrains : ∀ c ∈ sys.fairness, ∃ text r, System.compile sys.names sys.defines .state text = .ok r ∧ c = r.inter sys.statesMask
  groups : (sys.groups.map fun g => (g.name, g.members)).Perm d.groups

theorem build_builds {d : Description} {sys : System} (built : d.build = .ok sys) : d.Builds sys := by
  unfold build at built
  obtain ⟨_, valid, built⟩ := ok_of_bind built
  obtain ⟨space, created, built⟩ := ok_of_bind built
  obtain ⟨defines, resolved, built⟩ := ok_of_bind built
  obtain ⟨init, initial, built⟩ := ok_of_bind built
  obtain ⟨agents, acting, built⟩ := ok_of_bind built
  obtain ⟨trans, moving, built⟩ := ok_of_bind built
  obtain ⟨fairness, constrains, built⟩ := ok_of_bind built
  cases built
  refine ⟨ok_of_map_error valid, ok_of_map_error created, rfl, resolved, rfl, ⟨init, initial, rfl⟩, acting, ⟨trans, moving, rfl⟩,
    fun c listed => ?_, ?_⟩
  · obtain ⟨⟨text, i⟩, _, done⟩ := mem_of_map_m constrains c listed
    dsimp only at done
    split at done
    · rename_i r compiled
      cases done
      exact ⟨text, r, compiled, rfl⟩
    · cases done
  · have sorted := (List.mergeSort_perm (d.groups.map fun g => (⟨g.1, g.2⟩ : Group)) fun a b => a.name ≤ b.name).map
      fun g => (g.name, g.members)
    rwa [List.map_map, show ((fun g : Group => (g.name, g.members)) ∘ fun g => (⟨g.1, g.2⟩ : Group)) = id from rfl, List.map_id] at sorted

namespace Builds

variable {d : Description} {sys : System} (built : d.Builds sys)

include built

theorem laid : sys.Laid := by
  rw [built.frame]
  have room := create_room _ _ _ built.created
  exact Frame.laid_of_room d (by omega)

theorem state_names : sys.stateVars.map (·.name) = d.vars.map (·.name) := by
  rw [built.frame]
  exact lay_states_names _ _

theorem input_names : sys.inputVars.map (·.name) = d.inputs.map (·.name) := by
  rw [built.frame]
  exact lay_inputs_names _ _

theorem distinct : (sys.toFrame.vars.map (·.name)).Nodup := by
  rw [Frame.vars, List.map_append, built.state_names, built.input_names, ← List.map_append]
  exact (validate_valid d _ built.valid).distinct

theorem defines_read : ∀ entry ∈ sys.defines, entry.2.Reads sys.stateBit :=
  resolve_defines_reads d (Frame.state_scope_bits built.laid) _ built.resolved

theorem compiled_reads {vars : Set Nat} {scope : Expression.Scope} (le : sys.stateBit ⊆ vars)
    (bits : ∀ r, scope.Allows sys.toFrame.vars r → ∀ b ∈ r.var.bitsAt r.next, b ∈ vars) (text : String) :
    Yields (System.compile sys.names sys.defines scope text) fun region => region.Reads vars := by
  rw [built.names]
  exact reads_compile text bits fun entry listed => (built.defines_read entry listed).mono le

theorem init_state_set : sys.StateSet sys.init := by
  obtain ⟨r, initial, same⟩ := built.initial
  rw [same]
  have reads := conjoin_reads _ _ (built.compiled_reads (Set.Subset.refl _) (Frame.state_scope_bits built.laid)) r initial
  exact ⟨Region.inter_subset_right _ _, reads.inter sys.reads_states_mask⟩

theorem agents_within : ∀ a ∈ sys.agents, a.Within sys.toFrame ∧ a.protocol.Reads sys.moveBit :=
  yields_map_m (fun a listed => build_agent_within built.distinct built.state_names built.input_names
    (built.compiled_reads sys.state_subset_move Frame.move_scope_bits) a ((validate_valid d _ built.valid).agents a listed)) _ built.acting

theorem trans_reads : sys.trans.Reads sys.stepBit := by
  obtain ⟨r, moving, same⟩ := built.moving
  rw [same]
  have reads := conjoin_reads _ _
    (built.compiled_reads (sys.state_subset_move.trans sys.move_subset_step) (Frame.transition_scope_bits built.laid)) r moving
  have moves : ∀ a ∈ sys.agents, a.protocol.Reads sys.stepBit := fun a listed => (built.agents_within a listed).2.mono sys.move_subset_step
  have states := sys.reads_states_mask.mono (sys.state_subset_move.trans sys.move_subset_step)
  have inputs := sys.reads_inputs_mask.mono (sys.input_subset_move.trans sys.move_subset_step)
  have nexts := sys.reads_next_mask.mono (fun _ member => .inl (.inr member) : sys.nextBit ⊆ sys.stepBit)
  exact (((protocols_inside _ _ reads moves).inter states).inter inputs).inter nexts

theorem trans_inside : sys.trans.members ⊆ sys.statesMask.members ∩ sys.inputsMask.members ∩ sys.nextMask.members := by
  obtain ⟨r, _, same⟩ := built.moving
  rw [same]
  intro ρ member
  simp only [Region.members_inter] at member
  exact ⟨⟨member.1.1.2, member.1.2⟩, member.2⟩

theorem fairness_state_set : ∀ c ∈ sys.fairness, sys.StateSet c := by
  intro c listed
  obtain ⟨text, r, compiled, rfl⟩ := built.constrains c listed
  have reads := built.compiled_reads (Set.Subset.refl _) (Frame.state_scope_bits built.laid) text r compiled
  exact ⟨Region.inter_subset_right _ _, reads.inter sys.reads_states_mask⟩

end Builds

theorem build_well_formed (d : Description) : Yields d.build System.WellFormed := by
  intro sys done
  have built := build_builds done
  exact ⟨built.laid, built.distinct, built.init_state_set, built.trans_reads, built.trans_inside, built.fairness_state_set,
    fun a listed => (built.agents_within a listed).1, by rw [built.names], built.defines_read⟩

end Description

end Coalition
