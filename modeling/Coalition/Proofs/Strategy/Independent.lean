import Coalition.Proofs.Evaluation.Information
import Coalition.Proofs.Strategy.Maximal

-- Splitting for members that choose on their own lists every maximal uniform part, and only these where any choices can be made together.

set_option autoImplicit false

namespace Coalition

-- Whatever the viewers choose, each among the moves that look to it like some move, they can do together in its state.
def System.Independent (sys : System) (viewers : List Team) (moves : Set Valuation) : Prop :=
  ∀ ρ ∈ moves, ∀ choice : Team → Valuation, (∀ w ∈ viewers, choice w ∈ moves ∧ w.Same (choice w) ρ) →
    ∃ σ ∈ moves, sys.stateOf σ = sys.stateOf ρ ∧ ∀ w ∈ viewers, w.Plays (choice w) σ

namespace System.Independent

variable {sys : System} {viewers teams : List Team} {M C : Set Valuation}

theorem restrict (independent : sys.Independent viewers M) (wf : sys.WellFormed) (of : ∀ w ∈ viewers, w.Of sys) (some : viewers ≠ [])
    (inside : C ⊆ M) (apart : Apart viewers C (M \ C)) : sys.Independent viewers C := by
  intro ρ here choice chosen
  obtain ⟨σ, there, state, plays⟩ := independent ρ (inside here) choice fun w viewer => ⟨inside (chosen w viewer).1, (chosen w viewer).2⟩
  refine ⟨σ, ?_, state, plays⟩
  by_contra outside
  obtain ⟨w, viewer⟩ := List.exists_mem_of_ne_nil viewers some
  exact apart w viewer ρ here σ ⟨there, outside⟩ ((wf.same_states (of w viewer)).mp (state ▸ .refl w _))

theorem of_solid (independent : sys.Independent viewers M) (wf : sys.WellFormed) (of : ∀ w ∈ viewers, w.Of sys)
    (solid : Solid teams M C) (among : teams ⊆ viewers) (inside : C ⊆ M) : sys.Independent viewers C := by
  intro ρ here choice chosen
  obtain ⟨σ, there, state, plays⟩ := independent ρ (inside here) choice fun w viewer => ⟨inside (chosen w viewer).1, (chosen w viewer).2⟩
  refine ⟨σ, solid σ there fun w member => ?_, state, plays⟩
  have viewer := among member
  refine ⟨choice w, (chosen w viewer).1, ?_, plays w viewer⟩
  exact (chosen w viewer).2.trans ((wf.same_states (of w viewer)).mp (state ▸ .refl w _))

theorem of_sees {moves : Region} {w : Team} (wf : sys.WellFormed) (of : w.Of sys) (sees : w.SeesAll sys) (played : sys.PlayedSet moves) :
    sys.Independent [w] moves.members := by
  intro ρ here choice chosen
  obtain ⟨there, same⟩ := chosen w (List.mem_singleton.mpr rfl)
  refine ⟨choice w, there, ?_, fun x viewer => List.mem_singleton.mp viewer ▸ .refl w _⟩
  exact wf.eq_of_same sees (wf.mem_reachable.mp (played.reached there)) (wf.mem_reachable.mp (played.reached here))
    ((wf.same_states of).mpr same)

theorem leaves_states {w : Team} {parts : List Region} (independent : sys.Independent viewers M) (wf : sys.WellFormed)
    (of : ∀ w ∈ viewers, w.Of sys) (own : w ∈ viewers) (exact_ : Exact [w] ∅ M parts) :
    ∀ s ∈ parts, ∀ ρ ∈ M, ∃ σ ∈ s.members, sys.stateOf σ = sys.stateOf ρ := by
  classical
  intro s listed ρ here
  obtain ⟨σ, there, same⟩ := exact_.reaches_all s listed ρ here
  have looks := same w (List.mem_singleton.mpr rfl)
  -- one viewer chooses as in the part, the others as they do in the move
  obtain ⟨τ, inside, state, plays⟩ := independent ρ here (fun x => if x = w then σ else ρ) fun x viewer => by
    by_cases mine : x = w
    · rw [if_pos mine, mine]
      exact ⟨exact_.inside s listed there, looks⟩
    · rw [if_neg mine]
      exact ⟨here, .refl x ρ⟩
  have played := plays w own
  rw [if_pos rfl] at played
  have same : w.Same τ ρ := (wf.same_states (of w own)).mp (state ▸ .refl w _)
  exact ⟨τ, exact_.solid s listed τ inside (by simpa using ⟨σ, there, looks.trans same.symm, played⟩), state⟩

end System.Independent

theorem lamp_sees : ∃ sys t, lamp.build = .ok sys ∧ sys.team ["hand"] = .ok t ∧ t.SeesAll sys := by
  have works : (do
      let sys ← lamp.build
      let t ← sys.team ["hand"]
      return decide (t.SeesAll sys)).toOption = some true := by decide +kernel
  obtain ⟨sys, built, rest⟩ := ok_of_bind (ok_of_to_option works)
  obtain ⟨t, coalition, sees⟩ := ok_of_bind rest
  exact ⟨sys, t, built, coalition, of_decide_eq_true (Except.ok.inj sees)⟩

namespace Splitter

variable {sp : Splitter} {moves : Region}

section

variable (wf : sp.sys.WellFormed) (viewers : List Team) (of : ∀ w ∈ viewers, w.Of sp.sys)

include wf of

-- Where the choices are independent, splitting for some members lists exact parts that leave out no state.
theorem split_agents_exact (teams : List Team) (among : teams ⊆ viewers) (played : sp.sys.PlayedSet moves)
    (independent : sp.sys.Independent viewers moves.members) :
    Exact teams ∅ moves.members (sp.splitAgents .empty moves teams).items ∧
      ∀ s ∈ (sp.splitAgents .empty moves teams).items, ∀ ρ ∈ moves.members, ∃ σ ∈ s.members, sp.sys.stateOf σ = sp.sys.stateOf ρ := by
  have nothing : sp.sys.PlayedSet .empty := ⟨by simp, by simp, Region.reads_empty _⟩
  have free : ∀ viewers, Agreeing viewers Region.empty.members := fun _ => by simp [Agreeing]
  induction teams with
  | nil =>
      refine ⟨exact_single rfl, fun s listed ρ here => ⟨ρ, ?_, rfl⟩⟩
      exact List.mem_singleton.mp listed ▸ here
  | cons agent others ih =>
      obtain ⟨own, amongOthers⟩ := List.cons_subset.mp among
      obtain ⟨rest, full⟩ := ih amongOthers
      have restParts := split_agents_spec wf nothing others (fun x listed => of x (amongOthers listed)) (free others) played
      have first : ∀ part ∈ (sp.splitAgents .empty moves others).items,
          Parts sp.sys [agent] ∅ part.members (sp.splitAgent agent .empty sp.bound part) ∧
            Exact [agent] ∅ part.members (sp.splitAgent agent .empty sp.bound part).items := by
        intro part listed
        have partPlayed := played.sub (restParts.inside part listed) (restParts.reads part listed)
        have enough : sp.sys.moveCount part < sp.bound := System.move_count_bound sp.semantics sp.team part
        have parts := split_agent_spec wf (of agent own) nothing (free _) sp.bound partPlayed enough
        have exact_ := split_agent_exact wf (of agent own) nothing (free _) sp.bound partPlayed enough
        rw [Region.members_empty] at parts exact_
        exact ⟨parts, exact_⟩
      have items : (sp.splitAgents .empty moves (agent :: others)).items =
          (sp.splitAgents .empty moves others).items.flatMap fun part => (sp.splitAgent agent .empty sp.bound part).items :=
        (Enumeration.bind_spec restParts.ends fun part listed => (first part listed).1.ends).2
      -- what the others chose leaves every choice of this member in every state
      have fullHere : ∀ part ∈ (sp.splitAgents .empty moves others).items, ∀ s ∈ (sp.splitAgent agent .empty sp.bound part).items,
          ∀ ρ ∈ moves.members, ∃ σ ∈ s.members, sp.sys.stateOf σ = sp.sys.stateOf ρ := by
        intro part listed s chosen ρ member
        have stays := independent.of_solid wf of (rest.solid part listed) amongOthers (restParts.inside part listed)
        obtain ⟨σ, here, state⟩ := full part listed ρ member
        obtain ⟨τ, there, stateToo⟩ := stays.leaves_states wf of own (first part listed).2 s chosen σ here
        exact ⟨τ, there, stateToo.trans state⟩
      have looks : ∀ part ∈ (sp.splitAgents .empty moves others).items, ∀ s ∈ (sp.splitAgent agent .empty sp.bound part).items,
          ∀ ρ ∈ moves.members, ∃ σ ∈ s.members, ∀ w ∈ agent :: others, w.Same σ ρ := by
        intro part listed s chosen ρ member
        obtain ⟨σ, here, state⟩ := fullHere part listed s chosen ρ member
        exact ⟨σ, here, fun w viewer => (wf.same_states (of w (among viewer))).mp (state ▸ .refl w _)⟩
      rw [items]
      refine ⟨rest.refine (fun part listed => (first part listed).2) (fun part listed => ?_) looks, fun s known => ?_⟩
      · exact (restParts.agreeing part listed).mono Set.subset_union_left
      · obtain ⟨part, listed, chosen⟩ := List.mem_flatMap.mp known
        exact fullHere part listed s chosen

end

/-- For members that choose on their own, splitting lists uniform parts and all maximal ones among them. Where the choices are independent it
lists no others, and each once. -/
theorem split_lists_members {d : Description} (built : d.build = .ok sp.sys) {names : List String}
    (coalition : sp.sys.team names = .ok sp.team) (some : names ≠ []) (individual : sp.semantics = .individual)
    (told : sp.sys.Told {b | b ∈ sp.team.actionBits} moves) :
    (sp.split moves .empty).error? = none ∧ (∀ s ∈ (sp.split moves .empty).items, sp.Choice moves .empty s) ∧
      (∀ s, sp.MaximalChoice moves .empty s → s ∈ (sp.split moves .empty).items) ∧
      (sp.sys.Independent sp.team.singles moves.members →
        (sp.split moves .empty).items.Nodup ∧ ∀ s ∈ (sp.split moves .empty).items, sp.MaximalChoice moves .empty s) := by
  have wf := d.build_well_formed _ built
  obtain ⟨of, named⟩ := System.team_spec coalition
  have nothing : sp.sys.PlayedSet .empty := ⟨by simp, by simp, Region.reads_empty _⟩
  have free : Agreeing (sp.team.viewers sp.semantics) Region.empty.members := by simp [Agreeing]
  have viewers : sp.team.viewers sp.semantics = sp.team.singles := by rw [individual]; rfl
  refine ⟨(split_spec wf nothing of free told.played).ends, split_choices wf of nothing free told,
    fun s => maximal_choice_listed wf of nothing free told, fun independent => ?_⟩
  have ofMembers : ∀ w ∈ sp.team.singles, w.Of sp.sys := fun w member => Team.single_of of member
  have members : sp.team.singles ≠ [] := by
    intro none
    have empty : sp.team.members = [] := List.map_eq_nil_iff.mp none
    exact some (by rw [← named, Team.names, empty]; rfl)
  have same : sp.split moves .empty = sp.splitFrom .empty sp.bound moves := split_eq_from told.played nothing
  have exact_ := split_from_exact wf nothing of free (viewers ▸ members) sp.bound told.played
    (System.move_count_bound sp.semantics sp.team moves) fun c played inside apart _ => by
      rw [viewers] at apart ⊢
      have classes := split_agents_exact wf sp.team.singles ofMembers sp.team.singles (List.Subset.refl _) played
        (independent.restrict wf ofMembers members inside apart)
      unfold splitClass
      rw [individual, Region.members_empty]
      exact classes.1
  rw [← same] at exact_
  exact ⟨exact_.distinct, fun s listed => (exact_maximal wf of nothing free told exact_ s).mp listed⟩

theorem split_lists_members_lamp : ∃ sp : Splitter, lamp.build = .ok sp.sys ∧ sp.sys.team ["hand"] = .ok sp.team ∧
    sp.semantics = .individual ∧ sp.sys.Independent sp.team.singles (sp.sys.protocolOf sp.team).members ∧
      (sp.split (sp.sys.protocolOf sp.team) .empty).error? = none ∧
      (∀ s ∈ (sp.split (sp.sys.protocolOf sp.team) .empty).items, sp.Choice (sp.sys.protocolOf sp.team) .empty s) ∧
      (∀ s, sp.MaximalChoice (sp.sys.protocolOf sp.team) .empty s → s ∈ (sp.split (sp.sys.protocolOf sp.team) .empty).items) ∧
      (sp.split (sp.sys.protocolOf sp.team) .empty).items.Nodup ∧
      ∀ s ∈ (sp.split (sp.sys.protocolOf sp.team) .empty).items, sp.MaximalChoice (sp.sys.protocolOf sp.team) .empty s := by
  obtain ⟨sys, t, built, coalition, sees⟩ := lamp_sees
  have wf := lamp.build_well_formed sys built
  obtain ⟨of, named⟩ := System.team_spec coalition
  have single : t.singles = [t] := by
    obtain ⟨a, only⟩ := List.length_eq_one_iff.mp (by simpa [Team.names] using congrArg List.length named)
    cases t
    simp only at only
    simp [Team.singles, only]
  have independent : sys.Independent t.singles (sys.protocolOf t).members := by
    rw [single]
    exact .of_sees wf of sees (wf.protocol_played of)
  obtain ⟨ends, choices, complete, exactly⟩ := @split_lists_members ⟨sys, t, .individual⟩ (sys.protocolOf t) lamp built ["hand"] coalition
    (List.cons_ne_nil _ _) rfl (wf.protocol_told of)
  exact ⟨⟨sys, t, .individual⟩, built, coalition, rfl, independent, ends, choices, complete, exactly independent⟩

end Splitter

-- The two members have to press the same, but only one of them sees the lamp.
def linkedLamp : Description where
  name := "linked lamp"
  vars := [⟨"on", ["no", "yes"]⟩]
  inputs := [⟨"left", ["no", "yes"]⟩, ⟨"right", ["no", "yes"]⟩]
  trans := ["left = yes <-> right = yes"]
  agents := [{ name := "left hand", actions := ["left"] }, { name := "right hand", observes := ["on"], actions := ["right"] }]

example : ((do
    let sys ← linkedLamp.build.toOption
    let t ← (sys.team ["left hand", "right hand"]).toOption
    let items := (Splitter.split ⟨sys, t, .individual⟩ (sys.protocolOf t) .empty).items
    return (items.length, (items.filter fun s => items.any fun r => s.subset r && !(r.subset s)).length)) : Option (Nat × Nat)) =
    some (6, 4) := by decide +kernel

end Coalition
