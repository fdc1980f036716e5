import Mathlib.Logic.Relation
import Coalition.Proofs.Model.Names

-- A valid description has no group that contains itself and no member that stands for nothing, so names stand for the agents that their
-- groups lead to.

set_option autoImplicit false

namespace Coalition

namespace Description

def HasMember (d : Description) (group member : String) : Prop := ∃ members, (group, members) ∈ d.groups ∧ member ∈ members

def teamNames (d : Description) : List String := d.agents.map (·.name) ++ d.groups.map (·.1)

-- A group contains itself, at some depth, or has a member that is neither an agent nor a group.
def IllGrouped (d : Description) : Prop :=
  (∃ group, Relation.TransGen d.HasMember group group) ∨ ∃ group member, d.HasMember group member ∧ member ∉ d.teamNames

variable {d : Description}

theorem HasMember.group {group member : String} (has : d.HasMember group member) : group ∈ d.groups.map (·.1) := by
  obtain ⟨members, listed, _⟩ := has
  exact List.mem_map.mpr ⟨(group, members), listed, rfl⟩

theorem HasMember.listed (distinct : (d.groups.map (·.1)).Nodup) {group member : String} (has : d.HasMember group member) :
    member ∈ members d.groups group := by
  obtain ⟨own, listed, inside⟩ := has
  rwa [members, lookup_of_listed distinct listed]

theorem lookup_group (distinct : (d.groups.map (·.1)).Nodup) {name : String} (group : name ∈ d.groups.map (·.1)) :
    (d.groups.lookup name).isSome = true := by
  obtain ⟨⟨_, own⟩, listed, rfl⟩ := List.mem_map.mp group
  rw [lookup_of_listed distinct listed]
  rfl

theorem reaches_cycle (distinct : (d.groups.map (·.1)).Nodup) {group : String} (cycle : Relation.TransGen d.HasMember group group)
    (fuel : Nat) (above : List String) : reachesCycle d.groups fuel above group = true := by
  induction fuel generalizing above group with
  | zero => rfl
  | succ fuel ih =>
      obtain ⟨next, has, back⟩ := Relation.TransGen.head'_iff.mp cycle
      have again : Relation.TransGen d.HasMember next next := Relation.TransGen.tail' back has
      obtain ⟨_, more, _⟩ := Relation.TransGen.head'_iff.mp again
      rw [reachesCycle, Bool.or_eq_true, List.any_eq_true]
      exact .inr ⟨next, has.listed distinct, Bool.and_eq_true_iff.mpr ⟨lookup_group distinct more.group, ih again _⟩⟩

theorem Named.well_grouped (named : d.Named) : ¬d.IllGrouped := by
  have distinct : (d.groups.map (·.1)).Nodup := (List.nodup_append.mp named.distinct).2.1
  rintro (⟨group, cycle⟩ | ⟨group, member, ⟨members, listed, inside⟩, unknown⟩)
  · obtain ⟨_, has, _⟩ := Relation.TransGen.head'_iff.mp cycle
    obtain ⟨⟨_, members⟩, listed, rfl⟩ := List.mem_map.mp has.group
    exact absurd (named.acyclic _ listed) (by rw [reaches_cycle distinct cycle]; nofun)
  · obtain agent | known := named.members _ listed member inside
    · exact unknown (List.mem_append_left _ agent)
    · obtain ⟨own, found⟩ := Option.isSome_iff_exists.mp known
      obtain ⟨before, after, whole, _⟩ := List.lookup_eq_some_iff.mp found
      exact unknown (List.mem_append_right _ (List.mem_map.mpr ⟨(member, own), by simp [whole], rfl⟩))

theorem validate_rejects (bad : d.IllGrouped) : ∃ problem, d.validate = .error problem := by
  cases checked : d.validate with
  | error problem => exact ⟨problem, rfl⟩
  | ok done => exact absurd bad (d.validate_named done checked).well_grouped

end Description

namespace System

variable {sys : System} {d : Description}

section

variable (named : d.Named) (agents : sys.agents.map (·.name) = d.agents.map (·.name))
  (groups : (sys.groups.map fun g => (g.name, g.members)).Perm d.groups)

include named

theorem agent_has_no_member {name member : String} (agent : name ∈ d.agents.map (·.name)) : ¬d.HasMember name member := by
  intro has
  have apart := List.nodup_append.mp named.distinct
  exact apart.2.2 name (List.mem_append_right _ agent) name has.group rfl

include agents groups

theorem agents_of_name_reached (fuel : Nat) (name : String) : Yields (sys.agentsOfName fuel name) fun found =>
    ∀ a, a ∈ found ↔ a ∈ d.agents.map (·.name) ∧ Relation.ReflTransGen d.HasMember name a := by
  induction fuel generalizing name with
  | zero => exact yields_error _
  | succ fuel ih =>
      by_cases agent : name ∈ sys.agents.map (·.name)
      · rw [agents_of_agent agent]
        rw [agents] at agent
        refine yields_ok fun a => ?_
        constructor
        · rintro only
          obtain rfl := List.mem_singleton.mp only
          exact ⟨agent, .refl⟩
        · rintro ⟨_, path⟩
          obtain rfl | ⟨_, has, _⟩ := path.cases_head
          · exact List.mem_singleton_self _
          · exact absurd has (agent_has_no_member named agent)
      · rw [agentsOfName, if_neg fun found => agent (agent_found.mp found)]
        cases here : sys.group? name with
        | none => exact yields_error _
        | some g =>
            obtain ⟨rfl, listed⟩ := group_found here
            have described : (g.name, g.members) ∈ d.groups := groups.mem_iff.mp (List.mem_map.mpr ⟨g, listed, rfl⟩)
            have distinct : (d.groups.map (·.1)).Nodup := (List.nodup_append.mp named.distinct).2.1
            have own : Description.members d.groups g.name = g.members := by
              rw [Description.members, lookup_of_listed distinct described]
              rfl
            intro found done a
            obtain ⟨parts, each, same⟩ := ok_of_bind done
            cases same
            rw [List.mem_flatten]
            constructor
            · rintro ⟨part, inside, mem⟩
              obtain ⟨m, member, resolved⟩ := mem_of_map_m each part inside
              obtain ⟨known, path⟩ := (ih m part resolved a).mp mem
              exact ⟨known, path.head ⟨g.members, described, member⟩⟩
            · rintro ⟨known, path⟩
              obtain rfl | ⟨m, has, rest⟩ := path.cases_head
              · exact absurd (agents ▸ known) agent
              · have member : m ∈ g.members := own ▸ has.listed distinct
                obtain ⟨part, inside, resolved⟩ := ok_of_map_m each m member
                exact ⟨part, inside, (ih m part resolved a).mpr ⟨known, rest⟩⟩

omit named in
theorem agents_of_name_unknown {name : String} (unknown : name ∉ d.teamNames) (fuel : Nat) :
    sys.agentsOfName fuel name = .error (.unknownAgent name) := by
  cases fuel with
  | zero => rfl
  | succ fuel =>
      have noAgent : ¬(sys.agent? name).isSome = true := fun found => unknown (List.mem_append_left _ (agents ▸ agent_found.mp found))
      have noGroup : sys.group? name = none := by
        cases found : sys.group? name with
        | none => rfl
        | some g =>
            obtain ⟨rfl, listed⟩ := group_found found
            have described : (g.name, g.members) ∈ d.groups := groups.mem_iff.mp (List.mem_map.mpr ⟨g, listed, rfl⟩)
            exact absurd (List.mem_append_right _ (List.mem_map.mpr ⟨_, described, rfl⟩)) unknown
      rw [agentsOfName, if_neg noAgent, noGroup]

end

theorem agents_of_name_steady (more : Nat) {fuel : Nat} {name : String} {found : List String} (done : sys.agentsOfName fuel name = .ok found) :
    sys.agentsOfName (fuel + more) name = .ok found := by
  induction fuel generalizing name found with
  | zero => cases done
  | succ fuel ih =>
      rw [Nat.add_right_comm]
      unfold agentsOfName at done ⊢
      split at done
      · rename_i agent
        rw [if_pos agent, done]
      · rename_i other
        rw [if_neg other]
        cases here : sys.group? name with
        | none => simp [here] at done
        | some g =>
            rw [here] at done
            obtain ⟨parts, each, same⟩ := ok_of_bind done
            exact bind_ok (map_m_same each fun m _ part resolved => ih resolved) same

section

variable (built : d.build = .ok sys)

include built

theorem agents_of_name_ends {name : String} (more : Nat) :
    sys.agentsOfName (sys.groups.length + 1 + more) name = sys.agentsOfName (sys.groups.length + 1) name := by
  obtain ⟨named, agents, groups⟩ := d.build_named sys built
  by_cases known : name ∈ d.teamNames
  · obtain ⟨found, done⟩ := agents_of_declared named agents groups known
    rw [done, agents_of_name_steady more done]
  · rw [agents_of_name_unknown agents groups known, agents_of_name_unknown agents groups known]

theorem agents_of_known {names : List String} (known : ∀ name ∈ names, name ∈ d.teamNames) : ∃ found, sys.agentsOf names = .ok found ∧
    InOrder found ∧ ∀ a, a ∈ found ↔ a ∈ d.agents.map (·.name) ∧ ∃ name ∈ names, Relation.ReflTransGen d.HasMember name a := by
  obtain ⟨named, agents, groups⟩ := d.build_named sys built
  obtain ⟨parts, all⟩ := exists_map_m fun name listed => agents_of_declared named agents groups (known name listed)
  refine ⟨sortDistinct parts.flatten, bind_ok all rfl, sort_distinct_in_order _, fun a => ?_⟩
  rw [mem_sort_distinct, List.mem_flatten]
  constructor
  · rintro ⟨part, inside, mem⟩
    obtain ⟨name, listed, resolved⟩ := mem_of_map_m all part inside
    obtain ⟨agent, path⟩ := (agents_of_name_reached named agents groups _ name part resolved a).mp mem
    exact ⟨agent, name, listed, path⟩
  · rintro ⟨agent, name, listed, path⟩
    obtain ⟨part, inside, resolved⟩ := ok_of_map_m all name listed
    exact ⟨part, inside, (agents_of_name_reached named agents groups _ name part resolved a).mpr ⟨agent, path⟩⟩

theorem agents_of_unknown {names : List String} (unknown : ∃ name ∈ names, name ∉ d.teamNames) :
    ∃ name ∈ names, name ∉ d.teamNames ∧ sys.agentsOf names = .error (.unknownAgent name) := by
  obtain ⟨named, agents, groups⟩ := d.build_named sys built
  cases outcome : names.mapM (sys.agentsOfName (sys.groups.length + 1)) with
  | ok parts =>
      obtain ⟨name, listed, missing⟩ := unknown
      obtain ⟨part, _, resolved⟩ := ok_of_map_m outcome name listed
      rw [agents_of_name_unknown agents groups missing] at resolved
      cases resolved
  | error e =>
      obtain ⟨name, listed, failed⟩ := error_of_map_m outcome
      have missing : name ∉ d.teamNames := by
        intro known
        obtain ⟨found, done⟩ := agents_of_declared named agents groups known
        rw [done] at failed
        cases failed
      rw [agents_of_name_unknown agents groups missing] at failed
      cases failed
      exact ⟨name, listed, missing, by rw [agentsOf, outcome]; rfl⟩

end

/-- Groups that contain themselves or have unknown members are turned down. Where a system was built, every descent through its groups ends,
and names stand for exactly the agents that groups lead to, in order, unless one of them is unknown. -/
theorem groups_resolved (d : Description) :
    (d.IllGrouped → ∃ problem, d.validate = .error problem ∧ d.build = .error (.model problem)) ∧
    ∀ sys, d.build = .ok sys → ∀ names : List String,
      (∀ name more, sys.agentsOfName (sys.groups.length + 1 + more) name = sys.agentsOfName (sys.groups.length + 1) name) ∧
      ((∃ e, sys.agentsOf names = .error e) ↔ ∃ name ∈ names, name ∉ d.teamNames) ∧
      (∀ e, sys.agentsOf names = .error e → ∃ name ∈ names, name ∉ d.teamNames ∧ e = .unknownAgent name) ∧
      (∀ found, sys.agentsOf names = .ok found → InOrder found ∧
        ∀ a, a ∈ found ↔ a ∈ d.agents.map (·.name) ∧ ∃ name ∈ names, Relation.ReflTransGen d.HasMember name a) := by
  refine ⟨fun bad => ?_, fun sys built names => ⟨fun name more => agents_of_name_ends built more, ?_⟩⟩
  · obtain ⟨problem, checked⟩ := Description.validate_rejects bad
    exact ⟨problem, checked, by rw [Description.build, checked]; rfl⟩
  · by_cases unknown : ∃ name ∈ names, name ∉ d.teamNames
    · obtain ⟨name, listed, missing, failed⟩ := agents_of_unknown built unknown
      rw [failed]
      exact ⟨iff_of_true ⟨_, rfl⟩ unknown, fun e same => ⟨name, listed, missing, (Except.error.inj same).symm⟩, nofun⟩
    · have known : ∀ name ∈ names, name ∈ d.teamNames := by simpa using unknown
      obtain ⟨found, done, exact⟩ := agents_of_known built known
      rw [done]
      exact ⟨iff_of_false nofun unknown, nofun, fun other same => Except.ok.inj same ▸ exact⟩

-- A lamp with a hand and an eye. Two ways lead from the group of all to the eye.
def crewedLamp : Description where
  name := "crewed lamp"
  vars := [⟨"on", ["no", "yes"]⟩]
  inputs := [⟨"press", ["no", "yes"]⟩]
  agents := [{ name := "hand", actions := ["press"] }, { name := "eye", observes := ["on"] }]
  groups := [("all", ["crew", "eye"]), ("crew", ["hand", "eye"])]

theorem groups_resolved_crewed_lamp :
    (∃ problem, ({ crewedLamp with groups := [("all", ["crew"]), ("crew", ["all"])] }).build = .error (.model problem)) ∧
    ∃ sys, crewedLamp.build = .ok sys ∧ (∃ e, sys.agentsOf ["all", "ghost"] = .error e) ∧
      ∃ found, sys.agentsOf ["all"] = .ok found ∧ InOrder found ∧ "hand" ∈ found := by
  obtain ⟨sys, built⟩ : ∃ sys, crewedLamp.build = .ok sys := ok_of_is_ok (by decide +kernel)
  refine ⟨?_, sys, built, ?_, ?_⟩
  · obtain ⟨problem, _, failed⟩ := (groups_resolved { crewedLamp with groups := [("all", ["crew"]), ("crew", ["all"])] }).1
      (.inl ⟨"all", .tail (.single (b := "crew") ⟨["crew"], by simp⟩) ⟨["all"], by simp⟩⟩)
    exact ⟨problem, failed⟩
  · obtain ⟨_, fails, _⟩ := (groups_resolved crewedLamp).2 sys built ["all", "ghost"]
    exact fails.mpr ⟨"ghost", by simp, by simp [Description.teamNames, crewedLamp]⟩
  · obtain ⟨_, fails, _, finds⟩ := (groups_resolved crewedLamp).2 sys built ["all"]
    cases resolved : sys.agentsOf ["all"] with
    | error e =>
        obtain ⟨name, listed, unknown⟩ := fails.mp ⟨e, resolved⟩
        exact absurd unknown (by simp [List.mem_singleton.mp listed, Description.teamNames, crewedLamp])
    | ok found =>
        obtain ⟨ordered, exactly⟩ := finds found resolved
        refine ⟨found, rfl, ordered, (exactly "hand").mpr ⟨by simp [crewedLamp], "all", by simp, ?_⟩⟩
        exact .tail (.single (b := "crew") ⟨["crew", "eye"], by simp [crewedLamp]⟩) ⟨["hand", "eye"], by simp [crewedLamp]⟩

end System

end Coalition
