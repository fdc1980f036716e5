import Mathlib.Data.List.Nodup
import Mathlib.Data.List.Perm.Subperm
import Coalition.Proofs.Model.Team

-- A valid description declares every name once, and no group is a member of itself, so a built system finds the agents of every declared
-- name.

set_option autoImplicit false

namespace Coalition

theorem lookup_of_listed {β : Type} {entries : List (String × β)} (distinct : (entries.map (·.1)).Nodup) {key : String} {value : β}
    (listed : (key, value) ∈ entries) : entries.lookup key = some value := by
  induction entries with
  | nil => cases listed
  | cons head rest ih =>
      obtain ⟨absent, others⟩ := List.nodup_cons.mp distinct
      obtain rfl | later := List.mem_cons.mp listed
      · simp
      · have different : (key == head.1) = false :=
          beq_eq_false_iff_ne.mpr fun same => absent (List.mem_map.mpr ⟨(key, value), later, same⟩)
        rw [List.lookup_cons, different]
        exact ih others later

namespace Description

def declared (d : Description) : List String :=
  (d.vars ++ d.inputs).map (·.name) ++ d.defines.map (·.1) ++ d.agents.map (·.name) ++ d.groups.map (·.1)

structure Named (d : Description) : Prop where
  distinct : d.declared.Nodup
  domains : ∀ x ∈ d.vars ++ d.inputs, x.values ≠ [] ∧ x.values.Nodup
  members : ∀ g ∈ d.groups, ∀ m ∈ g.2, m ∈ d.agents.map (·.name) ∨ (d.groups.lookup m).isSome = true
  acyclic : ∀ g ∈ d.groups, reachesCycle d.groups (d.groups.length + 1) [] g.1 = false

-- Some names are declared after others, and all of them are different.
structure Declares (before after : List (String × Declared)) (names : List String) : Prop where
  listed : ∀ name, name ∈ after.map (·.1) ↔ name ∈ before.map (·.1) ∨ name ∈ names
  fresh : ∀ name ∈ names, name ∉ before.map (·.1)
  nodup : names.Nodup

namespace Declares

variable {before middle after : List (String × Declared)} {names more : List String}

theorem none (before : List (String × Declared)) : Declares before before [] := ⟨by simp, by simp, List.nodup_nil⟩

theorem one {what : Declared} {name : String} (fresh : name ∉ before.map (·.1)) : Declares before ((name, what) :: before) [name] :=
  ⟨fun other => by simp [or_comm], by simpa using fresh, List.nodup_singleton name⟩

theorem append (first : Declares before middle names) (second : Declares middle after more) : Declares before after (names ++ more) := by
  constructor
  · intro name
    rw [second.listed, first.listed, List.mem_append, or_assoc]
  · intro name listed old
    obtain here | later := List.mem_append.mp listed
    · exact first.fresh name here old
    · exact second.fresh name later ((first.listed name).mpr (.inl old))
  · refine List.nodup_append.mpr ⟨first.nodup, second.nodup, fun name here other later same => ?_⟩
    subst same
    exact second.fresh name later ((first.listed name).mpr (.inr here))

end Declares

theorem declares_fold {α : Type} (key : α → String) (step : List (String × Declared) → α → Check (List (String × Declared)))
    (each : ∀ names a, Yields (step names a) fun after => ∃ what, after = (key a, what) :: names ∧ key a ∉ names.map (·.1))
    (xs : List α) (before : List (String × Declared)) :
    Yields (xs.foldlM step before) fun after => Declares before after (xs.map key) := by
  induction xs generalizing before with
  | nil => exact yields_ok (.none before)
  | cons a rest ih =>
      rw [List.foldlM_cons]
      refine yields_bind (each before a) fun middle known => ?_
      obtain ⟨what, rfl, fresh⟩ := known
      exact fun after done => (Declares.one fresh).append (ih _ after done)

theorem declare_names (what : Declared) {α : Type} (key : α → String) (names : List (String × Declared)) (a : α) :
    Yields (declare what names (key a)) fun after => ∃ w, after = (key a, w) :: names ∧ key a ∉ names.map (·.1) :=
  fun after done => ⟨what, (declare_new what names (key a) after done).1, (declare_new what names (key a) after done).2.1⟩

theorem no_duplicates {xs : List String} (none : hasDuplicates xs = false) : xs.Nodup := by
  induction xs with
  | nil => exact List.nodup_nil
  | cons x rest ih =>
      rw [hasDuplicates, Bool.or_eq_false_iff] at none
      exact List.nodup_cons.mpr ⟨by simpa using none.1, ih none.2⟩

theorem check_domain_values (names : List (String × Declared)) (x : Domain) :
    Yields (checkDomain names x) fun _ => x.values ≠ [] ∧ x.values.Nodup := by
  unfold checkDomain
  refine yields_bind (declare_new _ _ _) fun after _ => ?_
  cases none : x.values.isEmpty with
  | true => exact yields_error _
  | false =>
      cases twice : hasDuplicates x.values with
      | true => exact yields_error _
      | false => exact yields_ok ⟨by simpa using none, no_duplicates twice⟩

theorem check_domains_values (xs : List Domain) (names : List (String × Declared)) :
    Yields (xs.foldlM checkDomain names) fun _ => ∀ x ∈ xs, x.values ≠ [] ∧ x.values.Nodup := by
  induction xs generalizing names with
  | nil => exact yields_ok (by simp)
  | cons x rest ih =>
      rw [List.foldlM_cons]
      refine yields_bind (check_domain_values names x) fun next values => ?_
      exact fun after done => List.forall_mem_cons.mpr ⟨values, ih next after done⟩

theorem check_agents_names (d : Description) (before : List (String × Declared)) (owners : List (String × String))
    (agents : List AgentDescription) :
    Yields (checkAgents d before owners agents) fun after => Declares before after (agents.map (·.name)) := by
  induction agents generalizing before owners with
  | nil => exact yields_ok (.none before)
  | cons a rest ih =>
      unfold checkAgents
      refine yields_bind (declare_new _ _ _) fun middle known => ?_
      obtain ⟨rfl, fresh, _⟩ := known
      cases bad : a.observes.find? fun o => !d.vars.any (·.name == o) with
      | some o => exact yields_error _
      | none =>
          refine yields_bind (P := fun _ => True) (fun _ _ => trivial) fun owners _ => ?_
          exact fun after done => (Declares.one fresh).append (ih _ _ after done)

theorem check_group_spec (d : Description) (g : String × List String) : Yields (checkGroup d g) fun _ =>
    (∀ m ∈ g.2, m ∈ d.agents.map (·.name) ∨ (d.groups.lookup m).isSome = true) ∧
      reachesCycle d.groups (d.groups.length + 1) [] g.1 = false := by
  unfold checkGroup
  dsimp only
  cases bad : g.2.find? fun m => !(d.agents.any (·.name == m) || (d.groups.lookup m).isSome) with
  | some m => exact yields_error _
  | none =>
      cases cycle : reachesCycle d.groups (d.groups.length + 1) [] g.1 with
      | true => exact yields_error _
      | false =>
          refine yields_ok ⟨fun m listed => ?_, rfl⟩
          have known := List.find?_eq_none.mp bad m listed
          rw [Bool.not_eq_true, Bool.not_eq_false', Bool.or_eq_true] at known
          exact known.imp (fun agent => by simpa using agent) id

theorem check_groups_spec (d : Description) (groups : List (String × List String)) : Yields (groups.forM (checkGroup d)) fun _ =>
    ∀ g ∈ groups, (∀ m ∈ g.2, m ∈ d.agents.map (·.name) ∨ (d.groups.lookup m).isSome = true) ∧
      reachesCycle d.groups (d.groups.length + 1) [] g.1 = false := by
  induction groups with
  | nil => exact yields_ok (by simp)
  | cons g rest ih =>
      show Yields (d.checkGroup g >>= fun _ => rest.forM d.checkGroup) _
      refine yields_bind (check_group_spec d g) fun _ first => ?_
      exact fun after done => List.forall_mem_cons.mpr ⟨first, ih after done⟩

theorem validate_named (d : Description) : Yields d.validate fun _ => d.Named := by
  have domains := fun names => declares_fold Domain.name checkDomain (fun names x after done => by
    obtain ⟨⟨what, same⟩, fresh⟩ := check_domain_new names x after done
    exact ⟨what, same, fresh⟩) (d.vars ++ d.inputs) names
  unfold validate
  refine yields_bind (P := fun after => Declares [] after ((d.vars ++ d.inputs).map (·.name)) ∧
    ∀ x ∈ d.vars ++ d.inputs, x.values ≠ [] ∧ x.values.Nodup) (fun after done => ⟨domains [] after done, ?_⟩) fun first vars => ?_
  · exact check_domains_values _ _ after done
  refine yields_bind (declares_fold Prod.fst _ (fun names => declare_names .define Prod.fst names) d.defines first) fun second defines => ?_
  refine yields_bind (check_agents_names d second [] d.agents) fun third agents => ?_
  refine yields_bind (declares_fold Prod.fst _ (fun names => declare_names .group Prod.fst names) d.groups third) fun fourth groups => ?_
  refine fun after done => ⟨(((vars.1.append defines).append agents).append groups).nodup, vars.2, fun g listed => ?_, fun g listed => ?_⟩
  · exact (check_groups_spec d d.groups after done g listed).1
  · exact (check_groups_spec d d.groups after done g listed).2

theorem build_named (d : Description) : Yields d.build fun sys => d.Named ∧ sys.agents.map (·.name) = d.agents.map (·.name) ∧
    (sys.groups.map fun g => (g.name, g.members)).Perm d.groups := by
  intro sys done
  have built := build_builds done
  refine ⟨validate_named d _ built.valid, ?_, built.groups⟩
  have each := map_m_ok_iff.mp built.acting
  generalize d.agents = described at each ⊢
  generalize sys.agents = agents at each ⊢
  induction each with
  | nil => rfl
  | cons acts _ ih =>
      obtain ⟨protocol, _, same⟩ := ok_of_bind acts
      cases same
      rw [List.map_cons, List.map_cons, ih]

end Description

namespace System

variable {sys : System} {d : Description}

theorem agent_found {name : String} : (sys.agent? name).isSome = true ↔ name ∈ sys.agents.map (·.name) := by
  unfold agent?
  rw [List.find?_isSome, List.mem_map]
  simp

theorem group_found {name : String} {g : Group} (found : sys.group? name = some g) : g.name = name ∧ g ∈ sys.groups :=
  ⟨by simpa using List.find?_some found, List.mem_of_find?_eq_some found⟩

theorem agents_of_agent {name : String} (agent : name ∈ sys.agents.map (·.name)) (fuel : Nat) :
    sys.agentsOfName (fuel + 1) name = .ok [name] := by
  rw [agentsOfName, if_pos (agent_found.mpr agent)]

section

variable (named : d.Named) (agents : sys.agents.map (·.name) = d.agents.map (·.name))
  (groups : (sys.groups.map fun g => (g.name, g.members)).Perm d.groups)

include groups

theorem group_described {name : String} (group : name ∈ d.groups.map (·.1)) :
    ∃ g, sys.group? name = some g ∧ (name, g.members) ∈ d.groups := by
  cases found : sys.group? name with
  | none =>
      obtain ⟨g, listed, rfl⟩ := List.mem_map.mp group
      obtain ⟨built, member, same⟩ := List.mem_map.mp (groups.mem_iff.mpr listed)
      have missing := List.find?_eq_none.mp found built member
      exact absurd (by simp [← same]) missing
  | some g =>
      obtain ⟨rfl, member⟩ := group_found found
      exact ⟨g, rfl, groups.mem_iff.mp (List.mem_map_of_mem member)⟩

include named agents

theorem agents_of_group (fuel : Nat) (above : List String) (apart : above.Nodup) (inside : above ⊆ d.groups.map (·.1))
    (enough : above.length + fuel = d.groups.length + 1) {name : String} (group : name ∈ d.groups.map (·.1))
    (acyclic : Description.reachesCycle d.groups fuel above name = false) : ∃ found, sys.agentsOfName fuel name = .ok found := by
  induction fuel generalizing above name with
  | zero => cases acyclic
  | succ fuel ih =>
      rw [Description.reachesCycle, Bool.or_eq_false_iff] at acyclic
      have fresh : name ∉ above := by simpa using acyclic.1
      have longer : (name :: above).Nodup := List.nodup_cons.mpr ⟨fresh, apart⟩
      have insideToo : name :: above ⊆ d.groups.map (·.1) := List.cons_subset.mpr ⟨group, inside⟩
      -- the groups above the name are all different, so that there is fuel left for its members
      have short := (List.subperm_of_subset longer insideToo).length_le
      rw [List.length_cons, List.length_map] at short
      obtain ⟨more, rfl⟩ : ∃ more, fuel = more + 1 := ⟨fuel - 1, by omega⟩
      by_cases agent : name ∈ sys.agents.map (·.name)
      · exact ⟨_, agents_of_agent agent _⟩
      · have distinct : (d.groups.map (·.1)).Nodup := (List.nodup_append.mp named.distinct).2.1
        obtain ⟨g, here, described⟩ := group_described groups group
        rw [agentsOfName, if_neg fun found => agent (agent_found.mp found), here]
        have own : Description.members d.groups name = g.members := by
          rw [Description.members, lookup_of_listed distinct described]
          rfl
        rw [own] at acyclic
        have each : ∀ m ∈ g.members, ∃ found, sys.agentsOfName (more + 1) m = .ok found := by
          intro m listed
          obtain agentToo | groupToo := named.members _ described m listed
          · exact ⟨_, agents_of_agent (agents ▸ agentToo) more⟩
          · have free := List.any_eq_false.mp acyclic.2 m listed
            rw [groupToo, Bool.true_and, Bool.not_eq_true] at free
            refine ih (name :: above) longer insideToo (by rw [List.length_cons]; omega) ?_ free
            obtain ⟨members, known⟩ := Option.isSome_iff_exists.mp groupToo
            obtain ⟨before, _, whole, _⟩ := List.lookup_eq_some_iff.mp known
            exact List.mem_map.mpr ⟨(m, members), by simp [whole], rfl⟩
        obtain ⟨found, all⟩ := exists_map_m each
        exact ⟨found.flatten, by simp only [all]; rfl⟩

theorem agents_of_declared {name : String} (declared : name ∈ d.agents.map (·.name) ++ d.groups.map (·.1)) :
    ∃ found, sys.agentsOfName (sys.groups.length + 1) name = .ok found := by
  have count : sys.groups.length = d.groups.length := by simpa using groups.length_eq
  obtain agent | group := List.mem_append.mp declared
  · exact ⟨_, agents_of_agent (agents ▸ agent) _⟩
  · rw [count]
    obtain ⟨g, listed, rfl⟩ := List.mem_map.mp group
    exact agents_of_group named agents groups _ [] List.nodup_nil (List.nil_subset _) (by simp) group (named.acyclic g listed)

end

theorem agents_of_name_named (fuel : Nat) (name : String) :
    Yields (sys.agentsOfName fuel name) fun _ => name ∈ sys.agents.map (·.name) ++ sys.groups.map (·.name) := by
  intro agents found
  cases fuel with
  | zero => cases found
  | succ fuel =>
      unfold agentsOfName at found
      split at found
      · rename_i known
        obtain ⟨a, here⟩ := Option.isSome_iff_exists.mp known
        have named : a.name = name := by simpa using List.find?_some here
        exact List.mem_append_left _ (List.mem_map.mpr ⟨a, List.mem_of_find?_eq_some here, named⟩)
      · cases here : sys.group? name with
        | none => simp [here] at found
        | some g =>
            have named : g.name = name := by simpa using List.find?_some here
            exact List.mem_append_right _ (List.mem_map.mpr ⟨g, List.mem_of_find?_eq_some here, named⟩)

theorem team_of_named (names : List String) :
    Yields (sys.teamOf names) fun _ => ∀ name ∈ names, name ∈ sys.agents.map (·.name) ++ sys.groups.map (·.name) := by
  intro t found
  obtain ⟨sorted, listed, _⟩ := ok_of_bind found
  obtain ⟨agents, each, sorts⟩ := ok_of_bind listed
  clear found listed sorts
  induction names generalizing agents with
  | nil => simp
  | cons name rest ih =>
      rw [List.mapM_cons] at each
      obtain ⟨first, here, each⟩ := ok_of_bind each
      obtain ⟨others, more, -⟩ := ok_of_bind each
      exact List.forall_mem_cons.mpr ⟨sys.agents_of_name_named _ name first here, ih others more⟩

theorem agents_of_name_listed (fuel : Nat) (name : String) :
    Yields (sys.agentsOfName fuel name) fun found => ∀ x ∈ found, x ∈ sys.agents.map (·.name) := by
  induction fuel generalizing name with
  | zero => exact yields_error _
  | succ fuel ih =>
      unfold agentsOfName
      split
      · rename_i agent
        exact yields_ok fun x only => List.mem_singleton.mp only ▸ agent_found.mp agent
      · split
        · exact yields_error _
        · refine yields_bind (yields_map_m fun m _ => ih m) fun found all => yields_ok fun x listed => ?_
          obtain ⟨part, member, inside⟩ := List.mem_flatten.mp listed
          exact all part member x inside

theorem mem_sort_distinct {texts : List String} {x : String} : x ∈ sortDistinct texts ↔ x ∈ texts := by
  have kept : ∀ seen : List String, x ∈ texts.foldl (fun seen x => if seen.contains x then seen else x :: seen) seen ↔
      x ∈ seen ∨ x ∈ texts := by
    induction texts with
    | nil => simp
    | cons text rest ih =>
        intro seen
        rw [List.foldl_cons, ih, List.mem_cons]
        by_cases known : seen.contains text = true
        · have member : text ∈ seen := by simpa using known
          rw [if_pos known]
          constructor
          · exact fun either => either.imp id .inr
          · rintro (here | rfl | later)
            · exact .inl here
            · exact .inl member
            · exact .inr later
        · rw [if_neg known, List.mem_cons, or_comm (a := x = text), or_assoc]
  unfold sortDistinct
  rw [(List.mergeSort_perm _ _).mem_iff, kept]
  simp

def InOrder (names : List String) : Prop := names.Nodup ∧ names.Pairwise (· ≤ ·)

theorem sort_distinct_in_order (texts : List String) : InOrder (sortDistinct texts) := by
  have distinct : ∀ seen : List String, seen.Nodup → (texts.foldl (fun seen x => if seen.contains x then seen else x :: seen) seen).Nodup := by
    induction texts with
    | nil => exact fun seen nodup => nodup
    | cons text rest ih =>
        intro seen nodup
        rw [List.foldl_cons]
        refine ih _ ?_
        split
        · exact nodup
        · rename_i new
          exact List.nodup_cons.mpr ⟨by simpa using new, nodup⟩
  have pairs := @List.pairwise_mergeSort String (fun x y => decide (x ≤ y))
    (fun x y z first second => decide_eq_true (String.le_trans (of_decide_eq_true first) (of_decide_eq_true second)))
    (fun x y => by simpa using String.le_total x y) (texts.foldl (fun seen x => if seen.contains x then seen else x :: seen) [])
  exact ⟨(List.mergeSort_perm _ _).nodup_iff.mpr (distinct [] List.nodup_nil), pairs.imp of_decide_eq_true⟩

theorem mem_team_of {names : List String} {t : Team} (found : sys.teamOf names = .ok t) {name : String}
    (agent : name ∈ sys.agents.map (·.name)) (listed : name ∈ names) : name ∈ t.names := by
  obtain ⟨sorted, agents, known⟩ := ok_of_bind found
  obtain ⟨parts, each, same⟩ := ok_of_bind agents
  cases same
  rw [(team_spec known).2, mem_sort_distinct]
  obtain ⟨part, inside, here⟩ := ok_of_map_m each name listed
  obtain rfl := Except.ok.inj (here.symm.trans (agents_of_agent agent _))
  exact List.mem_flatten.mpr ⟨_, inside, List.mem_singleton_self name⟩

theorem team_found {names : List String} (known : ∀ name ∈ names, name ∈ sys.agents.map (·.name)) : ∃ t, sys.team names = .ok t := by
  have each : ∀ name ∈ names, ∃ a, (sys.agent? name).elim (.error (.unknownAgent name)) .ok = (.ok a : Except Error Agent) := by
    intro name listed
    obtain ⟨a, found⟩ := Option.isSome_iff_exists.mp (agent_found.mpr (known name listed))
    exact ⟨a, by rw [found]; rfl⟩
  obtain ⟨members, all⟩ := exists_map_m each
  exact ⟨⟨members⟩, bind_ok all rfl⟩

theorem agents_of_name_error (fuel : Nat) {name : String} {e : Error} (failed : sys.agentsOfName fuel name = .error e) :
    ∃ unknown, e = .unknownAgent unknown := by
  induction fuel generalizing name with
  | zero => exact ⟨name, (Except.error.inj failed).symm⟩
  | succ fuel ih =>
      unfold agentsOfName at failed
      split at failed
      · cases failed
      · split at failed
        · exact ⟨name, (Except.error.inj failed).symm⟩
        · obtain each | ⟨_, _, ⟨⟩⟩ := error_of_bind failed
          obtain ⟨m, _, inner⟩ := error_of_map_m each
          exact ih inner

theorem team_of_error {names : List String} {e : Error} (failed : sys.teamOf names = .error e) : ∃ unknown, e = .unknownAgent unknown := by
  obtain listed | ⟨sorted, _, found⟩ := error_of_bind failed
  · obtain each | ⟨_, _, ⟨⟩⟩ := error_of_bind listed
    obtain ⟨name, _, inner⟩ := error_of_map_m each
    exact agents_of_name_error _ inner
  · obtain each | ⟨_, _, ⟨⟩⟩ := error_of_bind found
    obtain ⟨name, _, inner⟩ := error_of_map_m each
    cases known : sys.agent? name with
    | none => exact ⟨name, by simpa [known] using inner.symm⟩
    | some a => simp [known] at inner

theorem team_of_iff (built : d.build = .ok sys) (names : List String) :
    (∃ t, sys.teamOf names = .ok t) ↔ ∀ name ∈ names, name ∈ d.agents.map (·.name) ++ d.groups.map (·.1) := by
  obtain ⟨named, agents, groups⟩ := d.build_named sys built
  have same : (sys.agents.map (·.name) ++ sys.groups.map (·.name)).Perm (d.agents.map (·.name) ++ d.groups.map (·.1)) := by
    rw [agents]
    have keys := groups.map (·.1)
    rw [List.map_map] at keys
    exact keys.append_left _
  constructor
  · rintro ⟨t, found⟩ name listed
    exact same.mem_iff.mp (team_of_named names t found name listed)
  · intro declared
    obtain ⟨parts, all⟩ := exists_map_m fun name listed => agents_of_declared named agents groups (declared name listed)
    have listed : ∀ x ∈ sortDistinct parts.flatten, x ∈ sys.agents.map (·.name) := by
      intro x member
      obtain ⟨part, inside, here⟩ := List.mem_flatten.mp (mem_sort_distinct.mp member)
      exact yields_map_m (fun name _ => agents_of_name_listed _ name) parts all part inside x here
    obtain ⟨t, found⟩ := team_found listed
    exact ⟨t, bind_ok (bind_ok all rfl) found⟩

end System

end Coalition
