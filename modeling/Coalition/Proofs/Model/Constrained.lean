import Coalition.Proofs.Model.Build
import Coalition.Proofs.Strategy.Constraints

-- Descriptions that differ in their fairness constraints.

set_option autoImplicit false

namespace Coalition

namespace Description

variable (d : Description) (texts : List String)

def constrained : Description := { d with fairness := texts }

theorem check_agents_constrained (names : List (String × Declared)) (owners : List (String × String)) (agents : List AgentDescription) :
    (d.constrained texts).checkAgents names owners agents = d.checkAgents names owners agents := by
  induction agents generalizing names owners with
  | nil => rfl
  | cons a rest ih =>
      unfold checkAgents
      simp only [ih]
      rfl

theorem validate_constrained : (d.constrained texts).validate = d.validate := by
  unfold validate
  simp only [check_agents_constrained]
  rfl

theorem resolve_define_constrained (vars : List Variable) (fuel : Nat) (above : List String) (ready : List (String × Region)) (name : String) :
    (d.constrained texts).resolveDefine vars fuel above ready name = d.resolveDefine vars fuel above ready name := by
  induction fuel generalizing above ready name with
  | zero => rfl
  | succ fuel ih =>
      unfold resolveDefine
      simp only [ih]
      rfl

theorem resolve_defines_constrained (vars : List Variable) : (d.constrained texts).resolveDefines vars = d.resolveDefines vars := by
  unfold resolveDefines
  simp only [resolve_define_constrained]
  rfl

theorem map_numbered {f : String × Nat → Except Error Region} {g : String → Except Error Region}
    (same : ∀ text i r, f (text, i) = .ok r ↔ g text = .ok r) (n : Nat) (regions : List Region) :
    (texts.zipIdx n).mapM f = .ok regions ↔ List.Forall₂ (fun text r => g text = .ok r) texts regions := by
  induction texts generalizing n regions with
  | nil =>
      rw [List.forall₂_nil_left_iff]
      exact ⟨fun done => (Except.ok.inj done).symm, fun none => none ▸ rfl⟩
  | cons text rest ih =>
      rw [List.zipIdx_cons, List.mapM_cons]
      constructor
      · intro done
        obtain ⟨r, first, done⟩ := ok_of_bind done
        obtain ⟨others, more, done⟩ := ok_of_bind done
        cases done
        exact .cons ((same text n r).mp first) ((ih _ _).mp more)
      · intro each
        cases each with
        | cons first more =>
            rw [(same text n _).mpr first, ok_bind, (ih _ _).mpr more]
            rfl

theorem map_renumbered {f : String × Nat → Except Error Region} {g : String → Except Error Region}
    (same : ∀ text i r, f (text, i) = .ok r ↔ g text = .ok r) {regions : List Region} (done : texts.zipIdx.mapM f = .ok regions) :
    List.Forall₂ (fun text r => g text = .ok r) texts regions ∧
      ∀ others found, List.Forall₂ (fun text r => g text = .ok r) others found → others.zipIdx.mapM f = .ok found :=
  ⟨(map_numbered texts same 0 regions).mp done, fun others found => (map_numbered others same 0 found).mpr⟩

variable {d texts} {sys : System}

-- The constraints of a system are the regions of their texts, and any other texts with regions may take their place.
theorem build_constrained (built : d.build = .ok sys) :
    List.Forall₂ (fun text region => sys.atom text = .ok region) d.fairness sys.fairness ∧
      ∀ regions, List.Forall₂ (fun text region => sys.atom text = .ok region) texts regions →
        (d.constrained texts).build = .ok (sys.under regions) := by
  unfold build at built
  obtain ⟨_, valid, built⟩ := ok_of_bind built
  obtain ⟨space, created, built⟩ := ok_of_bind built
  obtain ⟨defines, resolved, built⟩ := ok_of_bind built
  obtain ⟨init, initial, built⟩ := ok_of_bind built
  obtain ⟨agents, acting, built⟩ := ok_of_bind built
  obtain ⟨trans, moving, built⟩ := ok_of_bind built
  obtain ⟨fairness, constrains, built⟩ := ok_of_bind built
  cases built
  obtain ⟨own, others⟩ := @map_renumbered d.fairness _ (fun text => do return (← System.compile _ defines .state text).inter _)
    (fun text i r => by
      dsimp only
      cases System.compile _ defines .state text with
      | ok region => exact Iff.rfl
      | error e => exact iff_of_false (fun done => by cases done) fun done => by cases done) _ constrains
  refine ⟨own, fun regions compiled => ?_⟩
  unfold build
  rw [validate_constrained]
  refine bind_ok valid (bind_ok created (bind_ok ((resolve_defines_constrained d texts _).trans resolved) ?_))
  refine bind_ok initial (bind_ok acting (bind_ok moving ?_))
  exact bind_ok (others texts regions compiled) rfl

end Description

end Coalition
