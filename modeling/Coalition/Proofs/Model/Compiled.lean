import Coalition.Proofs.Model.Mentions
import Coalition.Proofs.Model.Names
import Coalition.Proofs.Model.Parsing

-- Named expressions are compiled each after those it mentions, so they mean what their texts say in the built system as well.

set_option autoImplicit false

namespace Coalition

namespace System

variable {names : Expression.Names} {defines : List (String × Region)} {scope : Expression.Scope} {text : String}

theorem compile_ok {r : Region} :
    compile names defines scope text = .ok r ↔ ∃ e, Expression.parse names scope text = .ok e ∧ r = e.region defines := by
  unfold compile
  cases Expression.parse names scope text with
  | error problem => simp
  | ok e => simp [eq_comm]

end System

namespace Description

-- No name is a word with a meaning of its own, and no variable is named like a value.
structure Plain (d : Description) : Prop where
  vars : ∀ x ∈ d.vars ++ d.inputs, x.name ∉ Expression.reserved
  defines : ∀ define ∈ d.defines, define.1 ∉ Expression.reserved
  values : ∀ x ∈ d.vars ++ d.inputs, ∀ y ∈ d.vars ++ d.inputs, x.name ∉ y.values

theorem Named.defines {d : Description} (named : d.Named) : (d.defines.map (·.1)).Nodup := by
  have distinct := named.distinct
  simp only [declared, List.nodup_append'] at distinct
  exact distinct.1.1.2.1

-- Named expressions, each compiled from its text after those it mentions.
inductive Resolved (d : Description) (vars : List Variable) : List (String × Region) → Prop where
  | none : Resolved d vars []
  | more {ready : List (String × Region)} {name : String} {e : Expression} (before : Resolved d vars ready)
      (fresh : name ∉ ready.map (·.1))
      (read : Expression.parse ⟨vars, d.defines.map (·.1), ready.map (·.1)⟩ .state ((d.defines.lookup name).getD "") = .ok e) :
      Resolved d vars ((name, e.region ready) :: ready)

theorem text_of_read {d : Description} {names : Expression.Names} {scope : Expression.Scope} {name : String} {e : Expression}
    (read : Expression.parse names scope ((d.defines.lookup name).getD "") = .ok e) :
    ∃ text, (name, text) ∈ d.defines ∧ (d.defines.lookup name).getD "" = text := by
  cases found : d.defines.lookup name with
  | none =>
      rw [found] at read
      cases read
  | some text =>
      obtain ⟨before, after, listed, _⟩ := List.lookup_eq_some_iff.mp found
      exact ⟨text, by simp [listed], rfl⟩

theorem Resolved.listed {d : Description} {vars : List Variable} {ready : List (String × Region)} (resolved : d.Resolved vars ready) :
    ∀ name ∈ ready.map (·.1), ∃ define ∈ d.defines, define.1 = name := by
  induction resolved with
  | none => exact fun _ listed => absurd listed List.not_mem_nil
  | more before fresh read ih =>
      obtain ⟨text, defined, _⟩ := text_of_read read
      exact List.forall_mem_cons.mpr ⟨⟨_, defined, rfl⟩, ih⟩

theorem resolve_define_resolved {d : Description} {vars : List Variable} (fuel : Nat) (above : List String)
    {ready : List (String × Region)} (name : String) (before : d.Resolved vars ready) :
    Yields (d.resolveDefine vars fuel above ready name) fun after =>
      d.Resolved vars after ∧ name ∈ after.map (·.1) ∧ ready.map (·.1) ⊆ after.map (·.1) := by
  induction fuel generalizing above ready name with
  | zero => exact yields_error _
  | succ fuel ih =>
      unfold resolveDefine
      split
      · rename_i known
        obtain ⟨r, found⟩ := Option.isSome_iff_exists.mp known
        obtain ⟨first, later, listed, _⟩ := List.lookup_eq_some_iff.mp found
        exact yields_ok ⟨before, by simp [listed], List.Subset.refl _⟩
      · rename_i unknown
        split
        · exact yields_error _
        · dsimp only
          split
          · rename_i region compiled
            obtain ⟨e, read, rfl⟩ := System.compile_ok.mp compiled
            have fresh : name ∉ ready.map (·.1) := by
              rw [Bool.not_eq_true, Option.isSome_eq_false_iff, Option.isNone_iff_eq_none, List.lookup_eq_none_iff] at unknown
              intro listed
              obtain ⟨entry, member, rfl⟩ := List.mem_map.mp listed
              simpa using unknown entry member
            exact yields_ok ⟨.more before fresh read, List.mem_cons_self, List.subset_cons_self _ _⟩
          · rename_i other _
            split
            · rename_i more resolved
              obtain ⟨middle, _, kept⟩ := ih _ other before _ resolved
              intro after done
              obtain ⟨last, listed, keptToo⟩ := ih _ name middle after done
              exact ⟨last, listed, List.Subset.trans kept keptToo⟩
            · exact yields_error _
          · exact yields_error _

def resolveIn (d : Description) (vars : List Variable) (order : List (String × String)) (ready : List (String × Region)) :
    Except Error (List (String × Region)) :=
  order.foldlM (fun ready define => d.resolveDefine vars (2 * d.defines.length + 2) [] ready define.1) ready

theorem resolve_in_resolved {d : Description} {vars : List Variable} (order : List (String × String)) {ready : List (String × Region)}
    (before : d.Resolved vars ready) : Yields (d.resolveIn vars order ready) fun after =>
      d.Resolved vars after ∧ (∀ define ∈ order, define.1 ∈ after.map (·.1)) ∧ ready.map (·.1) ⊆ after.map (·.1) := by
  induction order generalizing ready with
  | nil => exact yields_ok ⟨before, by simp, List.Subset.refl _⟩
  | cons define rest ih =>
      rw [resolveIn, List.foldlM_cons]
      refine yields_bind (resolve_define_resolved _ [] define.1 before) fun next found => ?_
      obtain ⟨middle, listed, kept⟩ := found
      intro after done
      obtain ⟨last, others, keptToo⟩ := ih middle after done
      exact ⟨last, List.forall_mem_cons.mpr ⟨keptToo listed, others⟩, List.Subset.trans kept keptToo⟩

theorem resolve_defines_resolved (d : Description) (vars : List Variable) : Yields (d.resolveDefines vars) fun after =>
    d.Resolved vars after ∧ ∀ define ∈ d.defines, define.1 ∈ after.map (·.1) := by
  intro after done
  obtain ⟨resolved, each, _⟩ := resolve_in_resolved d.defines .none after done
  exact ⟨resolved, each⟩

theorem conjoin_spec (compile : String → Except Error Region) (part : String) (texts : List String) :
    Yields (conjoin compile part texts) fun r => ∀ ρ, ρ ∈ r.members ↔ ∀ text ∈ texts, ∃ s, compile text = .ok s ∧ ρ ∈ s.members := by
  suffices all : Yields (conjoin compile part texts) fun r =>
      ∀ ρ, ρ ∈ r.members ↔ ρ ∈ Region.univ.members ∧ ∀ text ∈ texts, ∃ s, compile text = .ok s ∧ ρ ∈ s.members by simpa using all
  unfold conjoin
  generalize Region.univ = start
  induction texts generalizing start with
  | nil => exact yields_ok (by simp)
  | cons text rest ih =>
      rw [List.foldlM_cons]
      cases compiled : compile text with
      | error e => exact nofun
      | ok s =>
          intro r done ρ
          rw [ih (start.inter s) r done ρ, Region.members_inter]
          simp [compiled, and_assoc]

theorem mem_protocols {agents : List Agent} {start : Region} {ρ : Valuation} :
    ρ ∈ (agents.foldl (fun r a => r.inter a.protocol) start).members ↔ ρ ∈ start.members ∧ ∀ a ∈ agents, ρ ∈ a.protocol.members := by
  induction agents generalizing start with
  | nil => simp
  | cons a rest ih => simp [ih, and_assoc]

theorem protocols_spec (frame : Frame) (compile : String → Except Error Region) (agents : List AgentDescription) :
    Yields (agents.mapM (buildAgent frame compile)) fun built => ∀ ρ, (∀ a ∈ built, ρ ∈ a.protocol.members) ↔
      ∀ a ∈ agents, ∀ text ∈ a.protocol, ∃ s, compile text = .ok s ∧ ρ ∈ s.members := by
  induction agents with
  | nil => exact yields_ok (by simp)
  | cons a rest ih =>
      rw [List.mapM_cons]
      refine yields_bind (P := fun built : Agent => ∀ ρ, ρ ∈ built.protocol.members ↔
        ∀ text ∈ a.protocol, ∃ s, compile text = .ok s ∧ ρ ∈ s.members) ?_ fun first spec => ?_
      · exact yields_bind (conjoin_spec compile _ _) fun protocol spec => yields_ok spec
      · refine yields_bind ih fun others specs => yields_ok fun ρ => ?_
        rw [List.forall_mem_cons, List.forall_mem_cons, spec, specs]

theorem lay_states_sized {first : Nat} {ds : List Domain} (distinct : ∀ x ∈ ds, x.values.Nodup) {v : Variable}
    (member : v ∈ layStates first ds) : v.Sized ∧ ∃ x ∈ ds, x.name = v.name ∧ x.values = v.domain := by
  induction ds generalizing first with
  | nil => simp [layStates] at member
  | cons d rest ih =>
      obtain ⟨here, others⟩ := List.forall_mem_cons.mp distinct
      unfold layStates at member
      obtain rfl | later := List.mem_cons.mp member
      · exact ⟨⟨by simp, fun _ => by simp, here⟩, d, List.mem_cons_self, rfl, rfl⟩
      · obtain ⟨sized, x, listed, same⟩ := ih others later
        exact ⟨sized, x, List.mem_cons_of_mem _ listed, same⟩

theorem lay_inputs_sized {first : Nat} {ds : List Domain} (distinct : ∀ x ∈ ds, x.values.Nodup) {v : Variable}
    (member : v ∈ layInputs first ds) : v.Sized ∧ ∃ x ∈ ds, x.name = v.name ∧ x.values = v.domain := by
  induction ds generalizing first with
  | nil => simp [layInputs] at member
  | cons d rest ih =>
      obtain ⟨here, others⟩ := List.forall_mem_cons.mp distinct
      unfold layInputs at member
      obtain rfl | later := List.mem_cons.mp member
      · exact ⟨⟨by simp, fun state => absurd rfl state, here⟩, d, List.mem_cons_self, rfl, rfl⟩
      · obtain ⟨sized, x, listed, same⟩ := ih others later
        exact ⟨sized, x, List.mem_cons_of_mem _ listed, same⟩

end Description

namespace System

def Meets (sys : System) (scope : Expression.Scope) (texts : List String) (ρ : Valuation) : Prop :=
  ∀ text ∈ texts, ∃ r, compile sys.names sys.defines scope text = .ok r ∧ ρ ∈ r.members

-- What building a system makes of the expressions of its description.
structure Compiled (sys : System) (d : Description) : Prop where
  named : d.Named
  stateVars : sys.stateVars = Description.layStates 0 d.vars
  inputVars : sys.inputVars = Description.layInputs (2 * Description.bitCount d.vars) d.inputs
  names : sys.names = ⟨sys.toFrame.vars, d.defines.map (·.1), sys.defines.map (·.1)⟩
  resolved : d.Resolved sys.toFrame.vars sys.defines
  defined : ∀ define ∈ d.defines, define.1 ∈ sys.defines.map (·.1)
  trans : ∀ ρ, ρ ∈ sys.trans.members ↔ (sys.Meets .transition d.trans ρ ∧ ∀ a ∈ d.agents, sys.Meets .move a.protocol ρ) ∧
    (ρ ∈ sys.statesMask.members ∧ ρ ∈ sys.inputsMask.members) ∧ ρ ∈ sys.nextMask.members

end System

theorem Description.build_compiled (d : Description) : Yields d.build fun sys => sys.Compiled d := by
  intro sys done
  have built := build_builds done
  obtain ⟨resolved, defined⟩ := resolve_defines_resolved d _ _ built.resolved
  obtain ⟨r, moving, same⟩ := built.moving
  refine ⟨validate_named d _ built.valid, by rw [built.frame]; rfl, by rw [built.frame]; rfl, built.names, resolved, defined, fun ρ => ?_⟩
  have protocols := protocols_spec _ _ _ _ built.acting ρ
  have spec := conjoin_spec _ _ _ r moving ρ
  rw [same]
  simp only [Region.members_inter, Set.mem_inter_iff, mem_protocols, spec, protocols, and_assoc]
  rfl

namespace System

-- The text is an expression of the scope that is true of some values.
def Asserts (sys : System) (scope : Expression.Scope) (meaning : String → Values → Prop) (values : Values) (text : String) : Prop :=
  ∃ e, Expression.parse sys.names scope text = .ok e ∧ e.Holds meaning values

-- Every named expression means what its text says.
def Interprets (sys : System) (d : Description) (meaning : String → Values → Prop) : Prop :=
  ∀ define ∈ d.defines, ∀ values : Values, values.Fit sys.toFrame.vars → (meaning define.1 values ↔ sys.Asserts .state meaning values define.2)

def Agrees (vars : List Variable) (ready : List (String × Region)) (meaning : String → Values → Prop) : Prop :=
  ∀ name ∈ ready.map (·.1), ∀ (values : Values) (ρ : Valuation), values.Encoded vars ρ →
    (ρ ∈ ((ready.lookup name).getD .empty).members ↔ meaning name values)

namespace Compiled

variable {sys : System} {d : Description} (compiled : sys.Compiled d)

include compiled

theorem sized : ∀ v ∈ sys.toFrame.vars, v.Sized ∧ ∃ x ∈ d.vars ++ d.inputs, x.name = v.name ∧ x.values = v.domain := by
  have distinct := fun x listed => (compiled.named.domains x listed).2
  intro v member
  obtain state | input := List.mem_append.mp member
  · rw [compiled.stateVars] at state
    obtain ⟨sized, x, listed, same⟩ := Description.lay_states_sized (fun x listed => distinct x (List.mem_append_left _ listed)) state
    exact ⟨sized, x, List.mem_append_left _ listed, same⟩
  · rw [compiled.inputVars] at input
    obtain ⟨sized, x, listed, same⟩ := Description.lay_inputs_sized (fun x listed => distinct x (List.mem_append_right _ listed)) input
    exact ⟨sized, x, List.mem_append_right _ listed, same⟩

variable {meaning : String → Values → Prop} {values : Values} {ρ : Valuation} (encoded : values.Encoded sys.toFrame.vars ρ)

include encoded

theorem mem_ready {ready : List (String × Region)} (fewer : ready.map (·.1) ⊆ sys.defines.map (·.1))
    (agrees : Agrees sys.toFrame.vars ready meaning) {scope : Expression.Scope} {text : String} {e : Expression}
    (read : Expression.parse ⟨sys.toFrame.vars, d.defines.map (·.1), ready.map (·.1)⟩ scope text = .ok e) :
    ρ ∈ (e.region ready).members ↔ sys.Asserts scope meaning values text := by
  have typed := Expression.parse_typed _ _ _ e read
  have within : Expression.Names.Within ⟨sys.toFrame.vars, d.defines.map (·.1), ready.map (·.1)⟩ sys.names := by
    rw [compiled.names]
    refine ⟨rfl, fun _ => Iff.rfl, fewer, fun name listed => ?_⟩
    obtain ⟨define, defined, rfl⟩ := compiled.resolved.listed name listed
    exact List.mem_map_of_mem defined
  have parsed := Expression.parse_within within read
  rw [Expression.mem_region (fun v member => (compiled.sized v member).1) encoded (fun name listed => agrees name listed values ρ encoded) typed]
  constructor
  · exact fun holds => ⟨e, parsed, holds⟩
  · rintro ⟨f, parsedToo, holds⟩
    obtain rfl := Except.ok.inj (parsed.symm.trans parsedToo)
    exact holds

theorem mem_compile (agrees : Agrees sys.toFrame.vars sys.defines meaning) {scope : Expression.Scope} {text : String} :
    (∃ r, compile sys.names sys.defines scope text = .ok r ∧ ρ ∈ r.members) ↔ sys.Asserts scope meaning values text := by
  constructor
  · rintro ⟨r, done, member⟩
    obtain ⟨e, parsed, rfl⟩ := compile_ok.mp done
    rw [compiled.names] at parsed
    exact (compiled.mem_ready encoded (List.Subset.refl _) agrees parsed).mp member
  · rintro ⟨e, parsed, holds⟩
    refine ⟨e.region sys.defines, compile_ok.mpr ⟨e, parsed, rfl⟩, ?_⟩
    have parsedToo := parsed
    rw [compiled.names] at parsedToo
    exact (compiled.mem_ready encoded (List.Subset.refl _) agrees parsedToo).mpr ⟨e, parsed, holds⟩

omit encoded

theorem agrees (interprets : sys.Interprets d meaning) : Agrees sys.toFrame.vars sys.defines meaning := by
  suffices all : ∀ ready, d.Resolved sys.toFrame.vars ready → ready.map (·.1) ⊆ sys.defines.map (·.1) →
      Agrees sys.toFrame.vars ready meaning from all _ compiled.resolved (List.Subset.refl _)
  intro ready resolved
  -- in the order of compilation, as a text mentions only names that were compiled before
  induction resolved with
  | none => exact fun _ name listed => absurd listed List.not_mem_nil
  | @more ready name e before fresh read ih =>
      intro fewer other listed values ρ encoded
      have others := List.Subset.trans (List.subset_cons_self _ _) fewer
      obtain ⟨text, defined, same⟩ := Description.text_of_read read
      by_cases here : other = name
      · rw [here, List.lookup_cons_self, Option.getD_some, compiled.mem_ready encoded others (ih others) read, same]
        exact (interprets _ defined values encoded.fit).symm
      · rw [List.lookup_cons, beq_eq_false_iff_ne.mpr here]
        exact ih others other ((List.mem_cons.mp listed).resolve_left here) values ρ encoded

theorem defined_asserts (agrees : Agrees sys.toFrame.vars sys.defines meaning) {ready : List (String × Region)}
    (resolved : d.Resolved sys.toFrame.vars ready) (fewer : ready.map (·.1) ⊆ sys.defines.map (·.1))
    (final : ∀ name ∈ ready.map (·.1), ready.lookup name = sys.defines.lookup name) {name : String} (listed : name ∈ ready.map (·.1))
    (encoded : values.Encoded sys.toFrame.vars ρ) :
    meaning name values ↔ sys.Asserts .state meaning values ((d.defines.lookup name).getD "") := by
  induction resolved with
  | none => exact absurd listed List.not_mem_nil
  | @more ready last e before fresh read ih =>
      have others := List.Subset.trans (List.subset_cons_self _ _) fewer
      have finalToo : ∀ name ∈ ready.map (·.1), ready.lookup name = sys.defines.lookup name := by
        intro earlier member
        have different : earlier ≠ last := fun same => fresh (same ▸ member)
        rw [← final earlier (List.mem_cons_of_mem _ member), List.lookup_cons, beq_eq_false_iff_ne.mpr different]
      obtain rfl | earlier := List.mem_cons.mp listed
      · have agreesToo : Agrees sys.toFrame.vars ready meaning := by
          intro name member values ρ encoded
          rw [finalToo name member]
          exact agrees name (others member) values ρ encoded
        rw [← agrees _ (fewer listed) values ρ encoded, ← final _ listed, List.lookup_cons_self, Option.getD_some]
        exact compiled.mem_ready encoded others agreesToo read
      · exact ih others finalToo earlier

theorem exists_interpretation (wf : sys.WellFormed) : ∃ meaning, sys.Interprets d meaning := by
  let meaning (name : String) (values : Values) : Prop :=
    ∃ ρ, values.Encoded sys.toFrame.vars ρ ∧ ρ ∈ ((sys.defines.lookup name).getD .empty).members
  have sized := fun v member => (compiled.sized v member).1
  have agrees : Agrees sys.toFrame.vars sys.defines meaning := by
    -- codes of the same values differ only on bits that no named expression reads
    intro name listed values ρ encoded
    refine ⟨fun member => ⟨ρ, encoded, member⟩, ?_⟩
    rintro ⟨σ, other, member⟩
    have reads : ((sys.defines.lookup name).getD .empty).Reads sys.stateBit := by
      cases found : sys.defines.lookup name with
      | none => exact Region.reads_empty _
      | some r =>
          obtain ⟨before, after, whole, _⟩ := List.lookup_eq_some_iff.mp found
          exact wf.defines (name, r) (by simp [whole])
    refine reads.mem member fun b bit => ?_
    obtain ⟨v, state, inside⟩ := List.mem_flatMap.mp bit
    exact Values.Encoded.same sized other encoded (wf.laid.state_of state false) inside
  refine ⟨meaning, fun define listed values fit => ?_⟩
  obtain ⟨ρ, encoded⟩ := wf.laid.exists_encoding fit
  have asserted := compiled.defined_asserts agrees compiled.resolved (List.Subset.refl _) (fun _ _ => rfl) (compiled.defined define listed) encoded
  have text : d.defines.lookup define.1 = some define.2 := lookup_of_listed compiled.named.defines listed
  rwa [text] at asserted

omit compiled in
theorem plain_names (compiled : sys.Compiled d) (wf : sys.WellFormed) (plain : d.Plain) : sys.names.Plain := by
  have nodup := compiled.named.distinct
  rw [compiled.names]
  refine ⟨wf.distinct, fun v member => (compiled.sized v member).1.nodup, fun v member => ?_, fun v member w other => ?_, fun name listed => ?_⟩
  · obtain ⟨_, x, declared, same, _⟩ := compiled.sized v member
    exact same ▸ plain.vars x declared
  · obtain ⟨_, x, declared, same, _⟩ := compiled.sized v member
    obtain ⟨_, y, declaredToo, _, values⟩ := compiled.sized w other
    rw [← same, ← values]
    exact plain.values x declared y declaredToo
  · obtain ⟨define, defined, rfl⟩ := compiled.resolved.listed name listed
    refine ⟨plain.defines define defined, fun v member same => ?_⟩
    obtain ⟨_, x, declared, sameToo, _⟩ := compiled.sized v member
    simp only [Description.declared, List.nodup_append'] at nodup
    have here : x.name ∈ (d.vars ++ d.inputs).map (·.name) := List.mem_map_of_mem declared
    exact nodup.1.1.2.2 here (sameToo.trans same ▸ List.mem_map_of_mem defined)

end Compiled

/-- In every scope the texts of a well typed expression compile, to a region that holds the codes of those values of which it is true; and
the transitions are the codes of the values of which the texts of all constraints are true. Named expressions mean what their texts say. -/
theorem expressions_compile {sys : System} {d : Description} (built : d.build = .ok sys) (plain : d.Plain) :
    (∃ meaning, sys.Interprets d meaning) ∧ (∀ values : Values, values.Fit sys.toFrame.vars → ∃ ρ, values.Encoded sys.toFrame.vars ρ) ∧
    ∀ meaning, sys.Interprets d meaning →
      (∀ (scope : Expression.Scope) (e : Expression) (text : String),
        e.Typed (scope.Allows sys.toFrame.vars) (· ∈ d.defines.map (·.1)) → e.HasText text →
        (∀ values, sys.Asserts scope meaning values text ↔ e.Holds meaning values) ∧
        ∃ r, compile sys.names sys.defines scope text = .ok r ∧
          ∀ values ρ, values.Encoded sys.toFrame.vars ρ → (ρ ∈ r.members ↔ e.Holds meaning values)) ∧
      ∀ ρ, ρ ∈ sys.trans.members ↔ ∃ values, values.Encoded sys.toFrame.vars ρ ∧
        (∀ text ∈ d.trans, sys.Asserts .transition meaning values text) ∧
        ∀ a ∈ d.agents, ∀ text ∈ a.protocol, sys.Asserts .move meaning values text := by
  have wf := d.build_well_formed sys built
  have compiled := d.build_compiled sys built
  have plainNames := compiled.plain_names wf plain
  refine ⟨compiled.exists_interpretation wf, fun values fit => wf.laid.exists_encoding fit, fun meaning interprets => ?_⟩
  have agrees := compiled.agrees interprets
  refine ⟨fun scope e text typed written => ?_, fun ρ => ?_⟩
  · have read : Expression.Read sys.names scope e := by
      rw [compiled.names]
      exact typed.mono fun name listed => by
        obtain ⟨define, defined, rfl⟩ := List.mem_map.mp listed
        exact compiled.defined define defined
    obtain ⟨f, like, parsed⟩ := Expression.parse_text plainNames read written
    have asserted : ∀ values, sys.Asserts scope meaning values text ↔ e.Holds meaning values := by
      intro values
      rw [← like meaning values]
      exact ⟨fun ⟨g, other, holds⟩ => Except.ok.inj (parsed.symm.trans other) ▸ holds, fun holds => ⟨f, parsed, holds⟩⟩
    have done : compile sys.names sys.defines scope text = .ok (f.region sys.defines) := compile_ok.mpr ⟨f, parsed, rfl⟩
    refine ⟨asserted, _, done, fun values ρ encoded => ?_⟩
    rw [← asserted, ← compiled.mem_compile encoded agrees, done]
    simp
  · rw [compiled.trans, wf.laid.mem_masks wf.distinct]
    constructor
    · rintro ⟨⟨trans, protocols⟩, values, encoded⟩
      exact ⟨values, encoded, fun text listed => (compiled.mem_compile encoded agrees).mp (trans text listed),
        fun a agent text listed => (compiled.mem_compile encoded agrees).mp (protocols a agent text listed)⟩
    · rintro ⟨values, encoded, trans, protocols⟩
      exact ⟨⟨fun text listed => (compiled.mem_compile encoded agrees).mpr (trans text listed),
        fun a agent text listed => (compiled.mem_compile encoded agrees).mpr (protocols a agent text listed)⟩, values, encoded⟩

def dimmer : Description where
  name := "dimmer"
  vars := [⟨"level", ["off", "low", "high"]⟩]
  inputs := [⟨"up", ["false", "true"]⟩]
  defines := [("dark", "level = off")]
  trans := ["up & dark -> next(level) != off"]
  agents := [{ name := "hand", observes := ["level"], actions := ["up"] }]

theorem dimmer_builds : ∃ sys, dimmer.build = .ok sys := ok_of_is_ok (by decide +kernel)

theorem expressions_compile_dimmer : ∃ (sys : System) (meaning : String → Values → Prop) (e : Expression) (r : Region) (values : Values)
    (ρ : Valuation), dimmer.build = .ok sys ∧ dimmer.Plain ∧ sys.Interprets dimmer meaning ∧
      e.Typed (Expression.Scope.transition.Allows sys.toFrame.vars) (· ∈ dimmer.defines.map (·.1)) ∧
      e.HasText "up & dark -> next(level) != \"off\"" ∧
      compile sys.names sys.defines .transition "up & dark -> next(level) != \"off\"" = .ok r ∧
      values.Encoded sys.toFrame.vars ρ ∧ ρ ∈ r.members := by
  obtain ⟨sys, built⟩ := dimmer_builds
  let level : Variable := ⟨"level", .state, ["off", "low", "high"], [0, 2], [1, 3]⟩
  let up : Variable := ⟨"up", .input, ["false", "true"], [4], []⟩
  have vars : sys.toFrame.vars = [level, up] := by
    have compiled := dimmer.build_compiled sys built
    rw [Frame.vars, compiled.stateVars, compiled.inputVars]
    rfl
  have plain : dimmer.Plain := ⟨by decide, by decide, by decide⟩
  let e : Expression := .implies (.and (.isValue ⟨up, false⟩ 1) (.named "dark")) (.not (.isValue ⟨level, true⟩ 0))
  have typed : e.Typed (Expression.Scope.transition.Allows sys.toFrame.vars) (· ∈ dimmer.defines.map (·.1)) := by
    simp only [e, Expression.Typed, Expression.Scope.Allows, vars]
    decide
  have product : Expression.Written .and (.and (.isValue ⟨up, false⟩ 1) (.named "dark")) _ :=
    .and (.product (.boolean rfl)) (.product (.named "dark"))
  have other : Expression.Written .unary (.not (.isValue ⟨level, true⟩ 0)) _ := .differs (.value (.quotation rfl))
  have written : e.HasText "up & dark -> next(level) != \"off\"" :=
    ⟨_, .equivalence (.implies (.sum product) (.consequence (.sum (.product other)))), Expression.spaced_of_is_spaced (by decide)⟩
  obtain ⟨⟨meaning, interprets⟩, encodings, means⟩ := expressions_compile built plain
  obtain ⟨_, r, done, codes⟩ := (means meaning interprets).1 .transition e _ typed written
  let values : Values := ⟨fun name => if name = "up" then "true" else "off", fun _ => "high"⟩
  have fit : values.Fit sys.toFrame.vars := by
    rw [vars]
    rintro ⟨v, next⟩ ⟨known, state⟩
    obtain rfl | rfl : v = level ∨ v = up := by simpa using known
    · cases next <;> decide
    · cases next with
      | false => decide
      | true => exact absurd rfl (state rfl)
  obtain ⟨ρ, encoded⟩ := encodings values fit
  refine ⟨sys, meaning, e, r, values, ρ, built, plain, interprets, typed, written, done, encoded, (codes values ρ encoded).mpr ?_⟩
  exact fun _ off => absurd (Option.some.inj off) (by decide)

end System

end Coalition
