import Coalition.Proofs.Evaluation.QuerySafety

-- An evaluation on all states that enumerates strategies fails exactly on formulas with an unknown name or an atom that is rejected; the
-- other ones fail on nothing else either, apart from encodings that do not fit in the reserve.

set_option autoImplicit false

namespace Coalition

namespace Formula

def atoms : Formula → List String
  | .constant _ => []
  | .atom text => [text]
  | .not body => body.atoms
  | .binary _ left right => left.atoms ++ right.atoms
  | .path _ _ body => body.atoms
  | .pathUntil _ _ left right => left.atoms ++ right.atoms
  | .agentKnows _ _ body => body.atoms
  | .groupKnows _ _ _ body => body.atoms
  | .strategic _ _ _ body => body.atoms
  | .strategicUntil _ _ _ left right => left.atoms ++ right.atoms

def actors : Formula → List (List String)
  | .constant _ => []
  | .atom _ => []
  | .not body => body.actors
  | .binary _ left right => left.actors ++ right.actors
  | .path _ _ body => body.actors
  | .pathUntil _ _ left right => left.actors ++ right.actors
  | .agentKnows _ agent body => [agent] :: body.actors
  | .groupKnows _ _ names body => names :: body.actors
  | .strategic _ names _ body => names :: body.actors
  | .strategicUntil _ names _ left right => names :: (left.actors ++ right.actors)

theorem every_listed {text : String → Prop} {names : List String → Prop} (f : Formula) :
    f.Every text names names ↔ (∀ a ∈ f.atoms, text a) ∧ ∀ n ∈ f.actors, names n := by
  induction f with
  | constant => simp [Every, atoms, actors]
  | atom => simp [Every, atoms, actors]
  | not body ih => exact ih
  | binary op left right leftIh rightIh =>
      simp only [Every, atoms, actors, leftIh, rightIh, List.forall_mem_append]
      tauto
  | path quantifier modality body ih => exact ih
  | pathUntil quantifier kind left right leftIh rightIh =>
      simp only [Every, atoms, actors, leftIh, rightIh, List.forall_mem_append]
      tauto
  | agentKnows certainty agent body ih =>
      simp only [Every, atoms, actors, ih, List.forall_mem_cons]
      tauto
  | groupKnows certainty sharing group body ih =>
      simp only [Every, atoms, actors, ih, List.forall_mem_cons]
      tauto
  | strategic ability group modality body ih =>
      simp only [Every, atoms, actors, ih, List.forall_mem_cons]
      tauto
  | strategicUntil ability group kind left right leftIh rightIh =>
      simp only [Every, atoms, actors, leftIh, rightIh, List.forall_mem_cons, List.forall_mem_append]
      tauto

-- A name in the formula is not declared as an agent or a group, or an atom is rejected.
def IllFormed (f : Formula) (d : Description) (sys : System) : Prop :=
  (∃ name ∈ f.actors.flatten, name ∉ d.agents.map (·.name) ++ d.groups.map (·.1)) ∨ ∃ text ∈ f.atoms, ∃ e, sys.atom text = .error e

-- An error of an atom of the formula, or of a name that is not declared.
def Causes (f : Formula) (d : Description) (sys : System) (e : Error) : Prop :=
  (∃ text ∈ f.atoms, sys.atom text = .error e) ∨
    (∃ name ∈ f.actors.flatten, name ∉ d.agents.map (·.name) ++ d.groups.map (·.1)) ∧ ∃ unknown, e = .unknownAgent unknown

theorem Causes.ill_formed {f : Formula} {d : Description} {sys : System} {e : Error} (causes : f.Causes d sys e) : f.IllFormed d sys := by
  obtain ⟨text, listed, rejected⟩ | ⟨undeclared, _⟩ := causes
  · exact .inr ⟨text, listed, e, rejected⟩
  · exact .inl undeclared

-- A list has room for whatever the coalitions of the formula do in states that look the same to them.
def Roomy (f : Formula) (sys : System) : Prop :=
  ∀ names ∈ f.coalitions, ∀ t, sys.teamOf names = .ok t → ∀ moves, sys.PlayedSet moves → Encoding.Fits sys t moves

theorem roomy_of_few {f : Formula} {sys : System} (few : ∀ names ∈ f.coalitions, ∀ t, sys.teamOf names = .ok t → t.actionBits.length ≤ 44) :
    f.Roomy sys := fun names coalition t found _ _ _ _ => Space.fits_of_length _ (few names coalition t found)

section

variable {d : Description} {sys : System} (built : d.build = .ok sys) (f : Formula)

include built

theorem faults_causes {blame : Error → Prop} (le : ∀ e, f.Causes d sys e → blame e) : f.Faults sys blame := by
  refine f.every_listed.mpr ⟨fun text listed e rejected => le e (.inl ⟨text, listed, rejected⟩), fun names listed e unknown => ?_⟩
  refine le e (.inr ⟨?_, System.team_of_error unknown⟩)
  by_contra declared
  push Not at declared
  obtain ⟨t, found⟩ := (System.team_of_iff built names).mpr fun name member =>
    declared name (List.mem_flatten.mpr ⟨names, listed, member⟩)
  rw [found] at unknown
  cases unknown

theorem resolves_iff : f.Resolves sys ↔ ¬ f.IllFormed d sys := by
  unfold Resolves
  rw [f.every_listed]
  constructor
  · rintro ⟨atoms, actors⟩ (⟨name, member, undeclared⟩ | ⟨text, listed, e, rejected⟩)
    · obtain ⟨names, listed, inside⟩ := List.mem_flatten.mp member
      exact undeclared ((System.team_of_iff built names).mp (actors names listed) name inside)
    · obtain ⟨r, found⟩ := atoms text listed
      rw [found] at rejected
      cases rejected
  · intro fine
    obtain ⟨declared, atoms⟩ := not_or.mp fine
    push Not at declared atoms
    refine ⟨fun text listed => ?_, fun names listed => (System.team_of_iff built names).mpr fun name member =>
      declared name (List.mem_flatten.mpr ⟨names, listed, member⟩)⟩
    cases found : sys.atom text with
    | ok r => exact ⟨r, rfl⟩
    | error e => exact absurd found (atoms text listed e)

end

end Formula

theorem System.atom_error {sys : System} {text : String} {e : Error} (rejected : sys.atom text = .error e) :
    ∃ subject problem, e = .expression subject problem := by
  obtain refused | ⟨_, _, ⟨⟩⟩ := error_of_bind rejected
  unfold System.compile at refused
  split at refused <;> cases refused
  exact ⟨_, _, rfl⟩

namespace Binary64

def Double : Binary64 → Prop
  | .finite _ mantissa _ => mantissa < 2 ^ 53
  | _ => True

theorem ratio_zero_less (exponent : Int) : (ratio 0 exponent).1 < (ratio 0 exponent).2 := by
  unfold ratio scaleRatio
  split
  · exact Nat.mul_pos Nat.one_pos (Nat.two_pow_pos _)
  · simp

theorem zero_fraction : zero.Fraction := ⟨by decide, ratio_zero_less minExponent⟩

end Binary64

theorem Options.threshold_normal {o : Options} (double : o.threshold.Double) :
    o.normalize.threshold.Fraction ∨ o.normalize.threshold = .nan := by
  unfold normalize
  dsimp only
  split
  · exact .inl Binary64.zero_fraction
  · rename_i positive
    split
    · exact .inl ⟨by decide, by decide⟩
    · rename_i below
      cases given : o.threshold with
      | nan => exact .inr rfl
      | infinite negative => cases negative <;> simp [given, Binary64.isNegative, Binary64.atLeastOne] at positive below
      | finite negative mantissa exponent =>
          rw [given] at double positive below
          refine .inl ⟨double, ?_⟩
          cases negative with
          | true => simpa [Binary64.isNegative] using positive
          | false => simpa [Binary64.atLeastOne] using below

theorem Variant.Enumerates.neither {v : Variant} (enumerates : v.Enumerates) :
    v ≠ .onRequest ∧ ¬ (v = .symbolic ∨ v = .symbolicFiltered) := by
  obtain rfl | rfl | rfl := enumerates <;> simp

namespace Evaluator

open Eval

variable {ev : Evaluator} {d : Description} {sys : System} {o : Options}

theorem create_options {stopped : Bool} (created : create sys o stopped = .ok ev) :
    ev.sys = sys ∧ ev.options = o.normalize ∧ ev.cancelled = stopped := by
  obtain ⟨options, checked, made⟩ := ok_of_bind created
  unfold Options.checked at checked
  dsimp only at checked
  split at checked <;> cases checked
  cases made
  exact ⟨rfl, rfl, rfl⟩

def Excuses (ev : Evaluator) (f : Formula) (d : Description) (e : Error) : Prop :=
  f.Causes d ev.sys e ∨
    (ev.options.variant = .onRequest ∧ ev.options.early = .threshold ∧ ev.options.threshold = .nan ∧ e = .noThreshold) ∨
    (ev.UsesCodes ∧ ∃ names ∈ f.coalitions, ∃ t, ev.sys.teamOf names = .ok t ∧ Encoding.Refuses ev.sys t e)

theorem Excuses.picked {f : Formula} {e : Error} (excuses : ev.Excuses f d e) : e.cause ≠ .space .emptyPick ∧ e ≠ .endless := by
  obtain (⟨_, _, rejected⟩ | ⟨_, unknown, rfl⟩) | ⟨_, _, _, rfl⟩ | ⟨_, _, _, _, _, ⟨requested, reserved, short⟩ | ⟨rfl, _⟩⟩ := excuses
  · obtain ⟨subject, problem, rfl⟩ := System.atom_error rejected
    exact ⟨nofun, nofun⟩
  · exact ⟨nofun, nofun⟩
  · exact ⟨nofun, nofun⟩
  · refine ⟨by rw [short]; nofun, ?_⟩
    rintro rfl
    cases short
  · exact ⟨nofun, nofun⟩

theorem ensures_satisfying (built : d.build = .ok ev.sys) (fraction : ev.options.threshold.Fraction ∨ ev.options.threshold = .nan)
    (ready : ev.cancelled = false) (f : Formula) :
    ev.Ensures (ev.Excuses f d) (ev.satisfying f) (ev.options.variant ≠ .onRequest → f.Resolves ev.sys) := by
  have wf := d.build_well_formed _ built
  have faults : f.Faults ev.sys (ev.Excuses f d) := f.faults_causes built fun _ => .inl
  refine guards_ite (fun onRequest => ?_) fun everywhere => guards_ite (fun stopped => ?_) fun _ => ?_
  · have reduces : ev.options.early = .threshold →
        ev.options.threshold.Reduces ∨ ev.options.threshold = .nan ∧ ev.Excuses f d .noThreshold := fun early =>
      fraction.imp (·.reduces) fun none => ⟨none, .inr (.inl ⟨onRequest, early, none, rfl⟩)⟩
    have halts : ev.cancelled = true → ev.Excuses f d .canceled := fun stopped => absurd (ready.symm.trans stopped) Bool.false_ne_true
    exact (query_replies wf halts reduces f faults _ (.mask _)).mono fun _ found =>
      ⟨found.known, fun other => absurd onRequest other⟩
  · rw [ready] at stopped
    cases stopped
  · exact (ensures_everywhere wf f faults fun codes names coalition t found e refuses =>
      .inr (.inr ⟨codes, names, coalition, t, found, refuses⟩)).mono fun resolves _ => resolves

/-- An evaluation that enumerates strategies fails exactly on ill-formed formulas. Whatever was asked before, a search on request whose
threshold, if it stops by one, is a number fails with the error of an atom or of a name alone, and so does an evaluation with encodings if
there is room for what the coalitions do and the reserve is not too small. Nothing is picked from an empty set, and every search ends. -/
theorem evaluation_fails_iff (built : d.build = .ok sys) (double : o.threshold.Double) (created : create sys o false = .ok ev)
    {asked : List Question} (clear : ∀ q ∈ asked, q.Clear sys) (f : Formula) :
    (ev.options.variant.Enumerates →
      ((∃ e k, (ev.satisfying f).run (ev.after asked) = (.error e, k)) ↔ f.IllFormed d sys)) ∧
    ∀ e k, (ev.satisfying f).run (ev.after asked) = (.error e, k) →
      (ev.options.variant.Enumerates → f.Causes d sys e) ∧
      (ev.options.variant = .onRequest → (ev.options.early = .threshold → ev.options.threshold ≠ .nan) → f.Causes d sys e) ∧
      (ev.options.variant = .symbolic ∨ ev.options.variant = .symbolicFiltered → (ev.options.observability = .limited → f.Roomy sys) →
        f.Causes d sys e ∨ ev.options.observability = .limited ∧ e.ShortReserve) ∧
      e.cause ≠ .space .emptyPick ∧ e ≠ .endless := by
  obtain ⟨rfl, normal, ready⟩ := create_options created
  have kept := @after_kept ev (fun _ => True) (d.build_well_formed _ built) asked clear fun _ _ => trivial
  obtain ⟨result, n, ran, _, outcome⟩ := ensures_satisfying built (normal ▸ Options.threshold_normal double) ready f _ kept
  have excused : ∀ e k, (ev.satisfying f).run (ev.after asked) = (.error e, k) → ev.Excuses f d e := by
    intro e k failed
    rw [ran] at failed
    cases failed
    exact outcome
  have enumerated : ∀ e k, (ev.satisfying f).run (ev.after asked) = (.error e, k) → ev.options.variant.Enumerates → f.Causes d ev.sys e := by
    intro e k failed enumerates
    obtain ⟨everywhere, codeless⟩ := enumerates.neither
    obtain causes | ⟨onRequest, _⟩ | ⟨⟨_, codes⟩, _⟩ := excused e k failed
    · exact causes
    · exact absurd onRequest everywhere
    · exact absurd codes codeless
  refine ⟨fun enumerates => ⟨?_, fun faulty => ?_⟩,
    fun e k failed => ⟨enumerated e k failed, fun onRequest number => ?_, fun codes roomy => ?_, (excused e k failed).picked⟩⟩
  · rintro ⟨e, k, failed⟩
    exact (enumerated e k failed enumerates).ill_formed
  · cases result with
    | error e => exact ⟨e, n, ran⟩
    | ok r => exact absurd faulty ((f.resolves_iff built).mp (outcome.2 enumerates.neither.1))
  · obtain causes | ⟨_, early, none, _⟩ | ⟨⟨_, codes⟩, _⟩ := excused e k failed
    · exact causes
    · exact absurd none (number early)
    · rw [onRequest] at codes
      simp at codes
  · obtain causes | ⟨onRequest, _⟩ | ⟨⟨limited, _⟩, names, coalition, t, found, short | ⟨_, moves, played, crowded⟩⟩ := excused e k failed
    · exact .inl causes
    · rw [onRequest] at codes
      simp at codes
    · exact .inr ⟨limited, short⟩
    · exact absurd (roomy limited names coalition t found moves played) crowded

theorem evaluation_fails_iff_lamp : ∃ (sys : System) (ev coded : Evaluator), lamp.build = .ok sys ∧ create sys {} false = .ok ev ∧
    create sys { variant := .symbolic } false = .ok coded ∧
    (∃ e k, (ev.satisfying (.strategic .canForce ["foot"] .next (.atom "on = yes"))).run (ev.after []) = (.error e, k)) ∧
    (¬ ∃ e k, (ev.satisfying (.strategic .canForce ["hand"] .next (.constant .init))).run (ev.after []) = (.error e, k)) ∧
    ∀ e k, (coded.satisfying (.strategic .canForce ["hand"] .next (.constant .init))).run (coded.after []) = (.error e, k) → e.ShortReserve := by
  obtain ⟨sys, t, built, _, named, _, few, _⟩ := lamp_lively
  have double : (Options.threshold {}).Double := by
    show (Binary64.finite false (2 ^ 52) (-53)).Double
    exact (by decide : 2 ^ 52 < 2 ^ 53)
  have fine : ¬ (Formula.strategic .canForce ["hand"] .next (.constant .init)).IllFormed lamp sys := by
    rintro (⟨name, listed, undeclared⟩ | ⟨text, listed, _⟩)
    · simp only [Formula.actors, List.flatten_cons, List.flatten_nil, List.append_nil, List.mem_singleton] at listed
      subst listed
      exact undeclared (by decide)
    · simp [Formula.atoms] at listed
  have created : create sys {} false = .ok ⟨sys, Options.normalize {}, false⟩ := rfl
  have coded : create sys { variant := .symbolic } false = .ok ⟨sys, Options.normalize { variant := .symbolic }, false⟩ := rfl
  have spec := fun f => @evaluation_fails_iff _ lamp sys {} built double created [] (by simp) f
  have roomy : (Formula.strategic .canForce ["hand"] .next (.constant .init)).Roomy sys := by
    refine Formula.roomy_of_few fun names listed team found => ?_
    simp only [Formula.coalitions, List.mem_singleton] at listed
    subst listed
    exact Except.ok.inj (named.symm.trans found) ▸ few
  refine ⟨sys, _, _, built, created, coded, ((spec _).1 (.inl rfl)).mpr (.inl ⟨"foot", by simp [Formula.actors], by decide⟩),
    fun fails => fine (((spec _).1 (.inl rfl)).mp fails), fun e k failed => ?_⟩
  obtain ⟨_, _, only, _⟩ := (@evaluation_fails_iff _ lamp sys { variant := .symbolic } built double coded [] (by simp) _).2 e k failed
  obtain causes | ⟨_, short⟩ := only (.inl rfl) fun _ => roomy
  · exact absurd causes.ill_formed fine
  · exact short

end Evaluator

end Coalition
