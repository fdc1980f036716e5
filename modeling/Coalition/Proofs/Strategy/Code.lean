import Mathlib.Algebra.Ring.Nat
import Coalition.Proofs.Model.Value
import Coalition.Proofs.Strategy.Observation

-- Extra variables over the reserved bits extend a frame; their values choose an action for each observation, and the rules of an encoding
-- say which.

set_option autoImplicit false

namespace Coalition

abbrev codeBits (vars : List Variable) : List Nat := vars.flatMap (·.bits)

def Coded (vars : List Variable) (κ : Valuation) : Prop := ∀ v ∈ vars, κ ∈ (v.mask false).members

theorem Coded.congr {vars : List Variable} {κ ρ : Valuation} (coded : Coded vars κ) (agree : ∀ b ∈ codeBits vars, κ b = ρ b) :
    Coded vars ρ := by
  intro v member
  have reads : (v.mask false).Reads {b | b ∈ v.bits} := by
    refine Region.reads_union_all fun r listed => ?_
    obtain ⟨i, _, rfl⟩ := List.mem_map.mp listed
    refine Region.reads_cell fun entry placed => ?_
    obtain ⟨⟨b, j⟩, zipped, rfl⟩ := List.mem_map.mp placed
    exact List.fst_mem_of_mem_zipIdx zipped
  exact reads.mem (coded v member) fun b bit => agree b (List.mem_flatMap.mpr ⟨v, member, bit⟩)

namespace Frame

-- Variables over bits of their own among the reserved ones.
structure Extra (f : Frame) (vars : List Variable) : Prop where
  paired : ∀ v ∈ vars, v.kind = .state ∧ v.nextBits = v.bits.map (· + 1)
  wide : ∀ v ∈ vars, v.bits.length = width v.domain.length
  nodup : (codeBits vars).Nodup
  apart : ∀ b ∈ codeBits vars, b + 1 ∉ codeBits vars
  reserved : ∀ b ∈ codeBits vars, f.space.declared ≤ b ∧ b + 1 < f.space.size

-- The bits that laying some variables takes up, each with its next bit.
def codeWidth (sizes : List Nat) : Nat := (sizes.map width).sum

theorem code_width_cons (n : Nat) (rest : List Nat) : codeWidth (n :: rest) = width n + codeWidth rest := by
  simp [codeWidth]

theorem lay_bits (first : Nat) (entries : List (String × Nat)) :
    codeBits (strategyVars.lay first entries) = (List.range (codeWidth (entries.map (·.2)))).map fun i => first + 2 * i := by
  induction entries generalizing first with
  | nil => rfl
  | cons entry rest ih =>
      unfold strategyVars.lay
      unfold codeBits at ih ⊢
      rw [List.flatMap_cons, ih, List.map_cons, code_width_cons, List.range_add, List.map_append, List.map_map]
      congr 1
      apply List.map_congr_left
      intro i _
      simp only [Function.comp_apply]
      omega

theorem mem_lay {first : Nat} {entries : List (String × Nat)} {v : Variable} (member : v ∈ strategyVars.lay first entries) :
    (v.kind = .state ∧ v.nextBits = v.bits.map (· + 1)) ∧ v.bits.length = width v.domain.length := by
  induction entries generalizing first with
  | nil => simp [strategyVars.lay] at member
  | cons entry rest ih =>
      unfold strategyVars.lay at member
      rcases List.mem_cons.mp member with rfl | later
      · refine ⟨⟨rfl, ?_⟩, ?_⟩
        · simp only [List.map_map]
          rfl
        · simp only [List.length_map, List.length_range]
      · exact ih later

theorem lay_sizes (first : Nat) (entries : List (String × Nat)) :
    (strategyVars.lay first entries).map (·.domain.length) = entries.map (·.2) := by
  induction entries generalizing first with
  | nil => rfl
  | cons entry rest ih => simp only [strategyVars.lay, List.map_cons, List.length_map, List.length_range, ih]

theorem strategy_vars_eq (f : Frame) (names : List String) (sizes : List Nat) : f.strategyVars names sizes =
    if f.space.reserved < 2 * codeWidth sizes then
      .error (.inside s!"{names.length} strategy variables" (.space (.notEnoughReserved (2 * codeWidth sizes) f.space.reserved)))
    else .ok (strategyVars.lay f.space.declared (names.zip sizes)) := by
  have counted : ∀ (ns : List Nat) (start : Nat), ns.foldl (fun total n => total + 2 * width n) start = start + 2 * codeWidth ns := by
    intro ns
    induction ns with
    | nil => exact fun start => rfl
    | cons n rest ih =>
        intro start
        rw [List.foldl_cons, ih, code_width_cons]
        omega
  unfold strategyVars Space.scratch
  rw [counted, Nat.zero_add]
  by_cases room : f.space.reserved < 2 * codeWidth sizes
  · rw [if_pos room, if_pos room]
  · rw [if_neg room, if_neg room]

theorem strategy_vars_spec (f : Frame) {names : List String} {sizes : List Nat} (same : names.length = sizes.length) :
    Yields (f.strategyVars names sizes) fun vars => f.Extra vars ∧ vars.map (·.domain.length) = sizes := by
  rw [strategy_vars_eq]
  by_cases room : f.space.reserved < 2 * codeWidth sizes
  · rw [if_pos room]
    exact yields_error _
  · rw [if_neg room]
    have sizesSame : (names.zip sizes).map (·.2) = sizes := List.map_snd_zip same.ge
    have bits := lay_bits f.space.declared (names.zip sizes)
    rw [sizesSame] at bits
    have place : ∀ b, b ∈ codeBits (strategyVars.lay f.space.declared (names.zip sizes)) ↔
        ∃ i < codeWidth sizes, b = f.space.declared + 2 * i := by
      intro b
      rw [bits]
      simp only [List.mem_map, List.mem_range, eq_comm]
    refine yields_ok ⟨⟨fun v member => (mem_lay member).1, fun v member => (mem_lay member).2, ?_, fun b here there => ?_,
      fun b here => ?_⟩, (lay_sizes _ _).trans sizesSame⟩
    · rw [bits]
      refine List.Nodup.map (fun i j (equal : f.space.declared + 2 * i = f.space.declared + 2 * j) => ?_) List.nodup_range
      omega
    · obtain ⟨i, _, rfl⟩ := (place b).mp here
      obtain ⟨j, _, odd⟩ := (place _).mp there
      omega
    · obtain ⟨i, less, rfl⟩ := (place b).mp here
      unfold Space.size
      omega

def extended (f : Frame) (vars : List Variable) : Frame :=
  Frame.ofVariables ⟨f.space.size, 0⟩ (f.stateVars ++ vars) f.inputVars

variable {f : Frame} {vars : List Variable}

theorem extended_state_bits (f : Frame) (vars : List Variable) : (f.extended vars).stateBits = f.stateBits ++ codeBits vars :=
  List.flatMap_append

theorem extended_next_bits (f : Frame) (vars : List Variable) :
    (f.extended vars).nextBits = f.nextBits ++ vars.flatMap (·.nextBits) := List.flatMap_append

theorem Extra.next_bits (extra : f.Extra vars) : vars.flatMap (·.nextBits) = (codeBits vars).map (· + 1) := by
  rw [List.map_flatMap]
  exact List.flatMap_congr fun v member => (extra.paired v member).2

theorem relation_extended (f : Frame) (r : Region) (vars : List Variable) :
    f.relation r vars = (f.extended vars).relation r [] := by
  have identity : vars.foldl (fun r v => r.inter v.unchanged) f.identity = (f.extended vars).identity := by
    rw [(f.extended vars).identity_eq, f.identity_eq]
    show _ = Region.interAll ((f.stateVars ++ vars).map (·.unchanged))
    unfold Region.interAll
    rw [List.map_append, List.foldl_append, List.foldl_map (f := fun v : Variable => v.unchanged) (g := Region.inter) (l := vars)]
  unfold relation
  rw [identity, extended_state_bits, extended_next_bits]
  simp only [List.flatMap_nil, List.append_nil, List.foldl_nil]
  rfl

theorem Extra.laid (extra : f.Extra vars) (laid : f.Laid) : (f.extended vars).Laid := by
  have state : ∀ b ∈ f.stateBits, b < f.space.declared ∧ b + 1 < f.space.declared := fun b here =>
    ⟨laid.declared b (.inl (.inl here)), laid.declared (b + 1) (.inl (.inr ((mem_next_bits laid).mpr here)))⟩
  have input : ∀ b ∈ f.inputBits, b < f.space.declared := fun b here => laid.declared b (.inr here)
  have nextBits : ∀ b, b ∈ (f.extended vars).nextBits ↔ b ∈ f.nextBits ∨ ∃ c ∈ codeBits vars, c + 1 = b := by
    intro b
    rw [extended_next_bits, extra.next_bits, List.mem_append, List.mem_map]
  have stateBits : ∀ b, b ∈ (f.extended vars).stateBits ↔ b ∈ f.stateBits ∨ b ∈ codeBits vars := by
    intro b
    rw [extended_state_bits, List.mem_append]
  -- the old bits are declared and the extra ones are reserved, so that only bits of one kind can be neighbours
  constructor
  case states => exact fun v member => (List.mem_append.mp member).elim (laid.states v) (extra.paired v)
  case inputs => exact laid.inputs
  case stateNodup =>
    rw [extended_state_bits, List.nodup_append']
    refine ⟨laid.stateNodup, extra.nodup, fun b here there => ?_⟩
    have less := (state b here).1
    have more := (extra.reserved b there).1
    omega
  case inputNodup => exact laid.inputNodup
  case apart =>
    intro b here after
    rcases (stateBits b).mp here with own | code <;> rcases (stateBits _).mp after with ownAfter | codeAfter
    · exact laid.apart b own ownAfter
    · have less := (state b own).2
      have more := (extra.reserved _ codeAfter).1
      omega
    · have less := (state _ ownAfter).1
      have more := (extra.reserved b code).1
      omega
    · exact extra.apart b code codeAfter
  case inputApart =>
    intro b here
    have less := input b here
    constructor
    · intro there
      rcases (stateBits b).mp there with own | code
      · exact (laid.inputApart b here).1 own
      · have more := (extra.reserved b code).1
        omega
    · intro there
      rcases (nextBits b).mp there with own | ⟨c, code, rfl⟩
      · exact (laid.inputApart b here).2 own
      · have more := (extra.reserved c code).1
        omega
  case declared =>
    have size : (f.extended vars).space.declared = f.space.size := rfl
    have le : f.space.declared ≤ f.space.size := Nat.le_add_right _ _
    rw [size]
    rintro b ((here | there) | outer)
    · rcases (stateBits b).mp here with own | code
      · exact lt_of_lt_of_le (state b own).1 le
      · have less := (extra.reserved b code).2
        omega
    · rcases (nextBits b).mp there with own | ⟨c, code, rfl⟩
      · exact lt_of_lt_of_le (laid.declared b (.inl (.inr own))) le
      · exact (extra.reserved c code).2
    · exact lt_of_lt_of_le (input b outer) le

end Frame

namespace Encoding

-- The rules of some observations; the variables hold the choices.
def prescriptions (os : List Observation) (vars : List Variable) : List Rule :=
  ((os.filter fun o => !hasChoice o).flatMap fun o => rulesOf o none) ++
    (((os.filter hasChoice).zip vars).flatMap fun (o, v) => rulesOf o (some v))

-- A rule of an observation: for its only action, or for one value of its variable.
inductive Ruled (os : List Observation) (vars : List Variable) : Observation → Rule → Prop where
  | only {o : Observation} {a : Region} (listed : o ∈ os) (single : hasChoice o = false) (offered : a ∈ o.actions) :
      Ruled os vars o ⟨o.states, a⟩
  | choice {o : Observation} {v : Variable} {i : Nat} {a : Region} (listed : (o, v) ∈ (os.filter hasChoice).zip vars)
      (offered : o.actions[i]? = some a) : Ruled os vars o ⟨o.states.inter (v.valueRegion false i), a⟩

-- Rules that leave at most one action for each class of states and each code.
structure Prescribes (sys : System) (t : Team) (moves : Set Valuation) (vars : List Variable) (rules : List Rule) : Prop where
  reads : ∀ rule ∈ rules, rule.condition.Reads (sys.extended vars).stateBit
  plays : ∀ rule ∈ rules, ∃ μ ∈ moves, (∀ ρ, ρ ∈ rule.action.members ↔ t.Plays ρ μ) ∧ ∀ ρ ∈ rule.condition.members, t.Same μ ρ
  spreads : ∀ rule ∈ rules, ∀ ρ ∈ rule.condition.members, ∀ σ ∈ sys.statesMask.members, t.Same ρ σ →
    (∀ b ∈ codeBits vars, ρ b = σ b) → σ ∈ rule.condition.members
  unique : ∀ rule ∈ rules, ∀ other ∈ rules, ∀ ρ ∈ rule.condition.members, ρ ∈ other.condition.members → rule.action = other.action
  coded : ∃ κ, Coded vars κ

-- Rules that leave an action for each class and each code, and have a code for every way to choose.
structure Governs (sys : System) (t : Team) (moves : Set Valuation) (vars : List Variable) (rules : List Rule) : Prop
    extends Prescribes sys t moves vars rules where
  applies : ∀ μ ∈ moves, ∀ ρ ∈ sys.statesMask.members, t.Same μ ρ → Coded vars ρ →
    ∃ rule ∈ rules, ρ ∈ rule.condition.members
  chosen : ∀ U ⊆ moves, Agreeing [t] U → ∃ κ : Valuation, Coded vars κ ∧
    ∀ ρ ∈ U, ∀ rule ∈ rules, ∀ σ ∈ rule.condition.members, t.Same ρ σ → (∀ b ∈ codeBits vars, κ b = σ b) →
      ρ ∈ rule.action.members

variable {os : List Observation} {vars : List Variable} {sys : System} {t : Team} {moves : Set Valuation} {o p : Observation} {rule : Rule}

theorem mem_prescriptions : rule ∈ prescriptions os vars ↔ ∃ o, Ruled os vars o rule := by
  unfold prescriptions
  rw [List.mem_append, List.mem_flatMap, List.mem_flatMap]
  constructor
  · rintro (⟨o, listed, here⟩ | ⟨⟨o, v⟩, listed, here⟩)
    · obtain ⟨a, offered, rfl⟩ := List.mem_map.mp here
      obtain ⟨known, single⟩ := List.mem_filter.mp listed
      exact ⟨o, .only known (by simpa using single) offered⟩
    · obtain ⟨⟨a, i⟩, offered, rfl⟩ := List.mem_map.mp here
      exact ⟨o, .choice listed (List.mem_zipIdx_iff_getElem?.mp offered)⟩
  · rintro ⟨o, ruled⟩
    cases ruled with
    | @only a listed single offered => exact .inl ⟨o, List.mem_filter.mpr ⟨listed, by simp [single]⟩, List.mem_map_of_mem offered⟩
    | @choice v i a listed offered =>
        exact .inr ⟨(o, v), listed, List.mem_map.mpr ⟨(a, i), List.mem_zipIdx_iff_getElem?.mpr offered, rfl⟩⟩

namespace Ruled

theorem observed (ruled : Ruled os vars o rule) : o ∈ os := by
  cases ruled with
  | only listed => exact listed
  | choice listed => exact (List.mem_filter.mp (List.of_mem_zip listed).1).1

theorem offers (ruled : Ruled os vars o rule) : rule.action ∈ o.actions := by
  cases ruled with
  | only _ _ offered => exact offered
  | choice _ offered => exact List.mem_of_getElem? offered

theorem inside (ruled : Ruled os vars o rule) {ρ : Valuation} (here : ρ ∈ rule.condition.members) : ρ ∈ o.states.members := by
  cases ruled with
  | only => exact here
  | choice => exact Region.inter_subset_left _ _ here

end Ruled

theorem single_action (single : hasChoice o = false) {a b : Region} (first : a ∈ o.actions) (second : b ∈ o.actions) : a = b := by
  have short : o.actions.length ≤ 1 := by simpa [hasChoice] using single
  obtain ⟨c, whole⟩ : ∃ c, o.actions = [c] := List.length_eq_one_iff.mp (by
    have positive := List.length_pos_of_mem first
    omega)
  rw [whole, List.mem_singleton] at first second
  exact first.trans second.symm

section

variable (seen : Observed sys t moves os) (extra : sys.Extra vars)
  (sizes : vars.map (·.domain.length) = (os.filter hasChoice).map (·.actions.length))

include seen

theorem observed_once {ρ : Valuation} (first : o ∈ os) (second : p ∈ os) (here : ρ ∈ o.states.members) (there : ρ ∈ p.states.members) :
    o = p := by
  by_contra different
  have symmetric : Std.Symm fun o p : Observation => ∀ ρ ∈ o.states.members, ρ ∉ p.states.members :=
    ⟨fun _ _ apart ρ here there => apart ρ there here⟩
  exact seen.apart.forall first second different ρ here there

include sizes

theorem variable_once {v w : Variable} {ρ : Valuation} (first : (o, v) ∈ (os.filter hasChoice).zip vars)
    (second : (p, w) ∈ (os.filter hasChoice).zip vars) (here : ρ ∈ o.states.members) (there : ρ ∈ p.states.members) : v = w := by
  by_contra different
  have lengths : (os.filter hasChoice).length ≤ vars.length := by
    have same := congrArg List.length sizes
    rw [List.length_map, List.length_map] at same
    exact same.ge
  have symmetric : Std.Symm fun x y : Observation × Variable => ∀ ρ ∈ x.1.states.members, ρ ∉ y.1.states.members :=
    ⟨fun _ _ apart ρ here there => apart ρ there here⟩
  have apart : ((os.filter hasChoice).zip vars).Pairwise fun x y => ∀ ρ ∈ x.1.states.members, ρ ∉ y.1.states.members := by
    rw [← List.pairwise_map (f := Prod.fst) (R := fun o p : Observation => ∀ ρ ∈ o.states.members, ρ ∉ p.states.members),
      List.map_fst_zip lengths]
    exact seen.apart.sublist List.filter_sublist
  exact apart.forall first second (fun same => different (congrArg Prod.snd same)) ρ here there

omit seen in
theorem domain_length {v : Variable} (listed : (o, v) ∈ (os.filter hasChoice).zip vars) : v.domain.length = o.actions.length := by
  generalize os.filter hasChoice = choices at *
  induction choices generalizing vars with
  | nil => simp at listed
  | cons c rest ih =>
      cases vars with
      | nil => simp at listed
      | cons w others =>
          rw [List.map_cons, List.map_cons, List.cons.injEq] at sizes
          rcases List.mem_cons.mp listed with first | later
          · cases first
            exact sizes.1
          · exact ih sizes.2 later

include extra

theorem ruled_unique {other : Rule} {ρ : Valuation} (first : Ruled os vars o rule) (second : Ruled os vars p other)
    (here : ρ ∈ rule.condition.members) (there : ρ ∈ other.condition.members) : rule.action = other.action := by
  obtain rfl : o = p := observed_once seen first.observed second.observed (first.inside here) (second.inside there)
  cases first with
  | only _ single offered => exact single_action single offered second.offers
  | @choice v i a listed offered =>
      cases second with
      | only known single offeredToo => exact single_action single (List.mem_of_getElem? offered) offeredToo
      | @choice w j b listedToo offeredToo =>
          rw [Region.members_inter] at here there
          obtain rfl : v = w := variable_once seen sizes listed listedToo here.1 there.1
          have length := domain_length sizes listed
          have less := (List.getElem?_eq_some_iff.mp offered).1
          have lessToo := (List.getElem?_eq_some_iff.mp offeredToo).1
          obtain rfl : i = j := Variable.code_unique (extra.wide v (List.of_mem_zip listed).2) (by omega) (by omega) here.2 there.2
          exact Option.some.inj (offered.symm.trans offeredToo)

omit seen in
-- The variables share no bit, so that one valuation codes a place for each observation with a choice.
theorem exists_code_of_places (place : Observation → Nat) (inside : ∀ o ∈ os.filter hasChoice, place o < o.actions.length) :
    ∃ κ : Valuation, Coded vars κ ∧ ∀ o v, (o, v) ∈ (os.filter hasChoice).zip vars → κ ∈ (v.valueRegion false (place o)).members := by
  have lengths : (os.filter hasChoice).length = vars.length := by
    have same := congrArg List.length sizes
    rw [List.length_map, List.length_map] at same
    exact same.symm
  have nodup : (((os.filter hasChoice).zip vars).flatMap (·.2.bits)).Nodup := by
    have split : ((os.filter hasChoice).zip vars).flatMap (·.2.bits) = (((os.filter hasChoice).zip vars).map Prod.snd).flatMap (·.bits) := by
      rw [List.flatMap_map]
    rw [split, List.map_snd_zip lengths.ge]
    exact extra.nodup
  obtain ⟨κ, code⟩ := exists_code (fun pair : Observation × Variable => pair.2.bits) nodup fun pair => place pair.1
  refine ⟨κ, fun v member => ?_, fun o v listed => code (o, v) listed⟩
  have paired : v ∈ ((os.filter hasChoice).zip vars).map Prod.snd := by rwa [List.map_snd_zip lengths.ge]
  obtain ⟨⟨o, _⟩, listed, rfl⟩ := List.mem_map.mp paired
  refine Variable.mem_mask.mpr ⟨place o, ?_, code _ listed⟩
  rw [domain_length sizes listed]
  exact inside o (List.of_mem_zip listed).1

omit extra in
theorem ruled_applies (complete : ∀ o ∈ os, o.Complete t moves) {ρ : Valuation} (listed : o ∈ os) (here : ρ ∈ o.states.members)
    (coded : Coded vars ρ) : ∃ rule, Ruled os vars o rule ∧ ρ ∈ rule.condition.members := by
  cases several : hasChoice o with
  | false =>
      obtain ⟨a, offered⟩ := List.exists_mem_of_ne_nil _ ((seen.fits o listed).nonempty (complete o listed))
      exact ⟨_, .only listed several offered, here⟩
  | true =>
      have chooses : o ∈ ((os.filter hasChoice).zip vars).map Prod.fst := by
        have same := congrArg List.length sizes
        rw [List.length_map, List.length_map] at same
        rw [List.map_fst_zip same.ge]
        exact List.mem_filter.mpr ⟨listed, several⟩
      obtain ⟨⟨_, v⟩, paired, rfl⟩ := List.mem_map.mp chooses
      obtain ⟨i, less, value⟩ := Variable.mem_mask.mp (coded v (List.of_mem_zip paired).2)
      rw [domain_length sizes paired] at less
      refine ⟨_, .choice paired (List.getElem?_eq_getElem less), ?_⟩
      rw [Region.members_inter]
      exact ⟨here, value⟩

omit extra sizes in
theorem exists_choice (complete : o.Complete t moves) {U : Set Valuation} (le : U ⊆ moves) (agreeing : Agreeing [t] U) (listed : o ∈ os) :
    ∃ i < o.actions.length, ∀ ρ ∈ U, ρ ∈ o.states.members → ∀ a, o.actions[i]? = some a → ρ ∈ a.members := by
  have fits := seen.fits o listed
  by_cases some : ∃ ρ ∈ U, ρ ∈ o.states.members
  · obtain ⟨ρ, played, here⟩ := some
    obtain ⟨a, offered, spec⟩ := complete ρ (le played) here
    obtain ⟨i, less, at_⟩ := List.getElem_of_mem offered
    refine ⟨i, less, fun σ playedToo there b same => ?_⟩
    rw [List.getElem?_eq_getElem less, at_] at same
    cases same
    rw [spec]
    exact agreeing t (List.mem_singleton.mpr rfl) σ playedToo ρ played ((fits.alike σ there ρ).mp here).2
  · exact ⟨0, List.length_pos_iff.mpr (fits.nonempty complete), fun ρ played here => absurd ⟨ρ, played, here⟩ some⟩

theorem exists_choices (complete : ∀ o ∈ os, o.Complete t moves) (masked : moves ⊆ sys.statesMask.members) {U : Set Valuation} (le : U ⊆ moves)
    (agreeing : Agreeing [t] U) : ∃ κ : Valuation, Coded vars κ ∧ ∀ ρ ∈ U, ∀ o rule, Ruled os vars o rule →
      ∀ σ ∈ rule.condition.members, t.Same ρ σ → (∀ b ∈ codeBits vars, κ b = σ b) → ρ ∈ rule.action.members := by
  classical
  let place : Observation → Nat := fun o => if listed : o ∈ os then (exists_choice seen (complete o listed) le agreeing listed).choose else 0
  have chosen : ∀ o ∈ os, place o < o.actions.length ∧
      ∀ ρ ∈ U, ρ ∈ o.states.members → ∀ a, o.actions[place o]? = some a → ρ ∈ a.members := by
    intro o listed
    simp only [place, dif_pos listed]
    exact (exists_choice seen (complete o listed) le agreeing listed).choose_spec
  obtain ⟨κ, coded, code⟩ := exists_code_of_places extra sizes place fun o listed => (chosen o (List.mem_filter.mp listed).1).1
  refine ⟨κ, coded, fun ρ played o rule ruled σ here same agree => ?_⟩
  have fits := seen.fits o ruled.observed
  have there : ρ ∈ o.states.members := (fits.alike σ (ruled.inside here) ρ).mpr ⟨masked (le played), same.symm⟩
  cases ruled with
  | only listed single offered =>
      obtain ⟨a, offeredToo, spec⟩ := complete o listed ρ (le played) there
      rw [single_action single offered offeredToo, spec]
      exact .refl t ρ
  | @choice v i a listed offered =>
      have known := (List.mem_filter.mp (List.of_mem_zip listed).1).1
      rw [Region.members_inter] at here
      have value : κ ∈ (v.valueRegion false i).members := by
        refine Variable.mem_value.mpr fun entry zipped => ?_
        have bit := List.mem_flatMap.mpr ⟨v, (List.of_mem_zip listed).2, List.fst_mem_of_mem_zipIdx zipped⟩
        exact (agree _ bit).trans (Variable.mem_value.mp here.2 entry zipped)
      have less := (List.getElem?_eq_some_iff.mp offered).1
      have length := domain_length sizes listed
      have most := (chosen o known).1
      have same : i = place o :=
        Variable.code_unique (extra.wide v (List.of_mem_zip listed).2) (by omega) (by omega) value (code o v listed)
      rw [same] at offered
      exact (chosen o known).2 ρ played there a offered

theorem prescriptions_prescribe : Prescribes sys t moves vars (prescriptions os vars) where
  reads rule listed := by
    obtain ⟨o, ruled⟩ := mem_prescriptions.mp listed
    have states : o.states.Reads (sys.extended vars).stateBit := (seen.fits o ruled.observed).known.reads.mono fun b here => by
      rw [Frame.stateBit, Frame.extended_state_bits]
      exact List.mem_append_left _ here
    cases ruled with
    | only => exact states
    | @choice v i a known =>
        refine states.inter (Region.reads_cell fun entry placed => ?_)
        obtain ⟨⟨b, j⟩, zipped, rfl⟩ := List.mem_map.mp placed
        rw [Frame.stateBit, Frame.extended_state_bits]
        exact List.mem_append_right _ (List.mem_flatMap.mpr ⟨v, (List.of_mem_zip known).2, List.fst_mem_of_mem_zipIdx zipped⟩)
  plays rule listed := by
    obtain ⟨o, ruled⟩ := mem_prescriptions.mp listed
    have fits := seen.fits o ruled.observed
    obtain ⟨μ, played, here, spec⟩ := fits.played _ ruled.offers
    exact ⟨μ, played, spec, fun ρ there => ((fits.alike μ here ρ).mp (ruled.inside there)).2⟩
  spreads rule listed ρ here σ masked same agree := by
    obtain ⟨o, ruled⟩ := mem_prescriptions.mp listed
    have there := ((seen.fits o ruled.observed).alike ρ (ruled.inside here) σ).mpr ⟨masked, same⟩
    cases ruled with
    | only => exact there
    | @choice v i a known =>
        rw [Region.members_inter] at here ⊢
        refine ⟨there, Variable.mem_value.mpr fun entry zipped => ?_⟩
        have bit := List.mem_flatMap.mpr ⟨v, (List.of_mem_zip known).2, List.fst_mem_of_mem_zipIdx zipped⟩
        exact (agree _ bit).symm.trans (Variable.mem_value.mp here.2 entry zipped)
  unique rule listed other otherListed ρ here there := by
    obtain ⟨o, ruled⟩ := mem_prescriptions.mp listed
    obtain ⟨p, otherRuled⟩ := mem_prescriptions.mp otherListed
    exact ruled_unique seen extra sizes ruled otherRuled here there
  coded := by
    obtain ⟨κ, coded, _⟩ := exists_code_of_places extra sizes (fun _ => 0) fun o listed => by
      have several := (List.mem_filter.mp listed).2
      simp only [hasChoice, decide_eq_true_eq] at several
      omega
    exact ⟨κ, coded⟩

theorem prescriptions_govern (masked : moves ⊆ sys.statesMask.members) (complete : ∀ o ∈ os, o.Complete t moves) :
    Governs sys t moves vars (prescriptions os vars) where
  toPrescribes := prescriptions_prescribe seen extra sizes
  applies μ played ρ masked same coded := by
    obtain ⟨o, listed, here⟩ := seen.covered μ played
    have there := ((seen.fits o listed).alike μ here ρ).mpr ⟨masked, same⟩
    obtain ⟨rule, ruled, applies⟩ := ruled_applies seen sizes complete listed there coded
    exact ⟨rule, mem_prescriptions.mpr ⟨o, ruled⟩, applies⟩
  chosen U le agreeing := by
    obtain ⟨κ, coded, chosen⟩ := exists_choices seen extra sizes complete masked le agreeing
    refine ⟨κ, coded, fun ρ played rule listed => ?_⟩
    obtain ⟨o, ruled⟩ := mem_prescriptions.mp listed
    exact chosen ρ played o rule ruled

end

end Encoding

end Coalition
