import Coalition.Proofs.Model.Value

-- The meaning of model expressions over values of the variables.

set_option autoImplicit false

namespace Coalition

-- Current and next values of variables, by their names. An input has a current value only.
structure Values where
  now : String → String
  next : String → String

def Values.read (values : Values) (r : Reading) : String := if r.next then values.next r.var.name else values.now r.var.name

-- The expression is true of some values, given the meaning of the named ones.
def Expression.Holds (meaning : String → Values → Prop) (values : Values) : Expression → Prop
  | .constant value => value = true
  | .isValue reading index => reading.var.domain[index]? = some (values.read reading)
  | .isAmong reading indices => ∃ index ∈ indices, reading.var.domain[index]? = some (values.read reading)
  | .same left right => values.read left = values.read right
  | .named name => meaning name values
  | .not body => ¬ body.Holds meaning values
  | .and left right => left.Holds meaning values ∧ right.Holds meaning values
  | .or left right => left.Holds meaning values ∨ right.Holds meaning values
  | .implies left right => left.Holds meaning values → right.Holds meaning values
  | .iff left right => (left.Holds meaning values ↔ right.Holds meaning values)

-- The variable's bits are the place of a value in its domain, in binary with the least significant bit first.
def Variable.Stores (v : Variable) (next : Bool) (value : String) (ρ : Valuation) : Prop :=
  ∃ index : Nat, v.domain[index]? = some value ∧ ∀ entry ∈ (v.bitsAt next).zipIdx, ρ entry.1 = index.testBit entry.2

theorem Variable.Stores.same {v : Variable} {next : Bool} {value : String} {ρ σ : Valuation} (here : v.Stores next value ρ)
    (there : v.Stores next value σ) (nodup : v.domain.Nodup) {b : Nat} (bit : b ∈ v.bitsAt next) : ρ b = σ b := by
  obtain ⟨place, own, stored⟩ := here
  obtain ⟨placeToo, ownToo, storedToo⟩ := there
  have less := (List.getElem?_eq_some_iff.mp own).1
  obtain rfl : place = placeToo := (List.getElem?_inj less nodup).mp (own.trans ownToo.symm)
  obtain ⟨j, less, rfl⟩ := List.getElem_of_mem bit
  have entry : ((v.bitsAt next)[j], j) ∈ (v.bitsAt next).zipIdx := by
    rw [List.mem_zipIdx_iff_getElem?]
    exact List.getElem?_eq_getElem less
  exact (stored _ entry).trans (storedToo _ entry).symm

def Reading.Of (vars : List Variable) (r : Reading) : Prop := r.var ∈ vars ∧ (r.next = true → r.var.kind ≠ .input)

namespace Values

def Fit (values : Values) (vars : List Variable) : Prop := ∀ r : Reading, r.Of vars → values.read r ∈ r.var.domain

def Encoded (values : Values) (vars : List Variable) (ρ : Valuation) : Prop :=
  ∀ r : Reading, r.Of vars → r.var.Stores r.next (values.read r) ρ

theorem Encoded.fit {values : Values} {vars : List Variable} {ρ : Valuation} (encoded : values.Encoded vars ρ) : values.Fit vars := by
  intro r known
  obtain ⟨index, value, _⟩ := encoded r known
  exact List.mem_of_getElem? value

end Values

structure Variable.Sized (v : Variable) : Prop where
  bits : v.bits.length = width v.domain.length
  nextBits : v.kind ≠ .input → v.nextBits.length = width v.domain.length
  nodup : v.domain.Nodup

theorem Expression.Scope.Allows.of {scope : Scope} {vars : List Variable} {r : Reading} (allowed : scope.Allows vars r) : r.Of vars :=
  ⟨allowed.1, fun next => (allowed.2.1 next).2⟩

section

variable {vars : List Variable} (sized : ∀ v ∈ vars, v.Sized)

include sized

theorem Reading.Of.wide {r : Reading} (known : r.Of vars) : (r.var.bitsAt r.next).length = width r.var.domain.length := by
  unfold Variable.bitsAt
  cases next : r.next with
  | false => exact (sized _ known.1).bits
  | true => exact (sized _ known.1).nextBits (known.2 next)

variable {values : Values} {ρ : Valuation} (encoded : values.Encoded vars ρ)

include encoded

theorem mem_reading {r : Reading} (known : r.Of vars) {index : Nat} (less : index < r.var.domain.length) :
    ρ ∈ (r.region index).members ↔ r.var.domain[index]? = some (values.read r) := by
  obtain ⟨place, value, stored⟩ := encoded r known
  have here : ρ ∈ (r.region place).members := Frame.mem_code.mpr stored
  have placeLess := (List.getElem?_eq_some_iff.mp value).1
  constructor
  · intro member
    obtain rfl := Variable.code_unique (known.wide sized) less placeLess member here
    exact value
  · intro same
    obtain rfl : index = place := (List.getElem?_inj less (sized _ known.1).nodup).mp (same.trans value.symm)
    exact here

theorem mem_same {left right : Reading} (leftKnown : left.Of vars) (rightKnown : right.Of vars) (domains : left.var.domain = right.var.domain)
    (named : List (String × Region)) :
    ρ ∈ ((Expression.same left right).region named).members ↔ values.read left = values.read right := by
  have value {index : Nat} (less : index < left.var.domain.length) :
      ρ ∈ (right.region index).members ↔ left.var.domain[index]? = some (values.read right) := by
    rw [mem_reading sized encoded rightKnown (domains ▸ less), domains]
  unfold Expression.region
  rw [Region.mem_union_all]
  simp only [List.mem_map, List.mem_range, exists_exists_and_eq_and, Region.members_inter, Set.mem_inter_iff]
  constructor
  · rintro ⟨index, less, here, there⟩
    rw [mem_reading sized encoded leftKnown less] at here
    rw [value less] at there
    exact Option.some.inj (here.symm.trans there)
  · intro same
    obtain ⟨index, here, _⟩ := encoded left leftKnown
    have less := (List.getElem?_eq_some_iff.mp here).1
    exact ⟨index, less, (mem_reading sized encoded leftKnown less).mpr here, (value less).mpr (same ▸ here)⟩

theorem Values.Encoded.same {σ : Valuation} (other : values.Encoded vars σ) {r : Reading} (known : r.Of vars) {b : Nat}
    (bit : b ∈ r.var.bitsAt r.next) : ρ b = σ b :=
  (encoded r known).same (other r known) (sized _ known.1).nodup bit

theorem Expression.mem_region {named : List (String × Region)} {known : String → Prop} {meaning : String → Values → Prop} {scope : Scope}
    (agrees : ∀ name, known name → (ρ ∈ ((named.lookup name).getD .empty).members ↔ meaning name values))
    {e : Expression} (typed : e.Typed (scope.Allows vars) known) : ρ ∈ (e.region named).members ↔ e.Holds meaning values := by
  induction e with
  | constant value => cases value <;> simp [region, Holds]
  | isValue reading index => exact mem_reading sized encoded typed.1.of typed.2
  | isAmong reading indices =>
      unfold region
      rw [Region.mem_union_all]
      simp only [List.mem_map, exists_exists_and_eq_and, Holds]
      refine exists_congr fun index => and_congr_right fun listed => ?_
      exact mem_reading sized encoded typed.1.of (typed.2 index listed)
  | same left right => exact mem_same sized encoded typed.1.of typed.2.1.of typed.2.2 named
  | named name => exact agrees name typed
  | not body ih => rw [region, Region.mem_compl, Holds, ih typed]
  | and left right leftIh rightIh => rw [region, Region.members_inter, Set.mem_inter_iff, Holds, leftIh typed.1, rightIh typed.2]
  | or left right leftIh rightIh => rw [region, Region.members_union, Set.mem_union, Holds, leftIh typed.1, rightIh typed.2]
  | implies left right leftIh rightIh => rw [region, Region.mem_implies, Holds, leftIh typed.1, rightIh typed.2]
  | iff left right leftIh rightIh => rw [region, Region.mem_iff, Holds, leftIh typed.1, rightIh typed.2]

end

namespace Frame

variable {f : Frame}

def allReadings (f : Frame) : List Reading := f.vars.map (⟨·, false⟩) ++ f.stateVars.map (⟨·, true⟩)

theorem input_of {v : Variable} (member : v ∈ f.inputVars) : Reading.Of f.vars ⟨v, false⟩ :=
  ⟨List.mem_append_right _ member, fun later => absurd later Bool.false_ne_true⟩

theorem mem_mask_all {vs : List Variable} {next : Bool} {ρ : Valuation} :
    ρ ∈ (maskAll vs next).members ↔ ∀ v ∈ vs, ∃ value, v.Stores next value ρ := by
  unfold maskAll
  rw [Region.mem_inter_all]
  simp only [List.forall_mem_map]
  refine forall₂_congr fun v _ => ?_
  rw [Variable.mem_mask]
  constructor
  · rintro ⟨index, less, stored⟩
    exact ⟨_, index, List.getElem?_eq_getElem less, Frame.mem_code.mp stored⟩
  · rintro ⟨value, index, same, stored⟩
    exact ⟨index, (List.getElem?_eq_some_iff.mp same).1, Frame.mem_code.mpr stored⟩

section

variable (laid : f.Laid)

include laid

theorem Laid.state_of {v : Variable} (member : v ∈ f.stateVars) (next : Bool) : Reading.Of f.vars ⟨v, next⟩ :=
  ⟨List.mem_append_left _ member, fun _ => by rw [(laid.states v member).1]; decide⟩

theorem Laid.readings {r : Reading} (known : r.Of f.vars) :
    (r.var ∈ f.stateVars ∧ r.next = false ∨ r.var ∈ f.inputVars ∧ r.next = false) ∨ r.var ∈ f.stateVars ∧ r.next = true := by
  obtain ⟨member, next⟩ := known
  cases later : r.next with
  | false => exact .inl ((List.mem_append.mp member).imp (⟨·, rfl⟩) (⟨·, rfl⟩))
  | true =>
      obtain state | input := List.mem_append.mp member
      · exact .inr ⟨state, rfl⟩
      · exact absurd (laid.inputs _ input) (next later)

theorem Laid.mem_all_readings {r : Reading} (known : r.Of f.vars) : r ∈ f.allReadings := by
  obtain ⟨v, next⟩ := r
  obtain (⟨state, rfl⟩ | ⟨input, rfl⟩) | ⟨state, rfl⟩ := laid.readings known
  · exact List.mem_append_left _ (List.mem_map_of_mem (List.mem_append_left _ state))
  · exact List.mem_append_left _ (List.mem_map_of_mem (List.mem_append_right _ input))
  · exact List.mem_append_right _ (List.mem_map_of_mem state)

theorem Laid.bits_nodup : (f.allReadings.flatMap fun r => r.var.bitsAt r.next).Nodup := by
  have split : (f.allReadings.flatMap fun r => r.var.bitsAt r.next) = (f.stateBits ++ f.inputBits) ++ f.nextBits := by
    simp [allReadings, List.flatMap_append, List.flatMap_map, Frame.vars, Variable.bitsAt, Frame.stateBits, Frame.inputBits, Frame.nextBits]
  rw [split, List.nodup_append', List.nodup_append']
  refine ⟨⟨laid.stateNodup, laid.inputNodup, fun b state input => (laid.inputApart b input).1 state⟩, ?_, fun b move next => ?_⟩
  · rw [next_bits_eq laid]
    exact laid.stateNodup.map fun a b same => Nat.succ.inj same
  · obtain state | input := List.mem_append.mp move
    · exact state_not_next laid state next
    · exact (laid.inputApart b input).2 next

theorem Laid.exists_codes (index : Reading → Nat) : ∃ ρ : Valuation, ∀ r : Reading, r.Of f.vars → ρ ∈ (r.region (index r)).members := by
  obtain ⟨ρ, code⟩ := exists_code (fun r : Reading => r.var.bitsAt r.next) laid.bits_nodup index
  exact ⟨ρ, fun r known => code r (laid.mem_all_readings known)⟩

theorem Laid.exists_encoding {values : Values} (fit : values.Fit f.vars) : ∃ ρ, values.Encoded f.vars ρ := by
  obtain ⟨ρ, code⟩ := laid.exists_codes fun r => r.var.domain.idxOf (values.read r)
  refine ⟨ρ, fun r known => ⟨_, ?_, Frame.mem_code.mp (code r known)⟩⟩
  have less := List.idxOf_lt_length_iff.mpr (fit r known)
  rw [List.getElem?_eq_getElem less, List.getElem_idxOf]

theorem Laid.mem_masks (distinct : (f.vars.map (·.name)).Nodup) {ρ : Valuation} :
    (ρ ∈ f.statesMask.members ∧ ρ ∈ f.inputsMask.members) ∧ ρ ∈ f.nextMask.members ↔ ∃ values : Values, values.Encoded f.vars ρ := by
  rw [f.states_mask_eq, f.inputs_mask_eq, f.next_mask_eq, mem_mask_all, mem_mask_all, mem_mask_all]
  constructor
  · rintro ⟨⟨states, inputs⟩, nexts⟩
    have stored : ∀ r : Reading, r.Of f.vars → ∃ value, r.var.Stores r.next value ρ := by
      rintro ⟨v, next⟩ known
      obtain (⟨state, rfl⟩ | ⟨input, rfl⟩) | ⟨state, rfl⟩ := laid.readings known
      · exact states v state
      · exact inputs v input
      · exact nexts v state
    have named : ∀ name next, ∃ value, ∀ v, v.name = name → Reading.Of f.vars ⟨v, next⟩ → v.Stores next value ρ := by
      intro name next
      by_cases used : ∃ v, v.name = name ∧ Reading.Of f.vars ⟨v, next⟩
      · obtain ⟨v, rfl, known⟩ := used
        obtain ⟨value, here⟩ := stored _ known
        refine ⟨value, fun w same knownToo => ?_⟩
        obtain rfl : w = v := List.inj_on_of_nodup_map distinct knownToo.1 known.1 same
        exact here
      · exact ⟨"", fun v same known => absurd ⟨v, same, known⟩ used⟩
    choose value spec using named
    refine ⟨⟨(value · false), (value · true)⟩, ?_⟩
    rintro ⟨v, next⟩ known
    have here := spec v.name next v rfl known
    cases next <;> exact here
  · rintro ⟨values, encoded⟩
    exact ⟨⟨fun v state => ⟨_, encoded _ (laid.state_of state false)⟩, fun v input => ⟨_, encoded _ (input_of input)⟩⟩,
      fun v state => ⟨_, encoded _ (laid.state_of state true)⟩⟩

end

end Frame

end Coalition
