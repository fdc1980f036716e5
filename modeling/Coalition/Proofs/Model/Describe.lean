import Coalition.Proofs.Model.Compiled
import Coalition.Proofs.Model.States

-- The description of a state is the text of its values, so that it tells states apart exactly as far as texts tell values apart.

set_option autoImplicit false

namespace Coalition

-- Pairs of a name and a value, as descriptions write them.
def pairsText (names values : List String) : String := " ".intercalate (List.zipWith (fun name value => name ++ "=" ++ value) names values)

theorem pairs_text_cons {name value : String} {names values : List String} (same : names.length = values.length) (some : names ≠ []) :
    pairsText (name :: names) (value :: values) = name ++ "=" ++ (value ++ (" " ++ pairsText names values)) := by
  cases names with
  | nil => exact absurd rfl some
  | cons other names =>
      cases values with
      | nil => cases same
      | cons more values =>
          unfold pairsText
          rw [List.zipWith_cons_cons, List.zipWith_cons_cons, String.intercalate_cons_cons]
          simp only [String.append_assoc]

theorem eq_of_blank {v w : String} {a b : String} (same : v ++ (" " ++ a) = w ++ (" " ++ b)) (first : ¬(v ++ " ").toList <+: w.toList)
    (second : ¬(w ++ " ").toList <+: v.toList) : v = w := by
  have lists := congrArg String.toList same
  simp only [String.toList_append] at lists first second
  obtain ⟨rest, long, tail⟩ | ⟨rest, long, tail⟩ := List.append_eq_append_iff.mp lists
  · cases rest with
    | nil => exact String.toList_injective (by simpa using long.symm)
    | cons c more =>
        obtain ⟨rfl, -⟩ : ' ' = c ∧ _ := by simpa using tail
        exact absurd ⟨more, by simp [long]⟩ first
  · cases rest with
    | nil => exact String.toList_injective (by simpa using long)
    | cons c more =>
        obtain ⟨rfl, -⟩ : ' ' = c ∧ _ := by simpa using tail
        exact absurd ⟨more, by simp [long]⟩ second

namespace Description

def Assigns (d : Description) (values : List String) : Prop := List.Forall₂ (fun x value => value ∈ x.values) d.vars values

-- Different values of the state variables have different texts.
def TellsApart (d : Description) : Prop :=
  ∀ vs ws, d.Assigns vs → d.Assigns ws → pairsText (d.vars.map (·.name)) vs = pairsText (d.vars.map (·.name)) ws → vs = ws

-- No value but one of the last variable goes on behind another value of its variable and a blank.
def EndsPlainly (d : Description) : Prop :=
  ∀ x ∈ d.vars.dropLast, ∀ v ∈ x.values, ∀ w ∈ x.values, ¬(v ++ " ").toList <+: w.toList

theorem EndsPlainly.tells_apart {d : Description} (plain : d.EndsPlainly) : d.TellsApart := by
  unfold EndsPlainly at plain
  unfold TellsApart Assigns
  generalize d.vars = vars at plain
  induction vars with
  | nil =>
      intro vs ws first second _
      rw [List.forall₂_nil_left_iff.mp first, List.forall₂_nil_left_iff.mp second]
  | cons x rest ih =>
      rintro _ _ (_ | @⟨_, v, _, vs, here, later⟩) (_ | @⟨_, w, _, ws, there, others⟩) same
      cases rest with
      | nil =>
          rw [List.forall₂_nil_left_iff.mp later, List.forall₂_nil_left_iff.mp others] at same ⊢
          have texts : x.name ++ "=" ++ v = x.name ++ "=" ++ w := same
          rw [(String.append_right_inj _).mp texts]
      | cons y more =>
          have length {us : List String} (all : List.Forall₂ (fun x value => value ∈ x.values) (y :: more) us) :
              ((y :: more).map (·.name)).length = us.length := by rw [List.length_map, all.length_eq]
          rw [List.map_cons, pairs_text_cons (length later) (by simp), pairs_text_cons (length others) (by simp)] at same
          have tails := (String.append_right_inj _).mp same
          have listed : x ∈ (x :: y :: more).dropLast := List.mem_cons_self
          obtain rfl := eq_of_blank tails (plain x listed v here w there) (plain x listed w there v here)
          rw [String.append_right_inj, String.append_right_inj] at tails
          rw [ih (fun z member => plain z (List.mem_cons_of_mem _ member)) vs ws later others tails]

end Description

namespace Frame

variable {f : Frame} {ρ σ : Valuation}

theorem value_in_only {v : Variable} (state : v ∈ f.stateVars) (sized : v.Sized) {value : String} (stored : v.Stores false value ρ) :
    valueIn (f.only ρ) v = some value := by
  obtain ⟨index, here, coded⟩ := stored
  have less := (List.getElem?_eq_some_iff.mp here).1
  have meets : ∀ i < v.domain.length, (f.only ρ).meets (v.valueRegion false i) = true ↔ i = index := by
    intro i inside
    rw [Region.meets_members]
    constructor
    · rintro ⟨σ, only, code⟩
      have same := state_of_eq_iff.mp (mem_only.mp only)
      refine Variable.code_unique sized.bits inside less code (mem_code.mpr fun entry listed => ?_)
      rw [same entry.1 (bits_state state entry.1 (List.fst_mem_of_mem_zipIdx listed))]
      exact coded entry listed
    · rintro rfl
      exact ⟨ρ, mem_only.mpr rfl, mem_code.mpr coded⟩
  unfold valueIn
  generalize found : v.domain.zipIdx.find? _ = first
  cases first with
  | none =>
      have missing := List.find?_eq_none.mp found (value, index) (List.mem_zipIdx_iff_getElem?.mpr here)
      exact absurd ((meets index less).mpr rfl) missing
  | some entry =>
      obtain ⟨text, place⟩ := entry
      have listed := List.mem_zipIdx_iff_getElem?.mp (List.mem_of_find?_eq_some found)
      have region := List.find?_some found
      obtain rfl := (meets place (List.getElem?_eq_some_iff.mp listed).1).mp region
      exact listed.symm.trans here

def Tells (vars : List Variable) (values : List String) (ρ : Valuation) : Prop :=
  List.Forall₂ (fun v value => v.Stores false value ρ) vars values

theorem describe_only (sized : ∀ v ∈ f.stateVars, v.Sized) {values : List String} (tells : Tells f.stateVars values ρ) :
    f.describe (f.only ρ) = pairsText (f.stateVars.map (·.name)) values := by
  have parts : ∀ vars ⊆ f.stateVars, ∀ values, Tells vars values ρ →
      (vars.filterMap fun v => (valueIn (f.only ρ) v).map fun value => v.name ++ "=" ++ value) =
        List.zipWith (fun name value => name ++ "=" ++ value) (vars.map (·.name)) values := by
    intro vars within values tells
    induction tells with
    | nil => rfl
    | @cons v value vars values stored _ ih =>
        obtain ⟨state, others⟩ := List.cons_subset.mp within
        rw [List.filterMap_cons, value_in_only state (sized v state) stored, List.map_cons, List.zipWith_cons_cons, ← ih others]
        rfl
  exact congrArg (" ".intercalate) (parts _ (List.Subset.refl _) _ tells)

theorem exists_tells (mask : ρ ∈ f.statesMask.members) : ∃ values, Tells f.stateVars values ρ := by
  rw [f.states_mask_eq, mem_mask_all] at mask
  generalize f.stateVars = vars at mask
  induction vars with
  | nil => exact ⟨[], .nil⟩
  | cons v rest ih =>
      obtain ⟨⟨value, here⟩, others⟩ := List.forall_mem_cons.mp mask
      obtain ⟨values, all⟩ := ih others
      exact ⟨value :: values, .cons here all⟩

theorem Tells.same (sized : ∀ v ∈ f.stateVars, v.Sized) {values : List String} (first : Tells f.stateVars values ρ)
    (second : Tells f.stateVars values σ) : f.stateOf ρ = f.stateOf σ := by
  have each : ∀ v ∈ f.stateVars, ∃ value, v.Stores false value ρ ∧ v.Stores false value σ := by
    unfold Tells at first second
    generalize f.stateVars = vars at first second
    induction first with
    | nil => simp
    | @cons v value _ _ here _ ih =>
        cases second with
        | cons there others => exact List.forall_mem_cons.mpr ⟨⟨value, here, there⟩, ih others⟩
  refine state_of_eq_iff.mpr fun b state => ?_
  obtain ⟨v, listed, bit⟩ := List.mem_flatMap.mp state
  obtain ⟨value, here, there⟩ := each v listed
  exact here.same there (sized v listed).nodup bit

theorem Tells.stored {vars : List Variable} {values : List String} (tells : Tells vars values ρ) : ∀ v ∈ vars, ∃ value, v.Stores false value ρ := by
  induction tells with
  | nil => simp
  | @cons v value _ _ here _ ih => exact List.forall_mem_cons.mpr ⟨⟨value, here⟩, ih⟩

theorem Tells.unique {vars : List Variable} (sized : ∀ v ∈ vars, v.Sized) {vs ws : List String} (first : Tells vars vs ρ)
    (second : Tells vars ws ρ) : vs = ws := by
  induction first generalizing ws with
  | nil => exact (List.forall₂_nil_left_iff.mp second).symm
  | @cons v value _ _ here _ ih =>
      obtain ⟨own, others⟩ := List.forall_mem_cons.mp sized
      cases second with
      | cons there later =>
          obtain ⟨place, same, stored⟩ := here
          obtain ⟨placeToo, sameToo, storedToo⟩ := there
          obtain rfl : place = placeToo := Variable.code_unique own.bits (List.getElem?_eq_some_iff.mp same).1
            (List.getElem?_eq_some_iff.mp sameToo).1 (mem_code.mpr stored) (mem_code.mpr storedToo)
          rw [ih others later, Option.some.inj (same.symm.trans sameToo)]

theorem Tells.congr {values : List String} (tells : Tells f.stateVars values ρ) (same : f.stateOf ρ = f.stateOf σ) :
    Tells f.stateVars values σ := by
  have within : ∀ v ∈ f.stateVars, ∀ b ∈ v.bits, ρ b = σ b := fun v state b bit => state_of_eq_iff.mp same b (bits_state state b bit)
  unfold Tells at tells ⊢
  generalize f.stateVars = vars at tells within
  induction tells with
  | nil => exact .nil
  | @cons v value _ _ here _ ih =>
      obtain ⟨own, others⟩ := List.forall_mem_cons.mp within
      obtain ⟨place, known, stored⟩ := here
      refine .cons ⟨place, known, fun entry listed => ?_⟩ (ih others)
      rw [← own entry.1 (List.fst_mem_of_mem_zipIdx listed), stored entry listed]

theorem exists_state (laid : f.Laid) {values : List String} (fit : List.Forall₂ (fun v value => value ∈ v.domain) f.stateVars values) :
    ∃ ρ ∈ f.statesMask.members, Tells f.stateVars values ρ := by
  obtain ⟨length, fits⟩ := List.forall₂_iff_zip.mp fit
  have bits : ((f.stateVars.zip values).flatMap fun entry => entry.1.bits) = f.stateBits := by
    rw [← List.flatMap_map (f := Prod.fst) (g := fun v : Variable => v.bits), List.map_fst_zip length.le]
    rfl
  obtain ⟨ρ, code⟩ := exists_code (fun entry : Variable × String => entry.1.bits) (bits ▸ laid.stateNodup)
    fun entry => entry.1.domain.idxOf entry.2
  have tells : Tells f.stateVars values ρ := by
    refine List.forall₂_iff_zip.mpr ⟨length, fun {v value} listed => ⟨_, ?_, mem_code.mp (code _ listed)⟩⟩
    have less := List.idxOf_lt_length_iff.mpr (fits listed)
    rw [List.getElem?_eq_getElem less, List.getElem_idxOf]
  refine ⟨ρ, ?_, tells⟩
  rw [f.states_mask_eq, mem_mask_all]
  exact tells.stored

end Frame

namespace System

variable {sys : System} {d : Description}

theorem Compiled.assigns (compiled : sys.Compiled d) {values : List String} :
    d.Assigns values ↔ List.Forall₂ (fun v value => value ∈ v.domain) sys.stateVars values := by
  have domains := Description.lay_states_domains 0 d.vars
  rw [← compiled.stateVars] at domains
  unfold Description.Assigns
  rw [← List.forall₂_map_left_iff (f := fun x : Domain => x.values) (R := fun domain value => value ∈ domain), ← domains,
    List.forall₂_map_left_iff]

-- No two states of a built system are described alike.
def DescribesApart (sys : System) : Prop :=
  ∀ c ∈ sys.allStates sys.statesMask, ∀ e ∈ sys.allStates sys.statesMask, sys.describe c = sys.describe e → c = e

theorem describes_apart_iff (built : d.build = .ok sys) : sys.DescribesApart ↔ d.TellsApart := by
  have wf := d.build_well_formed sys built
  have compiled := d.build_compiled sys built
  have sized : ∀ v ∈ sys.stateVars, v.Sized := fun v state => (compiled.sized v (List.mem_append_left _ state)).1
  have names : sys.stateVars.map (·.name) = d.vars.map (·.name) := by rw [compiled.stateVars, Description.lay_states_names]
  have mask := Frame.StateSet.mask sys.toFrame
  have text {ρ : Valuation} {values : List String} (tells : Frame.Tells sys.stateVars values ρ) :
      sys.describe (sys.only ρ) = pairsText (d.vars.map (·.name)) values := by
    rw [Frame.describe_only sized tells, names]
  constructor
  · intro apart vs ws first second same
    obtain ⟨ρ, here, tells⟩ := Frame.exists_state wf.laid (compiled.assigns.mp first)
    obtain ⟨σ, there, tellsToo⟩ := Frame.exists_state wf.laid (compiled.assigns.mp second)
    rw [← text tells, ← text tellsToo] at same
    have states := Frame.only_eq_iff.mp (apart _ (Frame.only_listed wf.laid mask here) _ (Frame.only_listed wf.laid mask there) same)
    exact (tells.congr states).unique sized tellsToo
  · intro apart c first e second same
    obtain ⟨u, here, _, rfl⟩ := (Frame.mem_all_states wf.laid mask).mp first
    obtain ⟨w, there, _, rfl⟩ := (Frame.mem_all_states wf.laid mask).mp second
    obtain ⟨vs, tells⟩ := Frame.exists_tells here
    obtain ⟨ws, tellsToo⟩ := Frame.exists_tells there
    rw [text tells, text tellsToo] at same
    have assigns {ρ : Valuation} {values : List String} (tells : Frame.Tells sys.stateVars values ρ) : d.Assigns values :=
      compiled.assigns.mpr (tells.imp fun _ _ ⟨_, own, _⟩ => List.mem_of_getElem? own)
    obtain rfl := apart vs ws (assigns tells) (assigns tellsToo) same
    exact Frame.only_eq_iff.mpr (tells.same sized tellsToo)

/-- Descriptions tell states apart exactly where texts tell the values of the state variables apart, and so they do if values end
plainly. -/
theorem descriptions_tell_states (built : d.build = .ok sys) :
    (sys.DescribesApart ↔ d.TellsApart) ∧ (d.EndsPlainly → sys.DescribesApart) :=
  ⟨describes_apart_iff built, fun plain => (describes_apart_iff built).mpr plain.tells_apart⟩

-- Two variables with values that go on with what looks like a pair.
def twins : Description where
  name := "twins"
  vars := [⟨"a", ["x", "x b=y"]⟩, ⟨"b", ["y", "y b=y"]⟩]

def colours : Description where
  name := "colours"
  vars := [⟨"lamp", ["off", "red", "dark red"]⟩, ⟨"b", ["y", "y b=y"]⟩]

theorem colours_plain : (∃ sys, colours.build = .ok sys) ∧ colours.EndsPlainly := by
  refine ⟨ok_of_is_ok (by decide +kernel), ?_⟩
  unfold Description.EndsPlainly
  decide

theorem descriptions_tell_states_twins :
    (∃ sys, colours.build = .ok sys ∧ sys.DescribesApart) ∧ ∃ sys, twins.build = .ok sys ∧ ¬sys.DescribesApart := by
  constructor
  · obtain ⟨⟨sys, built⟩, plain⟩ := colours_plain
    exact ⟨sys, built, (descriptions_tell_states built).2 plain⟩
  · obtain ⟨sys, built⟩ : ∃ sys, twins.build = .ok sys := ok_of_is_ok (by decide +kernel)
    refine ⟨sys, built, fun apart => ?_⟩
    have same := (descriptions_tell_states built).1.mp apart ["x b=y", "y"] ["x", "y b=y"] (.cons (by decide) (.cons (by decide) .nil))
      (.cons (by decide) (.cons (by decide) .nil)) (by decide)
    exact absurd same (by decide)

end System

end Coalition
