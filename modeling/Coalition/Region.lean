import Coalition.Diagram.Project
import Coalition.Diagram.Same
import Coalition.Diagram.Count

-- Regions: sets of valuations of Boolean variables.

set_option autoImplicit false

namespace Coalition

structure Region where
  diagram : Diagram
  canonical : diagram.Canonical

namespace Region

def contains (s : Region) (ρ : Valuation) : Bool := s.diagram.holds ρ

theorem diagram_injective {s t : Region} (same : s.diagram = t.diagram) : s = t := by
  cases s; cases t; cases same; rfl

theorem eq_of_contains {s t : Region} (agree : ∀ ρ, s.contains ρ = t.contains ρ) : s = t :=
  diagram_injective (Diagram.eq_of_holds _ _ s.canonical t.canonical agree)

instance : DecidableEq Region := fun s t =>
  match Diagram.decSame s.diagram t.diagram with
  | .isTrue same => .isTrue (diagram_injective same)
  | .isFalse different => .isFalse fun eq => different (congrArg diagram eq)

def empty : Region := ⟨.leaf false, trivial⟩

def univ : Region := ⟨.leaf true, trivial⟩

instance : Inhabited Region := ⟨empty⟩

def isEmpty (s : Region) : Bool :=
  match s.diagram with
  | .leaf value => !value
  | .node .. => false

def isUniv (s : Region) : Bool :=
  match s.diagram with
  | .leaf value => value
  | .node .. => false

def test (var : Nat) (value : Bool) : Region :=
  ⟨.node var (.leaf !value) (.leaf value), by cases value <;> simp [Diagram.Canonical, Diagram.Above]⟩

def pointwise (op : Bool → Bool → Bool) (s t : Region) : Region :=
  let r := (Diagram.merge s.diagram t.diagram ({} : Diagram.Merging op)).1
  ⟨r.1, by rw [r.2]; exact (Diagram.shape_combine op s.canonical t.canonical).1⟩

def inter (s t : Region) : Region := pointwise and s t

def union (s t : Region) : Region := pointwise or s t

def symmDiff (s t : Region) : Region := pointwise xor s t

def diff (s t : Region) : Region := pointwise (fun x y => x && !y) s t

def implies (s t : Region) : Region := pointwise (fun x y => !x || y) s t

def iff (s t : Region) : Region := pointwise (fun x y => x == y) s t

def compl (s : Region) : Region := pointwise xor s univ

/-- The valuations that are members for some values of the variables `hidden` selects. -/
def hideWhere (s : Region) (hidden : Nat → Bool) : Region :=
  let r := (Diagram.forget s.diagram ({} : Diagram.Projecting hidden)).1
  ⟨r.1, by rw [r.2]; exact (Diagram.shape_project hidden s.canonical).1⟩

def hide (s : Region) (vars : List Nat) : Region :=
  if vars.isEmpty then s else s.hideWhere fun v => vars.contains v

def keep (s : Region) (vars : List Nat) : Region := s.hideWhere fun v => !vars.contains v

def always (s : Region) (vars : List Nat) : Region := (s.compl.hide vars).compl

def subset (s t : Region) : Bool := (s.diff t).isEmpty

def meets (s t : Region) : Bool := !(s.inter t).isEmpty

/-- The valuations that give the listed variables the listed values. -/
def cell (values : List (Nat × Bool)) : Region :=
  values.foldl (fun s (var, value) => s.inter (test var value)) univ

def interAll (regions : List Region) : Region := regions.foldl inter univ

def unionAll (regions : List Region) : Region := regions.foldl union empty

@[simp] theorem contains_pointwise (op : Bool → Bool → Bool) (s t : Region) (ρ : Valuation) :
    (pointwise op s t).contains ρ = op (s.contains ρ) (t.contains ρ) := by
  have same := (Diagram.merge s.diagram t.diagram ({} : Diagram.Merging op)).1.2
  simp only [pointwise, contains, same, Diagram.holds_combine]

@[simp] theorem contains_empty (ρ : Valuation) : empty.contains ρ = false := rfl

@[simp] theorem contains_univ (ρ : Valuation) : univ.contains ρ = true := rfl

@[simp] theorem contains_test (var : Nat) (value : Bool) (ρ : Valuation) :
    (test var value).contains ρ = (ρ var == value) := by
  simp only [test, contains, Diagram.holds]
  cases ρ var <;> cases value <;> rfl

@[simp] theorem contains_inter (s t : Region) (ρ : Valuation) :
    (s.inter t).contains ρ = (s.contains ρ && t.contains ρ) := contains_pointwise _ s t ρ

@[simp] theorem contains_union (s t : Region) (ρ : Valuation) :
    (s.union t).contains ρ = (s.contains ρ || t.contains ρ) := contains_pointwise _ s t ρ

@[simp] theorem contains_symm_diff (s t : Region) (ρ : Valuation) :
    (s.symmDiff t).contains ρ = (s.contains ρ ^^ t.contains ρ) := contains_pointwise _ s t ρ

@[simp] theorem contains_diff (s t : Region) (ρ : Valuation) :
    (s.diff t).contains ρ = (s.contains ρ && !t.contains ρ) := contains_pointwise _ s t ρ

@[simp] theorem contains_implies (s t : Region) (ρ : Valuation) :
    (s.implies t).contains ρ = (!s.contains ρ || t.contains ρ) := contains_pointwise _ s t ρ

@[simp] theorem contains_iff (s t : Region) (ρ : Valuation) :
    (s.iff t).contains ρ = (s.contains ρ == t.contains ρ) := contains_pointwise _ s t ρ

@[simp] theorem contains_compl (s : Region) (ρ : Valuation) :
    s.compl.contains ρ = !s.contains ρ := by
  simp [compl]

theorem contains_hide_where (s : Region) (hidden : Nat → Bool) (ρ : Valuation) :
    (s.hideWhere hidden).contains ρ = true ↔
      ∃ σ, Diagram.AgreeOutside hidden σ ρ ∧ s.contains σ = true := by
  have same := (Diagram.forget s.diagram ({} : Diagram.Projecting hidden)).1.2
  simp only [hideWhere, contains, same, Diagram.holds_project hidden s.canonical]

theorem contains_hide (s : Region) (vars : List Nat) (ρ : Valuation) :
    (s.hide vars).contains ρ = true ↔
      ∃ σ, (∀ v, v ∉ vars → σ v = ρ v) ∧ s.contains σ = true := by
  unfold hide
  split
  · rename_i none
    have nil : vars = [] := List.isEmpty_iff.1 none
    subst nil
    constructor
    · exact fun member => ⟨ρ, fun _ _ => rfl, member⟩
    · rintro ⟨σ, agree, member⟩
      rwa [funext fun v => agree v List.not_mem_nil] at member
  · simp [contains_hide_where, Diagram.AgreeOutside]

theorem is_empty_iff (s : Region) : s.isEmpty = true ↔ ∀ ρ, s.contains ρ = false := by
  constructor
  · intro none ρ
    obtain ⟨diagram, canonical⟩ := s
    cases diagram with
    | leaf value => simpa [isEmpty, contains, Diagram.holds] using none
    | node => simp [isEmpty] at none
  · intro none
    have eq : s = empty := eq_of_contains fun ρ => by simp [none ρ]
    rw [eq]
    rfl

theorem subset_iff (s t : Region) :
    s.subset t = true ↔ ∀ ρ, s.contains ρ = true → t.contains ρ = true := by
  simp only [subset, is_empty_iff, contains_diff]
  constructor
  · intro none ρ member
    simpa [member] using none ρ
  · intro all ρ
    cases member : s.contains ρ with
    | false => rfl
    | true => simp [all ρ member]

theorem meets_iff (s t : Region) :
    s.meets t = true ↔ ∃ ρ, s.contains ρ = true ∧ t.contains ρ = true := by
  have flip : s.meets t = true ↔ ¬ (s.inter t).isEmpty = true := by simp [meets]
  rw [flip, is_empty_iff]
  simp

end Region

end Coalition
