import Mathlib.Data.List.GetD
import Coalition.Proofs.Region.Loop
import Coalition.Strategy.Goal

-- A plan says which operations and which loops a computation is made of, so that the loops it goes through can be listed, those inside of
-- other loops once for every region that the outer loop comes to.

set_option autoImplicit false

namespace Coalition

-- How a region is computed from the regions that the loops around have come to.
inductive Plan where
  | const (r : Region)
  -- The region of the loop at a place, counted from the innermost one.
  | var (place : Nat)
  | inter (p q : Plan)
  | union (p q : Plan)
  | image (f : Region → Region) (p : Plan)
  | loop (direction : Direction) (start : Region) (body : Plan)
  -- Compute a region first, outside of all loops.
  | given (p : Plan) (rest : Region → Plan)

namespace Plan

def eval (n : Nat) : Plan → List Region → Counted Region
  | const r, _ => pure r
  | var place, around => pure (around.getD place .empty)
  | inter p q, around => do return (← p.eval n around).inter (← q.eval n around)
  | union p q, around => do return (← p.eval n around).union (← q.eval n around)
  | image f p, around => do return f (← p.eval n around)
  | loop _ start body, around => Region.fixpoint n start fun r => body.eval n (r :: around)
  | given p rest, around => do (rest (← p.eval n [])).eval n around

def loops (n : Nat) : Plan → List Region → List Loop
  | const _, _ => []
  | var _, _ => []
  | inter p q, around => p.loops n around ++ q.loops n around
  | union p q, around => p.loops n around ++ q.loops n around
  | image _ p, around => p.loops n around
  | loop direction start body, around =>
      let l : Loop := ⟨direction, start, fun r => body.eval n (r :: around)⟩
      l :: (l.visited n).flatMap fun r => body.loops n (r :: around)
  | given p rest, around => p.loops n [] ++ (rest (p.eval n []).value).loops n around

def interOver (start : Plan) (body : Region → Plan) (regions : List Region) : Plan :=
  regions.foldr (fun c rest => .inter (body c) rest) start

def unionOver (body : Region → Plan) (regions : List Region) : Plan :=
  regions.foldr (fun c rest => .union (body c) rest) (.const .empty)

variable {n : Nat} {around more : List Region}

theorem eval_loop {direction : Direction} {start : Region} {body : Plan} {f : Region → Counted Region}
    (same : ∀ r, f r = body.eval n (r :: around)) : Region.fixpoint n start f = (loop direction start body).eval n around :=
  congrArg (Region.fixpoint n start) (funext same)

theorem eval_image {f : Region → Region} {p : Plan} {x : Counted Region} (same : x = p.eval n around) :
    (do return f (← x)) = (image f p).eval n around :=
  congrArg (fun x : Counted Region => do return f (← x)) same

theorem eval_given {p : Plan} {rest : Region → Plan} {x : Counted Region} {f : Region → Counted Region} (first : x = p.eval n [])
    (later : ∀ r, f r = (rest r).eval n around) : (x >>= f) = (given p rest).eval n around := by
  rw [first, funext later]
  rfl

theorem eval_inter_over {start : Region} {body : Region → Plan} {f : Region → Counted Region} {regions : List Region}
    (same : ∀ c ∈ regions, f c = (body c).eval n around) :
    Region.interOver start f regions = (interOver (.const start) body regions).eval n around := by
  induction regions with
  | nil => rfl
  | cons c rest ih =>
      obtain ⟨first, others⟩ := List.forall_mem_cons.mp same
      show (do return (← f c).inter (← Region.interOver start f rest)) = _
      rw [first, ih others]
      rfl

theorem eval_union_over {body : Region → Plan} {f : Region → Counted Region} {regions : List Region}
    (same : ∀ c ∈ regions, f c = (body c).eval n around) :
    Region.unionOver f regions = (unionOver body regions).eval n around := by
  induction regions with
  | nil => rfl
  | cons c rest ih =>
      obtain ⟨first, others⟩ := List.forall_mem_cons.mp same
      show (do return (← f c).union (← Region.unionOver f rest)) = _
      rw [first, ih others]
      rfl

-- No loop is missing: the applications in all the loops are the steps that the computation counts.
theorem eval_steps (p : Plan) (around : List Region) :
    (p.eval n around).steps = ((p.loops n around).map fun l => (l.visited n).length).sum := by
  induction p generalizing around with
  | const r => rfl
  | var place => rfl
  | inter p q first second =>
      have split : ((inter p q).eval n around).steps = (p.eval n around).steps + (q.eval n around).steps := rfl
      rw [split, first, second, loops, List.map_append, List.sum_append]
  | union p q first second =>
      have split : ((union p q).eval n around).steps = (p.eval n around).steps + (q.eval n around).steps := rfl
      rw [split, first, second, loops, List.map_append, List.sum_append]
  | image f p ih => exact ih around
  | loop direction start body ih =>
      have inside : ∀ regions : List Region, (regions.map fun r => (body.eval n (r :: around)).steps + 1).sum =
          regions.length + ((regions.flatMap fun r => body.loops n (r :: around)).map fun l => (l.visited n).length).sum := by
        intro regions
        induction regions with
        | nil => rfl
        | cons r rest more =>
            rw [List.map_cons, List.sum_cons, more, ih, List.flatMap_cons, List.map_append, List.sum_append, List.length_cons]
            omega
      exact (Region.iterate_steps _ _).trans (inside _)
  | given p rest first later =>
      have split : ((given p rest).eval n around).steps = (p.eval n []).steps + ((rest (p.eval n []).value).eval n around).steps := rfl
      rw [split, first, later, loops, List.map_append, List.sum_append]

-- The operations of a plan keep inclusion and regions over `n` variables, and its loops do not turn back at the start.
def Regular (n : Nat) : Plan → Prop
  | const r => r.Over n
  | var _ => True
  | inter p q => p.Regular n ∧ q.Regular n
  | union p q => p.Regular n ∧ q.Regular n
  | image f p => Region.Isotone n f ∧ p.Regular n
  | loop direction start body => start.Over n ∧ body.Regular n ∧
      ∀ around : List Region, (∀ r ∈ around, r.Over n) → direction.le start (body.eval n (start :: around)).value
  | given p rest => p.Regular n ∧ (rest (p.eval n []).value).Regular n

theorem over_at (spans : ∀ r ∈ around, r.Over n) (place : Nat) : (around.getD place .empty).Over n := by
  by_cases within : place < around.length
  · rw [List.getD_eq_getElem _ _ within]
    exact spans _ (List.getElem_mem within)
  · rw [List.getD_eq_default _ _ (Nat.le_of_not_lt within)]
    exact Region.reads_empty _

theorem eval_over {p : Plan} (regular : p.Regular n) (spans : ∀ r ∈ around, r.Over n) : (p.eval n around).value.Over n := by
  induction p generalizing around with
  | const r => exact regular
  | var place => exact over_at spans place
  | inter p q first second => exact (first regular.1 spans).inter (second regular.2 spans)
  | union p q first second => exact (first regular.1 spans).union (second regular.2 spans)
  | image f p ih => exact regular.1.keeps _ (ih regular.2 spans)
  | loop direction start body ih =>
      obtain ⟨startOver, bodyRegular, _⟩ := regular
      exact (Region.fixpoint_induct (K := fun r => r.Over n) (P := fun _ => True)
        (fun r rOver => ih bodyRegular (List.forall_mem_cons.mpr ⟨rOver, spans⟩)) (fun _ _ _ => trivial) startOver trivial).1
  | given p rest first later => exact later _ regular.2 spans

abbrev Within (around more : List Region) : Prop := List.Forall₂ (fun r s : Region => r.members ⊆ s.members) around more

theorem within_at (within : Within around more) (place : Nat) :
    (around.getD place .empty).members ⊆ (more.getD place .empty).members := by
  induction within generalizing place with
  | nil => exact Set.Subset.refl _
  | cons le _ ih =>
      cases place with
      | zero => exact le
      | succ place => exact ih place

theorem within_refl (around : List Region) : Within around around := List.forall₂_same.mpr fun _ _ => Set.Subset.refl _

theorem loop_settles {direction : Direction} {start : Region} {body : Plan} (regular : (loop direction start body).Regular n)
    (mono : ∀ {around more : List Region}, (∀ r ∈ around, r.Over n) → (∀ r ∈ more, r.Over n) → Within around more →
      (body.eval n around).value.members ⊆ (body.eval n more).value.members) (spans : ∀ r ∈ around, r.Over n) :
    (Loop.mk direction start fun r => body.eval n (r :: around)).Settles n := by
  obtain ⟨startOver, bodyRegular, begins⟩ := regular
  refine Loop.settles startOver ⟨fun r rOver => eval_over bodyRegular (List.forall_mem_cons.mpr ⟨rOver, spans⟩), ?_⟩ (begins around spans)
  intro r s rOver sOver le
  exact mono (List.forall_mem_cons.mpr ⟨rOver, spans⟩) (List.forall_mem_cons.mpr ⟨sOver, spans⟩) (.cons le (within_refl around))

theorem eval_mono {p : Plan} (regular : p.Regular n) (spans : ∀ r ∈ around, r.Over n) (overToo : ∀ r ∈ more, r.Over n)
    (within : Within around more) : (p.eval n around).value.members ⊆ (p.eval n more).value.members := by
  induction p generalizing around more with
  | const r => exact Set.Subset.refl _
  | var place => exact within_at within place
  | inter p q first second =>
      show ((p.eval n around).value.inter _).members ⊆ ((p.eval n more).value.inter _).members
      rw [Region.members_inter, Region.members_inter]
      exact Set.inter_subset_inter (first regular.1 spans overToo within) (second regular.2 spans overToo within)
  | union p q first second =>
      show ((p.eval n around).value.union _).members ⊆ ((p.eval n more).value.union _).members
      rw [Region.members_union, Region.members_union]
      exact Set.union_subset_union (first regular.1 spans overToo within) (second regular.2 spans overToo within)
  | image f p ih => exact regular.1.mono _ _ (eval_over regular.2 spans) (eval_over regular.2 overToo) (ih regular.2 spans overToo within)
  | loop direction start body ih =>
      have settles := loop_settles regular (fun spans overToo within => ih regular.2.1 spans overToo within) spans
      have settlesToo := loop_settles regular (fun spans overToo within => ih regular.2.1 spans overToo within) overToo
      have farther : ∀ r : Region, r.Over n → (body.eval n (r :: around)).value.members ⊆ (body.eval n (r :: more)).value.members :=
        fun r rOver => ih regular.2.1 (List.forall_mem_cons.mpr ⟨rOver, spans⟩) (List.forall_mem_cons.mpr ⟨rOver, overToo⟩)
          (.cons (Set.Subset.refl _) within)
      -- a loop that shrinks ends farther from smaller regions
      cases direction with
      | up => exact Loop.run_le regular.1 settles settlesToo rfl rfl farther
      | down => exact Loop.run_le regular.1 settlesToo settles rfl rfl farther
  | given p rest first later => exact later _ regular.2 spans overToo within

-- All loops that a regular plan goes through settle.
theorem loops_settle {p : Plan} (regular : p.Regular n) (spans : ∀ r ∈ around, r.Over n) : ∀ l ∈ p.loops n around, l.Settles n := by
  induction p generalizing around with
  | const r => exact List.forall_mem_nil _
  | var place => exact List.forall_mem_nil _
  | inter p q first second => exact List.forall_mem_append.mpr ⟨first regular.1 spans, second regular.2 spans⟩
  | union p q first second => exact List.forall_mem_append.mpr ⟨first regular.1 spans, second regular.2 spans⟩
  | image f p ih => exact ih regular.2 spans
  | loop direction start body ih =>
      have inside : ∀ r : Region, r.Over n → ∀ s ∈ r :: around, s.Over n := fun r rOver => List.forall_mem_cons.mpr ⟨rOver, spans⟩
      refine List.forall_mem_cons.mpr ⟨loop_settles regular (eval_mono regular.2.1) spans, fun l listed => ?_⟩
      obtain ⟨r, reached, within⟩ := List.mem_flatMap.mp listed
      have keeps : ∀ r : Region, r.Over n → (body.eval n (r :: around)).value.Over n := fun r rOver =>
        eval_over regular.2.1 (inside r rOver)
      have rOver := Region.visited_keeps keeps _ _ regular.1 r reached
      exact ih regular.2.1 (inside r rOver) l within
  | given p rest first later => exact List.forall_mem_append.mpr ⟨first regular.1 (List.forall_mem_nil _), later _ regular.2 spans⟩

section

variable {start : Plan} {body : Region → Plan} {regions : List Region}

theorem regular_inter_over (first : start.Regular n) (each : ∀ c ∈ regions, (body c).Regular n) :
    (interOver start body regions).Regular n := by
  induction regions with
  | nil => exact first
  | cons c rest ih =>
      obtain ⟨here, others⟩ := List.forall_mem_cons.mp each
      exact ⟨here, ih others⟩

theorem regular_union_over (each : ∀ c ∈ regions, (body c).Regular n) : (unionOver body regions).Regular n := by
  induction regions with
  | nil => exact Region.reads_empty _
  | cons c rest ih =>
      obtain ⟨here, others⟩ := List.forall_mem_cons.mp each
      exact ⟨here, ih others⟩

theorem inter_over_subset (start : Plan) (body : Region → Plan) (regions : List Region) (around : List Region) :
    ((interOver start body regions).eval n around).value.members ⊆ (start.eval n around).value.members := by
  induction regions with
  | nil => exact Set.Subset.refl _
  | cons c rest ih => exact (Region.inter_subset_right _ _).trans ih

end

end Plan

end Coalition
