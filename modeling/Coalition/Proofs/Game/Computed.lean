import Coalition.Proofs.Game.Arena
import Coalition.Proofs.Region.Fixpoint

-- When single steps are computed on regions, so are the fixpoints that say from where a goal is won.

set_option autoImplicit false

namespace Coalition

namespace Region

variable {f : Region → Counted Region} {regions : List Region} {ρ : Valuation} {vars : Set Nat}

theorem mem_union_over : ρ ∈ (unionOver f regions).value.members ↔ ∃ c ∈ regions, ρ ∈ (f c).value.members := by
  induction regions with
  | nil => simp [unionOver]
  | cons c rest ih => simp only [unionOver, Counted.value_bind, Counted.value_pure, members_union, Set.mem_union, ih, List.mem_cons,
      exists_eq_or_imp]

theorem mem_inter_over {start : Region} :
    ρ ∈ (interOver start f regions).value.members ↔ ρ ∈ start.members ∧ ∀ c ∈ regions, ρ ∈ (f c).value.members := by
  induction regions with
  | nil => simp [interOver]
  | cons c rest ih =>
      rw [List.forall_mem_cons, and_left_comm, ← ih]
      show ρ ∈ members (inter _ _) ↔ _
      rw [members_inter, Set.mem_inter_iff]

theorem reads_inter_over {start : Region} (known : start.Reads vars) (reads : ∀ c ∈ regions, (f c).value.Reads vars) :
    (interOver start f regions).value.Reads vars := by
  induction regions with
  | nil => exact known
  | cons c rest ih => exact (reads c List.mem_cons_self).inter (ih fun d listed => reads d (List.mem_cons_of_mem _ listed))

theorem reads_union_over (reads : ∀ c ∈ regions, (f c).value.Reads vars) : (unionOver f regions).value.Reads vars := by
  induction regions with
  | nil => exact reads_empty vars
  | cons c rest ih => exact (reads c List.mem_cons_self).union (ih fun d listed => reads d (List.mem_cons_of_mem _ listed))

theorem univ_inter (s : Region) : univ.inter s = s := members_injective (by simp)

theorem empty_union (s : Region) : empty.union s = s := members_injective (by simp)

end Region

-- Regions of a kind hold the positions of an arena, and its steps are computed on them.
structure Computed (a : Arena Valuation) (n : Nat) (K : Region → Prop) (top : Region) (fairness : List Region)
    (force outside : Region → Region) : Prop where
  reads : ∀ r, K r → r.Reads (Finset.range n : Finset Nat)
  empty : K .empty
  union : ∀ r s, K r → K s → K (r.union s)
  inter : ∀ r s, K r → K s → K (r.inter s)
  whole : K top
  top : top.members = a.top
  forces : ∀ r, K r → K (force r) ∧ (force r).members = a.force r.members
  leaves : ∀ c ∈ fairness, K (outside c) ∧ (outside c).members = a.top \ c.members
  constraints : a.constraints = fairness.map (·.members)

namespace Computed

open Region

variable {a : Arena Valuation} {n : Nat} {K : Region → Prop} {top : Region} {fairness : List Region} {force outside : Region → Region}
  {stay goal z left right bad : Region}

section

variable (computed : Computed a n K top fairness force outside)

include computed

theorem fair : a.constraints.isEmpty = fairness.isEmpty := by rw [computed.constraints, List.isEmpty_map]

theorem mem_constraints {d : Set Valuation} : d ∈ a.constraints ↔ ∃ c ∈ fairness, c.members = d := by
  rw [computed.constraints]
  exact List.mem_map

theorem avoid (stays : ∀ r, K r → K (stay.inter r)) (goalKnown : K goal) (goalTop : goal.members ⊆ a.top) (zKnown : K z) {c : Region}
    (listed : c ∈ fairness) :
    let avoid := fixpoint n top fun y => pure ((stay.inter (z.union (outside c))).inter (goal.union (force y)))
    K avoid.value ∧ avoid.value.members = OrderHom.gfp (a.avoid stay.members goal.members c.members z.members) := by
  obtain ⟨outKnown, outMembers⟩ := computed.leaves c listed
  have place := stays _ (computed.union _ _ zKnown outKnown)
  refine members_greatest (f := fun y => pure ((stay.inter (z.union (outside c))).inter (goal.union (force y)))) computed.reads
    (fun r known => ?_) (fun r known => ?_) computed.whole fun X m member => ?_
  · exact computed.inter _ _ place (computed.union _ _ goalKnown (computed.forces r known).1)
  · rw [Counted.value_pure, members_inter, members_inter, members_union, members_union, outMembers, (computed.forces r known).2]
    rfl
  · rw [computed.top]
    rcases member.2 with won | forced
    · exact goalTop won
    · exact a.force_top _ forced

theorem escape (stays : ∀ r, K r → K (stay.inter r)) (goalKnown : K goal) (goalTop : goal.members ⊆ a.top) (zKnown : K z) :
    let escape := unionOver (fun c => do
      let avoid ← fixpoint n top fun y => pure ((stay.inter (z.union (outside c))).inter (goal.union (force y)))
      return force avoid) fairness
    K escape.value ∧ escape.value.members = a.escape stay.members goal.members z.members := by
  have avoids := fun c listed => computed.avoid (c := c) stays goalKnown goalTop zKnown listed
  constructor
  · have all : ∀ (g : Region → Counted Region) (cs : List Region), (∀ c ∈ cs, K (g c).value) → K (unionOver g cs).value := by
      intro g cs each
      induction cs with
      | nil => exact computed.empty
      | cons c rest ih =>
          exact computed.union _ _ (each c List.mem_cons_self) (ih fun d listed => each d (List.mem_cons_of_mem _ listed))
    exact all _ _ fun c listed => (computed.forces _ (avoids c listed).1).1
  · ext ρ
    rw [mem_union_over, Arena.mem_escape]
    simp only [computed.mem_constraints, exists_exists_and_eq_and]
    refine exists_congr fun c => and_congr_right fun listed => ?_
    obtain ⟨known, same⟩ := avoids c listed
    rw [← same, ← (computed.forces _ known).2]
    rfl

theorem unfair :
    let unfair := fixpoint n .empty fun z => unionOver (fun c => do
      let avoid ← fixpoint n top fun y => pure ((z.union (outside c)).inter (force y))
      return force avoid) fairness
    K unfair.value ∧ unfair.value.members = a.unfair := by
  have escapes := fun z known => @escape a n K top fairness force outside .univ .empty z computed
    (fun r known => by rwa [univ_inter]) computed.empty (by simp) known
  simp only [univ_inter, empty_union, members_univ, members_empty] at escapes
  exact members_least computed.reads (fun r known => (escapes r known).1) (fun r known => (escapes r known).2) computed.empty

theorem approach (leftKnown : K left) (rightKnown : K right) :
    let won := fixpoint n .empty fun z => pure (right.union (left.inter (force z)))
    K won.value ∧ won.value.members = OrderHom.lfp (a.approach left.members right.members) := by
  refine members_least (f := fun z => pure (right.union (left.inter (force z)))) computed.reads (fun r known => ?_) (fun r known => ?_)
    computed.empty
  · exact computed.union _ _ rightKnown (computed.inter _ _ leftKnown (computed.forces r known).1)
  · rw [Counted.value_pure, members_union, members_inter, (computed.forces r known).2]
    rfl

section

variable (leftKnown : K left) (rightKnown : K right) (badKnown : K bad) (same : bad.members = a.unfair)

include leftKnown rightKnown badKnown same

theorem staying : K ((right.union left).union bad) ∧
    ((right.union left).union bad).members = a.staying left.members right.members := by
  refine ⟨computed.union _ _ (computed.union _ _ rightKnown leftKnown) badKnown, ?_⟩
  rw [members_union, members_union, same]
  rfl

theorem approachFair (rightTop : right.members ⊆ a.top) :
    let stay := (right.union left).union bad
    let won := fixpoint n .empty fun z => do
      let won ← unionOver (fun c => do
        let avoid ← fixpoint n top fun y => pure ((stay.inter (z.union (outside c))).inter (right.union (force y)))
        return force avoid) fairness
      return stay.inter (right.union won)
    K won.value ∧ won.value.members = OrderHom.lfp (a.approachFair left.members right.members) := by
  obtain ⟨stayKnown, stayMembers⟩ := computed.staying leftKnown rightKnown badKnown same
  have escapes := fun z known => @escape a n K top fairness force outside ((right.union left).union bad) right z computed
    (fun r => computed.inter _ r stayKnown) rightKnown rightTop known
  refine members_least computed.reads (fun r known => ?_) (fun r known => ?_) computed.empty
  · exact computed.inter _ _ stayKnown (computed.union _ _ rightKnown (escapes r known).1)
  · rw [Counted.value_bind, Counted.value_pure, members_inter, stayMembers, members_union, (escapes r known).2, stayMembers]
    rfl

theorem weak (rightTop : right.members ⊆ a.top) :
    let won := fixpoint n top fun y => pure (((right.union left).union bad).inter (right.union (force y)))
    K won.value ∧ won.value.members = a.weak left.members right.members := by
  obtain ⟨stayKnown, stayMembers⟩ := computed.staying leftKnown rightKnown badKnown same
  refine members_greatest (f := fun y => pure (((right.union left).union bad).inter (right.union (force y)))) computed.reads
    (fun r known => ?_) (fun r known => ?_) computed.whole fun X m member => ?_
  · exact computed.inter _ _ stayKnown (computed.union _ _ rightKnown (computed.forces r known).1)
  · rw [Counted.value_pure, members_inter, stayMembers, members_union, (computed.forces r known).2]
    rfl
  · rw [computed.top]
    rcases member.2 with won | forced
    · exact rightTop won
    · exact a.force_top _ forced

end

end

end Computed

end Coalition
