import Coalition.Diagram.Combine

-- Projection: a set of variables is forgotten, and a valuation is kept when some values of the forgotten variables made it hold.

set_option autoImplicit false

namespace Coalition.Diagram

def project (hidden : Nat → Bool) : Diagram → Diagram
  | .leaf value => .leaf value
  | .node var low high =>
      if hidden var then combine or (low.project hidden) (high.project hidden)
      else join var (low.project hidden) (high.project hidden)

theorem shape_project (hidden : Nat → Bool) {d : Diagram} (canonical : d.Canonical) :
    (d.project hidden).Canonical ∧ ∀ bound, d.Above bound → (d.project hidden).Above bound := by
  induction d with
  | leaf => exact ⟨trivial, fun _ _ => trivial⟩
  | node var low high lowIh highIh =>
      obtain ⟨_, lowAbove, highAbove, lowCanonical, highCanonical⟩ := canonical
      have lowShape := lowIh lowCanonical
      have highShape := highIh highCanonical
      have lowAbove' := lowShape.2 _ lowAbove
      have highAbove' := highShape.2 _ highAbove
      unfold project
      split
      · have shape := shape_combine or lowShape.1 highShape.1
        exact ⟨shape.1, fun bound le => shape.2 bound
          (above_mono (Nat.le_succ_of_le le) lowAbove')
          (above_mono (Nat.le_succ_of_le le) highAbove')⟩
      · exact ⟨canonical_join lowAbove' highAbove' lowShape.1 highShape.1,
          fun bound le => above_join le lowAbove'⟩

structure Projected (hidden : Nat → Bool) where
  source : Diagram
  result : Diagram
  correct : result = source.project hidden

/-- The nodes built, the unions taken and the nodes projected so far. -/
structure Projecting (hidden : Nat → Bool) where
  merging : Merging or := {}
  projected : Memo (Projected hidden) := .empty

variable {hidden : Nat → Bool}

def findProjected (d : Diagram) :
    List (Projected hidden) → Option { r : Diagram // r = d.project hidden }
  | [] => none
  | p :: rest =>
      if same : p.source = d then some ⟨p.result, by rw [p.correct, same]⟩
      else findProjected d rest

def forget : (d : Diagram) → Projecting hidden →
    { r : Diagram // r = d.project hidden } × Projecting hidden
  | .leaf value, work => (⟨.leaf value, rfl⟩, work)
  | .node var low high, work =>
      let source := Diagram.node var low high
      match findProjected source (work.projected.find source.key (spread source.key)) with
      | some r => (r, work)
      | none =>
          let (l, work) := forget low work
          let (h, ⟨merging, projected⟩) := forget high work
          if hide : hidden var then
            let (r, merging) := merge l.1 h.1 merging
            have correct : r.1 = source.project hidden := by
              rw [r.2, l.2, h.2, project, if_pos hide]
            (⟨r.1, correct⟩,
              ⟨merging, projected.insert source.key ⟨source, r.1, correct⟩ (spread source.key)⟩)
          else
            let ⟨nodes, merged⟩ := merging
            let (r, nodes) := shareJoin nodes var l.1 h.1
            have correct : r.1 = source.project hidden := by
              rw [r.2, l.2, h.2, project, if_neg hide]
            (⟨r.1, correct⟩, ⟨⟨nodes, merged⟩,
              projected.insert source.key ⟨source, r.1, correct⟩ (spread source.key)⟩)

def AgreeOutside (hidden : Nat → Bool) (ρ σ : Valuation) : Prop :=
  ∀ v, hidden v = false → ρ v = σ v

-- A projection holds where some choice of the hidden variables does.
theorem holds_project (hidden : Nat → Bool) {d : Diagram} (canonical : d.Canonical)
    (ρ : Valuation) : (d.project hidden).holds ρ = true ↔
      ∃ σ, AgreeOutside hidden σ ρ ∧ d.holds σ = true := by
  induction d with
  | leaf value => exact ⟨fun h => ⟨ρ, fun _ _ => rfl, h⟩, fun ⟨_, _, h⟩ => h⟩
  | node var low high lowIh highIh =>
      obtain ⟨different, lowAbove, highAbove, lowCanonical, highCanonical⟩ := canonical
      have whole : (node var low high).Canonical :=
        ⟨different, lowAbove, highAbove, lowCanonical, highCanonical⟩
      unfold project
      split
      · rename_i hide
        rw [holds_combine, Bool.or_eq_true, lowIh lowCanonical, highIh highCanonical]
        constructor
        · rintro (⟨σ, agree, holds⟩ | ⟨σ, agree, holds⟩)
          · refine ⟨Valuation.set σ var false, fun v shown => ?_, by rw [holds_low whole, holds]⟩
            have other : v ≠ var := fun eq => by rw [eq, hide] at shown; cases shown
            simp only [Valuation.set, if_neg other, agree v shown]
          · refine ⟨Valuation.set σ var true, fun v shown => ?_, by rw [holds_high whole, holds]⟩
            have other : v ≠ var := fun eq => by rw [eq, hide] at shown; cases shown
            simp only [Valuation.set, if_neg other, agree v shown]
        · rintro ⟨σ, agree, holds⟩
          cases value : σ var with
          | false => exact .inl ⟨σ, agree, by simpa [Diagram.holds, value] using holds⟩
          | true => exact .inr ⟨σ, agree, by simpa [Diagram.holds, value] using holds⟩
      · rename_i hide
        have shown : hidden var = false := by simpa using hide
        rw [holds_join]
        constructor
        · intro holds
          cases value : ρ var with
          | false =>
              rw [value] at holds
              obtain ⟨σ, agree, holds⟩ := (lowIh lowCanonical).1 holds
              exact ⟨σ, agree, by simp [Diagram.holds, agree var shown, value, holds]⟩
          | true =>
              rw [value] at holds
              obtain ⟨σ, agree, holds⟩ := (highIh highCanonical).1 holds
              exact ⟨σ, agree, by simp [Diagram.holds, agree var shown, value, holds]⟩
        · rintro ⟨σ, agree, holds⟩
          have same := agree var shown
          cases value : ρ var with
          | false =>
              rw [value] at same
              exact (lowIh lowCanonical).2 ⟨σ, agree, by simpa [Diagram.holds, same] using holds⟩
          | true =>
              rw [value] at same
              exact (highIh highCanonical).2 ⟨σ, agree, by simpa [Diagram.holds, same] using holds⟩

end Coalition.Diagram
