-- Decision diagrams over numbered Boolean variables.

set_option autoImplicit false

namespace Coalition

abbrev Valuation := Nat → Bool

def Valuation.set (ρ : Valuation) (var : Nat) (value : Bool) : Valuation :=
  fun v => if v = var then value else ρ v

inductive Diagram where
  | leaf (value : Bool)
  | node (var : Nat) (low high : Diagram)
with
  /-- A number that equal diagrams share and different ones rarely do. -/
  @[computed_field] key : Diagram → UInt64
    | .leaf value => if value then 11 else 7
    | .node var low high =>
        (low.key * 6364136223846793005 + high.key) * 3935559000370003845 +
          var.toUInt64 * 2862933555777941757 + 1442695040888963407

namespace Diagram

def sameKey (a b : Diagram) : Bool := a.key == b.key

theorem same_key_self (a : Diagram) : a.sameKey a = true := by
  simp [sameKey]

/-- Equality, settled at once for a shared node and for two nodes of different keys. -/
def decEq (a b : Diagram) : Decidable (a = b) :=
  withPtrEqDecEq a b fun _ =>
    match a, b with
    | .leaf x, .leaf y =>
        if same : x = y then .isTrue (same ▸ rfl) else .isFalse fun eq => by cases eq; exact same rfl
    | .leaf _, .node .. => .isFalse nofun
    | .node .., .leaf _ => .isFalse nofun
    | .node v l h, .node w l' h' =>
        match keys : sameKey (.node v l h) (.node w l' h') with
        | false => .isFalse fun eq => by rw [eq, same_key_self] at keys; cases keys
        | true =>
            match decEq l l' with
            | .isFalse low => .isFalse fun eq => by cases eq; exact low rfl
            | .isTrue low =>
                match decEq h h' with
                | .isFalse high => .isFalse fun eq => by cases eq; exact high rfl
                | .isTrue high =>
                    if var : v = w then .isTrue (by rw [low, high, var])
                    else .isFalse fun eq => by cases eq; exact var rfl

instance : DecidableEq Diagram := decEq

instance : Inhabited Diagram := ⟨.leaf false⟩

def holds : Diagram → Valuation → Bool
  | .leaf value, _ => value
  | .node var low high, ρ => if ρ var then high.holds ρ else low.holds ρ

def Above (bound : Nat) : Diagram → Prop
  | .leaf _ => True
  | .node var _ _ => bound ≤ var

def Canonical : Diagram → Prop
  | .leaf _ => True
  | .node var low high =>
      low ≠ high ∧ low.Above (var + 1) ∧ high.Above (var + 1) ∧ low.Canonical ∧ high.Canonical

def join (var : Nat) (low high : Diagram) : Diagram :=
  if low = high then low else .node var low high

theorem above_mono {a b : Nat} {d : Diagram} (le : a ≤ b) (above : d.Above b) : d.Above a := by
  cases d with
  | leaf => trivial
  | node var low high => exact Nat.le_trans le above

@[simp] theorem holds_join (var : Nat) (low high : Diagram) (ρ : Valuation) :
    (join var low high).holds ρ = if ρ var then high.holds ρ else low.holds ρ := by
  unfold join
  split
  · rename_i same
    subst same
    simp
  · rfl

theorem above_join {bound var : Nat} {low high : Diagram} (le : bound ≤ var)
    (lowAbove : low.Above (var + 1)) : (join var low high).Above bound := by
  unfold join
  split
  · exact above_mono (by omega) lowAbove
  · exact le

theorem canonical_join {var : Nat} {low high : Diagram} (lowAbove : low.Above (var + 1))
    (highAbove : high.Above (var + 1)) (lowCanonical : low.Canonical)
    (highCanonical : high.Canonical) : (join var low high).Canonical := by
  unfold join
  split
  · exact lowCanonical
  · rename_i different
    exact ⟨different, lowAbove, highAbove, lowCanonical, highCanonical⟩

theorem holds_congr {d : Diagram} {bound : Nat} {ρ σ : Valuation} (canonical : d.Canonical)
    (above : d.Above bound) (agree : ∀ v, bound ≤ v → ρ v = σ v) : d.holds ρ = d.holds σ := by
  induction d generalizing bound with
  | leaf => rfl
  | node var low high lowIh highIh =>
      obtain ⟨_, lowAbove, highAbove, lowCanonical, highCanonical⟩ := canonical
      have above' : bound ≤ var := above
      have later : ∀ v, var + 1 ≤ v → ρ v = σ v := fun v le => agree v (by omega)
      simp only [holds, agree var above', lowIh lowCanonical lowAbove later,
        highIh highCanonical highAbove later]

theorem holds_low {var : Nat} {low high : Diagram} (canonical : (node var low high).Canonical)
    (ρ : Valuation) : (node var low high).holds (Valuation.set ρ var false) = low.holds ρ := by
  obtain ⟨_, lowAbove, _, lowCanonical, _⟩ := canonical
  have same : low.holds (Valuation.set ρ var false) = low.holds ρ :=
    holds_congr lowCanonical lowAbove fun v le => by
      simp only [Valuation.set, if_neg (show v ≠ var by omega)]
  simpa [holds, Valuation.set] using same

theorem holds_high {var : Nat} {low high : Diagram} (canonical : (node var low high).Canonical)
    (ρ : Valuation) : (node var low high).holds (Valuation.set ρ var true) = high.holds ρ := by
  obtain ⟨_, _, highAbove, _, highCanonical⟩ := canonical
  have same : high.holds (Valuation.set ρ var true) = high.holds ρ :=
    holds_congr highCanonical highAbove fun v le => by
      simp only [Valuation.set, if_neg (show v ≠ var by omega)]
  simpa [holds, Valuation.set] using same

theorem eq_of_holds_above {a : Diagram} {var : Nat} {low high : Diagram} (aAbove : a.Above (var + 1))
    (aCanonical : a.Canonical) (canonical : (node var low high).Canonical)
    (agree : ∀ ρ, a.holds ρ = (node var low high).holds ρ) (ρ : Valuation) :
    low.holds ρ = high.holds ρ := by
  have unchanged : ∀ value, a.holds (Valuation.set ρ var value) = a.holds ρ := fun value =>
    holds_congr aCanonical aAbove fun v le => by
      simp only [Valuation.set, if_neg (show v ≠ var by omega)]
  rw [← holds_low canonical, ← holds_high canonical, ← agree, ← agree, unchanged, unchanged]

theorem eq_of_holds (a b : Diagram) (aCanonical : a.Canonical) (bCanonical : b.Canonical)
    (agree : ∀ ρ, a.holds ρ = b.holds ρ) : a = b := by
  induction a generalizing b with
  | leaf x =>
      induction b with
      | leaf y => exact congrArg leaf (agree fun _ => false)
      | node w l h lowIh highIh =>
          have lowSame : leaf x = l := lowIh bCanonical.2.2.2.1 fun ρ => by
            rw [← holds_low bCanonical, ← agree]; rfl
          have highSame : leaf x = h := highIh bCanonical.2.2.2.2 fun ρ => by
            rw [← holds_high bCanonical, ← agree]; rfl
          exact absurd (lowSame.symm.trans highSame) bCanonical.1
  | node v low high lowIh highIh =>
      induction b with
      | leaf y =>
          have lowSame := lowIh (leaf y) aCanonical.2.2.2.1 trivial fun ρ => by
            rw [← holds_low aCanonical, agree]; rfl
          have highSame := highIh (leaf y) aCanonical.2.2.2.2 trivial fun ρ => by
            rw [← holds_high aCanonical, agree]; rfl
          exact absurd (lowSame.trans highSame.symm) aCanonical.1
      | node w l h lowIh' highIh' =>
          rcases Nat.lt_trichotomy v w with less | same | more
          · have both := eq_of_holds_above (a := node w l h) less bCanonical aCanonical
              fun ρ => (agree ρ).symm
            exact absurd (lowIh high aCanonical.2.2.2.1 aCanonical.2.2.2.2 both) aCanonical.1
          · subst same
            have lowSame := lowIh l aCanonical.2.2.2.1 bCanonical.2.2.2.1 fun ρ => by
              rw [← holds_low aCanonical, ← holds_low bCanonical, agree]
            have highSame := highIh h aCanonical.2.2.2.2 bCanonical.2.2.2.2 fun ρ => by
              rw [← holds_high aCanonical, ← holds_high bCanonical, agree]
            rw [lowSame, highSame]
          · have aAbove : (node v low high).Above (w + 1) := more
            have lowSame := lowIh' bCanonical.2.2.2.1 fun ρ => by
              rw [← holds_low bCanonical, ← agree]
              exact holds_congr aCanonical aAbove fun u le => by
                simp only [Valuation.set, if_neg (show u ≠ w by omega)]
            have highSame := highIh' bCanonical.2.2.2.2 fun ρ => by
              rw [← holds_high bCanonical, ← agree]
              exact holds_congr aCanonical aAbove fun u le => by
                simp only [Valuation.set, if_neg (show u ≠ w by omega)]
            exact absurd (lowSame.symm.trans highSame) bCanonical.1

end Diagram

end Coalition
