import Coalition.Region

-- Every application of the function is a step, and steps are counted beside the value.

set_option autoImplicit false

namespace Coalition

structure Counted (α : Type) where
  value : α
  steps : Nat

instance : Monad Counted where
  pure a := ⟨a, 0⟩
  bind x f :=
    let y := f x.value
    ⟨y.value, x.steps + y.steps⟩

namespace Counted

variable {α β : Type}

@[simp] theorem value_pure (a : α) : (pure a : Counted α).value = a := rfl

@[simp] theorem value_bind (x : Counted α) (f : α → Counted β) :
    (x >>= f).value = (f x.value).value := rfl

@[simp] theorem value_map (f : α → β) (x : Counted α) : (f <$> x).value = f x.value := rfl

end Counted

namespace Region

def iterate (f : Region → Counted Region) : (fuel : Nat) → Region → Counted Region
  | 0, x => ⟨x, 0⟩
  | fuel + 1, x =>
      let y := f x
      if y.value = x then ⟨x, y.steps + 1⟩
      else
        let z := iterate f fuel y.value
        ⟨z.value, y.steps + 1 + z.steps⟩

/-- The fixpoint reached from `start` over `vars` variables: a chain of regions has at most
`2 ^ vars` proper steps. -/
def fixpoint (vars : Nat) (start : Region) (f : Region → Counted Region) : Counted Region :=
  iterate f (Nat.pow 2 vars + 1) start

end Region

end Coalition
