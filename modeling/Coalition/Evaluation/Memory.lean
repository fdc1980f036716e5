import Coalition.Evaluation.Counters
import Coalition.Strategy.Encoding
import Coalition.Strategy.Enumeration

-- What an evaluation remembers from formula to formula: counters, regions that belong to the system or to a team, encodings of
-- strategies, and answers for single states.

set_option autoImplicit false

namespace Coalition

/-- The states known to satisfy a formula and those known not to. -/
structure Known where
  yes : Region := .empty
  no : Region := .empty

structure Answers where
  entries : List (String × Known) := []

namespace Answers

def find? (a : Answers) (key : String) : Option Known := a.entries.lookup key

def put (a : Answers) (key : String) (known : Known) : Answers :=
  ⟨(key, known) :: a.entries.filter fun entry => entry.1 != key⟩

def touch (a : Answers) (key : String) : Answers :=
  match a.find? key with
  | some known => a.put key known
  | none => a

def store (a : Answers) (size : Nat) (key : String) (known : Known) : Answers :=
  ⟨(a.put key known).entries.take size⟩

end Answers

/-- An encoding, and its states without a fair outcome once they are known. -/
structure EncodingEntry where
  encoding : Encoding
  unfair : Option Region := none

structure Memory where
  recalled : Recall := {}
  counters : Counters := {}
  fair : Option Region := none
  permitsFair : List (String × Region) := []
  forcesUnfair : List (String × Region) := []
  encodings : List (String × EncodingEntry) := []
  answers : Answers := {}

/-- A computation that may fail; what it remembered and counted stays. -/
abbrev Eval (α : Type) := ExceptT Error (StateM Memory) α

namespace Eval

variable {α : Type}

def count (counter : Counter) (n : Nat) : Eval Unit :=
  modify fun m => { m with counters := m.counters.add counter n }

/-- The value of fixpoints, with their steps as iterations if there are any. -/
def counted (x : Counted Region) : Eval Region := do
  if 0 < x.steps then modify fun m => { m with counters := m.counters.perform x }
  return x.value

def ofExcept (x : Except Error α) : Eval α :=
  match x with
  | .ok a => pure a
  | .error e => throw e

/-- Count the decision of a strategic formula, whether it succeeds or not. -/
def deciding (x : Eval α) : Eval α := fun m =>
  let (r, m) := x.run m
  (r, { m with counters := (m.counters.add .strategicEvaluations 1).add .strategicTime 0 })

def protocol (sys : System) (t : Team) : Eval Region := do
  let (region, recalled) ← ofExcept ((← get).recalled.protocol sys t.names)
  modify fun m => { m with recalled }
  return region

def equivalence (sys : System) (t : Team) : Eval Region := do
  let (region, recalled) ← ofExcept ((← get).recalled.equivalence sys t.names)
  modify fun m => { m with recalled }
  return region

def unionEach (f : Region → Eval Region) : Enumeration Region → Region → Eval Region
  | .done, sat => pure sat
  | .fail e, _ => throw e
  | .item s tail, sat => do
      let r ← f s
      unionEach f (tail ()) (sat.union r)

end Eval

end Coalition
