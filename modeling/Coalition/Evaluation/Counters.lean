import Coalition.Region.Fixpoint

-- A counter has a row from the first time it is counted.

set_option autoImplicit false

namespace Coalition

inductive Counter where
  | cacheHits
  | cacheMisses
  | earlyStops
  | fixpointIterations
  | strategicEvaluations
  | strategicTime
  | strategies
  | strategyVariables
  | symbolicEncodings
deriving DecidableEq, Repr

namespace Counter

def all : List Counter :=
  [.cacheHits, .cacheMisses, .earlyStops, .fixpointIterations, .strategicEvaluations,
    .strategicTime, .strategies, .strategyVariables, .symbolicEncodings]

def name : Counter → String
  | .cacheHits => "cache_hits"
  | .cacheMisses => "cache_misses"
  | .earlyStops => "early_stops"
  | .fixpointIterations => "fixpoint_iterations"
  | .strategicEvaluations => "strategic_evaluations"
  | .strategicTime => "strategic_time"
  | .strategies => "strategies"
  | .strategyVariables => "strategy_variables"
  | .symbolicEncodings => "symbolic_encodings"

def unit : Counter → String
  | .strategicTime => "s"
  | _ => "count"

def description : Counter → String
  | .cacheHits => "partial search cache hits"
  | .cacheMisses => "partial search cache misses"
  | .earlyStops => "early terminations of the partial search"
  | .fixpointIterations => "fixpoint function applications"
  | .strategicEvaluations => "strategic sub-formulas decided"
  | .strategicTime => "time deciding strategic sub-formulas"
  | .strategies => "strategies evaluated"
  | .strategyVariables => "strategy variables added to the model"
  | .symbolicEncodings => "symbolic strategy encodings built"

end Counter

structure Counters where
  counts : List (Counter × Nat) := []
  performed : List (Counted Region) := []

namespace Counters

def value? (c : Counters) (counter : Counter) : Option Nat := c.counts.lookup counter

def value (c : Counters) (counter : Counter) : Nat := (c.value? counter).getD 0

def add (c : Counters) (counter : Counter) (n : Nat) : Counters :=
  { c with counts := (counter, c.value counter + n) :: c.counts.filter fun entry => entry.1 ≠ counter }

def perform (c : Counters) (x : Counted Region) : Counters :=
  { c.add .fixpointIterations x.steps with performed := x :: c.performed }

def table (c : Counters) (elapsed : String) : String :=
  let row (counter : Counter) : Option String :=
    (c.value? counter).map fun n =>
      let shown := if counter = .strategicTime then elapsed else s!"{n}"
      "| " ++ counter.name ++ " | " ++ shown ++ " | " ++ counter.unit ++ " | " ++
        counter.description ++ " |\n"
  "| Metric | Value | Unit | Description |\n|--------|-------|------|-------------|\n" ++
    String.join (Counter.all.filterMap row)

end Counters

end Coalition
