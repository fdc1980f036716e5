import Coalition.Error
import Coalition.Number.Binary64
import Coalition.Text.Case

-- How formulas are evaluated: which algorithm decides what a coalition can force, what agents see, and how the search on requested states
-- goes about it.

set_option autoImplicit false

namespace Coalition

inductive Variant where
  /-- Split the protocol into uniform strategies, then filter each one. -/
  | splitFilter
  /-- Filter winning moves first and split only conflicting classes. -/
  | filterSplit
  | filterSplitFilter
  /-- Evaluate the requested states only, with strategies defined where they lead. -/
  | onRequest
  | symbolic
  | symbolicFiltered
deriving DecidableEq, Repr

inductive Observability where
  | limited
  | full
deriving DecidableEq, Repr

inductive Semantics where
  /-- One choice for all states the coalition together cannot tell apart. -/
  | group
  /-- Each member makes one choice for all states it cannot tell apart. -/
  | individual
deriving DecidableEq, Repr

inductive Separation where
  | none
  | random
  | reach
deriving DecidableEq, Repr

inductive Early where
  | none
  | full
  /-- When a strategy wins somewhere new; the search starts over on the rest. -/
  | progress
  | threshold
deriving DecidableEq, Repr

structure Choice (α : Type) where
  kind : String
  values : List (String × α)

namespace Choice

variable {α : Type}

def names (choice : Choice α) : List String := choice.values.map (·.1)

def nameAt (choice : Choice α) (place : Int) : String :=
  if 0 ≤ place then (choice.names[place.toNat]?).getD "unknown" else "unknown"

-- The entry a text names; blanks around it and case do not matter.
def entry? (choice : Choice α) (text : String) : Option ((String × α) × Nat) :=
  let name := Text.lower (Text.trimBlank text)
  choice.values.zipIdx.find? fun (entry, _) => entry.1 == name

def unknown (choice : Choice α) (text : String) : Error := .option choice.kind text choice.names

def read (choice : Choice α) (text : String) : Except Error α :=
  match choice.entry? text with
  | some ((_, value), _) => .ok value
  | none => .error (choice.unknown text)

def place (choice : Choice α) (text : String) : Except Error Nat :=
  match choice.entry? text with
  | some (_, place) => .ok place
  | none => .error (choice.unknown text)

def name [DecidableEq α] (choice : Choice α) (value : α) : String :=
  ((choice.values.find? fun entry => entry.2 = value).map (·.1)).getD "unknown"

end Choice

def Variant.choice : Choice Variant :=
  ⟨"variant", [("sf", .splitFilter), ("fs", .filterSplit), ("fsf", .filterSplitFilter),
    ("partial", .onRequest), ("symbolic", .symbolic), ("symbolic-filtered", .symbolicFiltered)]⟩

def Observability.choice : Choice Observability :=
  ⟨"observability", [("partial", .limited), ("full", .full)]⟩

def Semantics.choice : Choice Semantics :=
  ⟨"semantics", [("group", .group), ("individual", .individual)]⟩

def Separation.choice : Choice Separation :=
  ⟨"separation", [("none", .none), ("random", .random), ("reach", .reach)]⟩

def Early.choice : Choice Early :=
  ⟨"early termination",
    [("none", .none), ("full", .full), ("partial", .progress), ("threshold", .threshold)]⟩

def Variant.name (v : Variant) : String := Variant.choice.name v

def Observability.name (o : Observability) : String := Observability.choice.name o

def Semantics.name (s : Semantics) : String := Semantics.choice.name s

def Separation.name (s : Separation) : String := Separation.choice.name s

def Early.name (e : Early) : String := Early.choice.name e

structure Options where
  variant : Variant := .splitFilter
  observability : Observability := .limited
  semantics : Semantics := .group
  workers : Int := 1
  filtering : Bool := true
  separation : Separation := .none
  early : Early := .none
  threshold : Binary64 := .ofRatio false 1 2
  caching : Bool := false
  cacheSize : Int := 1024
deriving Repr

namespace Options

def normalize (o : Options) : Options :=
  { o with
    workers := max 1 o.workers
    threshold :=
      if o.threshold.isNegative then .zero
      else if o.threshold.atLeastOne then .ofRatio false 99 100
      else o.threshold
    cacheSize := if o.cacheSize ≤ 0 then 1024 else o.cacheSize }

/-- Normal options that can be used: an encoding of strategies has no individual semantics. -/
def checked (o : Options) : Except Error Options :=
  let o := o.normalize
  let encodes := o.variant = .symbolic ∨ o.variant = .symbolicFiltered
  if o.observability = .limited ∧ o.semantics = .individual ∧ encodes then
    .error (.unsupportedSemantics o.variant.name o.semantics.name)
  else .ok o

end Options

end Coalition
