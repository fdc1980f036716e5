import Coalition.Command.Flag
import Coalition.Number.Reader
import Coalition.Settings
import Coalition.Text.Case

-- The first argument that is neither a flag nor the value of one names the command; its flags may stand before or after that name.

set_option autoImplicit false

namespace Coalition

namespace Text

variable {α : Type} [BEq α]

-- The distances that end in one more letter `c`, from those that do not. The distance to the left
-- and the one left above are known.
def extendDistances (c : α) : (left corner : Nat) → List α → (above : List Nat) → List Nat
  | left, corner, t :: ts, up :: above =>
      let here := if c == t then corner else min left (min corner up) + 1
      here :: extendDistances c here up ts above
  | _, _, _, _ => []

-- The distances of `s` to the beginnings of `t`, by their lengths.
def distances (s t : List α) : List Nat :=
  s.foldl
    (fun row c =>
      match row with
      | [] => []
      | first :: above => (first + 1) :: extendDistances c (first + 1) first t above)
    (List.range (t.length + 1))

def distance (s t : List α) : Nat := ((distances s t).getLast?).getD 0

end Text

inductive Action where
  | check
  | watch
  | info
  | graph
  | freeChoice
deriving DecidableEq, Repr

def Action.name : Action → String
  | .check => "check"
  | .watch => "watch"
  | .info => "info"
  | .graph => "graph"
  | .freeChoice => "free-choice"

structure Request where
  help : Bool := false
  builtin : Bool := false
  variant : Option String := none
  observability : Option String := none
  semantics : Option String := none
  workers : Option Int := none
  logLevel : Option String := none
  filtering : Option Bool := none
  separation : Option String := none
  early : Option String := none
  threshold : Option Binary64 := none
  caching : Option Bool := none
  properties : List String := []
  stats : Bool := false
  format : String := "dot"
  limit : Option Int := none

namespace Request

def truthFlag (name : String) (set : Bool → Request → Request) : Flag Request where
  name := name
  alone := some "true"
  set text r := (Text.readTruth text).map fun value => set value r

def textFlag (name : String) (set : String → Request → Request) : Flag Request where
  name := name
  set text r := .ok (set text r)

def integerFlag (name : String) (set : Int → Request → Request) : Flag Request where
  name := name
  set text r := (Text.readInteger text).map fun value => set value r

def numberFlag (name : String) (set : Binary64 → Request → Request) : Flag Request where
  name := name
  set text r := (Binary64.read text).map fun value => set value r

def commonFlags : List (Flag Request) := [
  truthFlag "builtin" fun value r => { r with builtin := value },
  textFlag "variant" fun value r => { r with variant := some value },
  textFlag "observability" fun value r => { r with observability := some value },
  textFlag "semantics" fun value r => { r with semantics := some value },
  integerFlag "workers" fun value r => { r with workers := some value },
  textFlag "log-level" fun value r => { r with logLevel := some value },
  truthFlag "filtering" fun value r => { r with filtering := some value },
  textFlag "separation" fun value r => { r with separation := some value },
  textFlag "early" fun value r => { r with early := some value },
  numberFlag "threshold" fun value r => { r with threshold := some value },
  truthFlag "caching" fun value r => { r with caching := some value }]

def helpFlag : Flag Request :=
  { truthFlag "help" fun value r => { r with help := value } with letter := some 'h' }

def checkFlags : List (Flag Request) := [
  { textFlag "property" fun value r => { r with properties := r.properties ++ [value] } with
    letter := some 'p' },
  truthFlag "stats" fun value r => { r with stats := value }]

def limitFlag : Flag Request := integerFlag "limit" fun value r => { r with limit := some value }

def actionFlags : Action → List (Flag Request)
  | .check | .watch => checkFlags
  | .info => []
  | .graph => [textFlag "format" fun value r => { r with format := value }, limitFlag]
  | .freeChoice => [limitFlag]

def override (r : Request) (s : Settings) : Settings :=
  { s with
    variant := r.variant.getD s.variant
    observability := r.observability.getD s.observability
    semantics := r.semantics.getD s.semantics
    workers := r.workers.getD s.workers
    logLevel := r.logLevel.getD s.logLevel
    filtering := r.filtering.getD s.filtering
    separation := r.separation.getD s.separation
    early := r.early.getD s.early
    threshold := r.threshold.getD s.threshold
    caching := r.caching.getD s.caching }

end Request

-- What is to be done: an action on a model, or to explain the commands.
inductive Order where
  | explain
  | act (action : Action) (request : Request) (model : String)

namespace Order

def file? : Order → Option String
  | .act _ request model => if request.builtin then none else some model
  | .explain => none

def readsInput : Order → Bool
  | .act .check request _ => request.properties.isEmpty
  | _ => false

-- Whether an order is carried out again each time its file changes.
def repeats : Order → Bool
  | .act .watch _ _ => true
  | _ => false

-- Commands by their names; those without an action explain themselves.
def commands : List (String × Option Action) :=
  ([.check, .watch, .info, .graph, .freeChoice] : List Action).map (fun a => (a.name, some a)) ++
    [("help", none), ("completion", none)]

-- The arguments that are neither flags nor values of flags. A flag before the last argument hides
-- it, whatever it is.
def words : List String → List String
  | [] => []
  | argument :: rest =>
      if argument == "--" then []
      else if Flag.takesNext Request.commonFlags argument then
        match rest with
        | _ :: next :: rest => words (next :: rest)
        | _ => []
      else if argument.isEmpty || argument.startsWith "-" then words rest
      else argument :: words rest

def withoutName (name : String) : List String → List String
  | [] => []
  | argument :: rest =>
      if argument == "--" then argument :: rest
      else if Flag.takesNext Request.commonFlags argument then
        match rest with
        | [] => [argument]
        | value :: rest => argument :: value :: withoutName name rest
      else if argument == name then rest
      else argument :: withoutName name rest

-- Commands that a wrong name may stand for: it starts like them or is at most two letters off.
def similar (name : String) : List String :=
  let typed := Text.lower name
  (commands.map (·.1)).filter fun known =>
    known != "help" &&
      (known.startsWith typed || Text.distance typed.toUTF8.toList known.toUTF8.toList ≤ 2)

def readAction (action : Action) (arguments : List String) : Except LineFault Order := do
  let flags := Request.commonFlags ++ Request.actionFlags action ++ [Request.helpFlag]
  let (request, others) ← Flag.read flags {} arguments
  if request.help then return .explain
  match others with
  | [model] => return .act action request model
  | _ => throw (.argumentCount others.length)

def read (arguments : List String) : Except LineFault Order := do
  let explain (arguments : List String) : Except LineFault Order := do
    let _ ← Flag.read (Request.commonFlags ++ [Request.helpFlag]) {} arguments
    return .explain
  match words arguments with
  | [] => explain arguments
  | name :: _ =>
      match commands.lookup name with
      | none => throw (.unknownCommand name (similar name))
      | some none => explain (withoutName name arguments)
      | some (some action) => readAction action (withoutName name arguments)

end Order

end Coalition
