import Coalition.Number.Reader
import Coalition.Options
import Coalition.Settings.Assignments
import Coalition.Text.Character
import Coalition.Text.Integer

-- A file of assignments may add to the environment, but does not change what is in it already.

set_option autoImplicit false

namespace Coalition

abbrev Environment := List (String × String)

namespace Environment

def value (env : Environment) (name : String) : String := (env.lookup name).getD ""

-- The environment with the assignments of a file. A file that cannot be read adds nothing, and
-- neither does a value that holds a NUL.
def withFile (env : Environment) (text : Option String) : Environment :=
  let assigned : Environment := (text.bind Assignments.read).getD []
  env ++ assigned.filter fun (name, _) => !(assigned.value name).contains '\x00'

-- A value without blanks around it, or what stands for a blank one.
def text (env : Environment) (name : String) (default : String) : String :=
  let value := Text.trimBlank (env.value name)
  if value.isEmpty then default else value

def has (env : Environment) (name : String) : Bool := !(env.text name "").isEmpty

def parsed {α : Type} (env : Environment) (name : String) (default : α)
    (read : String → Except Text.NumberError α) : Except Error α :=
  if env.has name then (read (env.text name "")).mapError (.setting name (env.value name))
  else .ok default

end Environment

structure Settings where
  variant : String := "sf"
  observability : String := "partial"
  semantics : String := "group"
  workers : Int := 1
  filtering : Bool := true
  separation : String := "none"
  early : String := "none"
  threshold : Binary64 := .ofRatio false 1 2
  caching : Bool := false
  cacheSize : Int := 1024
  nodes : Int := 0
  results : Int := 0
  logLevel : String := "info"
  metricsAddress : String := ""

inductive RoomHint where
  | nodes (count : Int)
  | results (count : Int)

namespace Settings

def workersName : String := "ATLK_WORKERS"

def names : List String :=
  ["ATLK_VARIANT", "ATLK_OBSERVABILITY", "ATLK_SEMANTICS", workersName, "ATLK_PARTIAL_FILTERING",
    "ATLK_PARTIAL_SEPARATION", "ATLK_PARTIAL_EARLY", "ATLK_PARTIAL_THRESHOLD", "ATLK_PARTIAL_CACHING",
    "ATLK_PARTIAL_CACHE_SIZE", "ATLK_BDD_NODES", "ATLK_BDD_CACHE", "ATLK_LOG_LEVEL",
    "ATLK_METRICS_ADDR"]

-- The settings of an environment; without a number of workers there is one for each processor.
def ofEnvironment (env : Environment) (processors : Nat) : Except Error Settings := do
  return {
    variant := env.text "ATLK_VARIANT" "sf"
    observability := env.text "ATLK_OBSERVABILITY" "partial"
    semantics := env.text "ATLK_SEMANTICS" "group"
    separation := env.text "ATLK_PARTIAL_SEPARATION" "none"
    early := env.text "ATLK_PARTIAL_EARLY" "none"
    logLevel := env.text "ATLK_LOG_LEVEL" "info"
    metricsAddress := env.text "ATLK_METRICS_ADDR" ""
    workers := ← env.parsed workersName (processors : Int) Text.readDecimal
    filtering := ← env.parsed "ATLK_PARTIAL_FILTERING" true Text.readTruth
    caching := ← env.parsed "ATLK_PARTIAL_CACHING" false Text.readTruth
    cacheSize := ← env.parsed "ATLK_PARTIAL_CACHE_SIZE" 1024 Text.readDecimal
    nodes := ← env.parsed "ATLK_BDD_NODES" 0 Text.readDecimal
    results := ← env.parsed "ATLK_BDD_CACHE" 0 Text.readDecimal
    threshold := ← threshold env }
where
  /-- The text of the threshold is reported without the blanks around it. -/
  threshold (env : Environment) : Except Error Binary64 :=
    let name := "ATLK_PARTIAL_THRESHOLD"
    let text := env.text name "0.5"
    (Binary64.read text).mapError (.setting name text)

def options (s : Settings) : Except Error Options := do
  return {
    variant := ← Variant.choice.read s.variant
    observability := ← Observability.choice.read s.observability
    semantics := ← Semantics.choice.read s.semantics
    separation := ← Separation.choice.read s.separation
    early := ← Early.choice.read s.early
    workers := s.workers
    filtering := s.filtering
    threshold := s.threshold
    caching := s.caching
    cacheSize := s.cacheSize }

def roomHints (s : Settings) : List RoomHint :=
  (if 0 < s.nodes then [.nodes s.nodes] else []) ++
    (if 0 < s.results then [.results s.results] else [])

def level (s : Settings) : Except Error Level := (Level.read s.logLevel).mapError (.level s.logLevel)

end Settings

end Coalition
