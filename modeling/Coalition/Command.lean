import Coalition.Command.Check
import Coalition.Files
import Coalition.Library
import Coalition.Model.Graph
import Coalition.Model.Overview

-- Each command reads a model, from a file or from the library, and prints what it is asked for.

set_option autoImplicit false

namespace Coalition

structure Surroundings where
  environment : Environment := []
  processors : Nat := 1
  files : Files := {}
  input : String := ""
  cancelled : Bool := false

def environmentFile : String := ".env"

namespace Session

def options (place : Surroundings) (request : Request) : Session Options := do
  let env := place.environment.withFile (place.files.text? environmentFile)
  let settings ← require .usage (Settings.ofEnvironment env place.processors)
  let settings := request.override settings
  let _ ← require .usage settings.level
  require .usage settings.options

def load (place : Surroundings) (request : Request) (model : String) : Session System :=
  let sys : Except Error System :=
    if request.builtin then System.ofLibrary model
    else (place.files.read model).mapError (.inside "reading model") >>= System.ofText
  require (fun e => .input (.inside ("loading " ++ model) e)) sys

def evaluator (place : Surroundings) (options : Options) (sys : System) : Session Evaluator :=
  require .usage (Evaluator.create sys options place.cancelled)

-- Check the properties of the flags, else those of the input, else those of the model.
def runCheck (place : Surroundings) (options : Options) (request : Request) (model : String) :
    Session Unit := do
  let sys ← load place request model
  let ev ← evaluator place options sys
  let memory ←
    if request.properties.isEmpty then do
      let (properties, complete) := Property.ofText place.input
      let memory ← checkAll ev {} properties
      if !complete then throw (.input .longLine)
      checkAll ev memory (if properties.isEmpty then Property.numbered sys.specs else [])
    else checkAll ev {} (request.properties.map fun text => ⟨text, 1⟩)
  printStats request.stats memory

def checkOnce (place : Surroundings) (options : Options) (request : Request) (model : String) :
    Session Unit := do
  let sys ← load place request model
  let ev ← evaluator place options sys
  let texts := if request.properties.isEmpty then sys.specs else request.properties
  printStats request.stats (← checkAll ev {} (Property.numbered texts))

-- One round of watching a model file: a failed check is not the end.
def runWatch (place : Surroundings) (options : Options) (request : Request) (model : String) :
    Session Unit := do
  if request.builtin then throw (.line (.needsFile Action.watch.name))
  require (fun fault => .input (.file fault)) (place.files.findFolder model)
  printLine ("== " ++ model)
  try checkOnce place options request model catch _ => pure ()

def runInfo (place : Surroundings) (request : Request) (model : String) : Session Unit := do
  printLines (← load place request model).overview

def runGraph (place : Surroundings) (request : Request) (model : String) : Session Unit := do
  if request.format != "dot" && request.format != "mermaid" then
    throw (.line (.unknownFormat request.format))
  let sys ← load place request model
  let graph ← require .usage ((Graph.ofSystem sys (request.limit.getD 1000).toNat).mapError .space)
  print (.text (if request.format == "mermaid" then graph.mermaid else graph.dot sys.name))

def runFreeChoice (place : Surroundings) (request : Request) (model : String) : Session Unit := do
  let sys ← load place request model
  printLines (← require .usage (sys.freeChoiceReport (request.limit.getD 20)))

def act (place : Surroundings) (action : Action) (request : Request) (model : String) :
    Session Unit := do
  let options ← options place request
  match action with
  | .check => runCheck place options request model
  | .watch => runWatch place options request model
  | .info => runInfo place request model
  | .graph => runGraph place request model
  | .freeChoice => runFreeChoice place request model

def explanation : List String := [
  "Symbolic ATLK model checker for multi-agent systems", "", "Usage:", "  atlk COMMAND MODEL [flags]", "",
  "Commands:",
  "  check        Check properties of a model",
  "  watch        Check properties again each time the model file changes",
  "  info         Describe the variables, agents and groups of a model",
  "  graph        Print the reachable states as a Graphviz or Mermaid graph",
  "  free-choice  List the reachable joint actions with no transition"]

def carryOut (place : Surroundings) (arguments : List String) : Session Unit := do
  match ← require .line (Order.read arguments) with
  | .explain => printLines explanation
  | .act action request model => act place action request model

end Session

def run (place : Surroundings) (arguments : List String) : Transcript :=
  .ofSession (Session.carryOut place arguments)

end Coalition
