import Coalition.Model.Expression.Parser
import Coalition.Model.System

-- Building a system from its description: variables get their bits, named expressions are compiled each after those it mentions, and
-- every part of the description becomes a region.

set_option autoImplicit false

namespace Coalition

namespace Description

def layStates (first : Nat) : List Domain → List Variable
  | [] => []
  | d :: rest =>
      let w := width d.values.length
      { name := d.name
        kind := .state
        domain := d.values
        bits := (List.range w).map fun b => first + 2 * b
        nextBits := (List.range w).map fun b => first + 2 * b + 1 } :: layStates (first + 2 * w) rest

def layInputs (first : Nat) : List Domain → List Variable
  | [] => []
  | d :: rest =>
      let w := width d.values.length
      { name := d.name
        kind := .input
        domain := d.values
        bits := (List.range w).map fun b => first + b
        nextBits := [] } :: layInputs (first + w) rest

def bitCount (domains : List Domain) : Nat :=
  domains.foldl (fun total d => total + width d.values.length) 0

/-- The most bits that are reserved for encodings of strategies. -/
def maxStrategyBits : Nat := 4096

/-- Bits reserved for encodings of strategies: a choice for every observation of all agents
together, wide enough for every joint action, on current and next bits. -/
def strategyBits (d : Description) : Nat :=
  let observed (name : String) : Bool := d.agents.any fun a => a.observes.contains name
  let product (domains : List Domain) : Nat :=
    domains.foldl (fun total x => min (total * x.values.length) maxStrategyBits) 1
  let classes := product (d.vars.filter fun v => observed v.name)
  min (classes * 2 * width (product d.inputs)) maxStrategyBits

/-- Compile a named expression and, before it, those it mentions. -/
def resolveDefine (d : Description) (vars : List Variable) :
    (fuel : Nat) → (above : List String) → (ready : List (String × Region)) → (name : String) →
      Except Error (List (String × Region))
  | 0, _, _, name => .error (.defineCycle name)
  | fuel + 1, above, ready, name =>
      if (ready.lookup name).isSome then .ok ready
      else if above.contains name then .error (.defineCycle name)
      else
        let names : Expression.Names := ⟨vars, d.defines.map (·.1), ready.map (·.1)⟩
        match System.compile names ready .state ((d.defines.lookup name).getD "") with
        | .ok region => .ok ((name, region) :: ready)
        | .error (.expression _ (.pending other)) =>
            match resolveDefine d vars fuel (name :: above) ready other with
            | .ok ready => resolveDefine d vars fuel above ready name
            | .error e => .error (.inside ("define " ++ name) e)
        | .error e => .error (.inside ("define " ++ name) e)

/-- Every descent names a new expression and every return compiles one, which bounds the fuel. -/
def resolveDefines (d : Description) (vars : List Variable) :
    Except Error (List (String × Region)) :=
  d.defines.foldlM
    (fun ready define => resolveDefine d vars (2 * d.defines.length + 2) [] ready define.1) []

def conjoin (compile : String → Except Error Region) (part : String) (texts : List String) :
    Except Error Region :=
  texts.foldlM (fun r text => do
    match compile text with
    | .ok region => return r.inter region
    | .error e => throw (.inside part e)) .univ

def buildAgent (frame : Frame) (compile : String → Except Error Region) (a : AgentDescription) :
    Except Error Agent := do
  let protocol ← conjoin compile ("protocol of " ++ a.name) a.protocol
  return {
    name := a.name
    observed := a.observes.filterMap frame.find?
    actions := a.actions.filterMap frame.find?
    protocol }

def build (d : Description) : Except Error System := do
  (d.validate).mapError .model
  let stateCount := 2 * bitCount d.vars
  let space ← (Space.create (stateCount + bitCount d.inputs) d.strategyBits).mapError .space
  let frame := Frame.ofVariables space (layStates 0 d.vars) (layInputs stateCount d.inputs)
  let defines ← resolveDefines d frame.vars
  let names : Expression.Names := ⟨frame.vars, d.defines.map (·.1), defines.map (·.1)⟩
  let compile (scope : Expression.Scope) := System.compile names defines scope
  let init ← conjoin (compile .state) "init" d.init
  let agents ← d.agents.mapM (buildAgent frame (compile .move))
  let trans ← conjoin (compile .transition) "trans" d.trans
  let trans := agents.foldl (fun r a => r.inter a.protocol) trans
  let trans := ((trans.inter frame.statesMask).inter frame.inputsMask).inter frame.nextMask
  let fairness ← d.fairness.zipIdx.mapM fun (text, i) => do
    match compile .state text with
    | .ok region => return region.inter frame.statesMask
    | .error e => throw (.inside s!"fairness {i + 1}" e)
  let dynamics : Dynamics := { frame with init := init.inter frame.statesMask, trans }
  let groups := (d.groups.map fun (name, members) => (⟨name, members⟩ : Group)).mergeSort
    fun a b => a.name ≤ b.name
  return { dynamics with
    name := d.name
    agents
    groups
    specs := d.specs
    fairness
    names
    defines
    reachable := dynamics.reachFrom dynamics.init
    reachable_eq := rfl }

end Description

end Coalition
