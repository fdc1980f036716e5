import Coalition.Model.Domain

-- Which descriptions are well formed: names are declared once, domains have distinct values, agents observe state variables and own their
-- actions, and groups end in agents.

set_option autoImplicit false

namespace Coalition

inductive Declared where
  | variable_
  | define
  | agent
  | group
deriving DecidableEq, Repr

def Declared.text : Declared → String
  | .variable_ => "variable"
  | .define => "define"
  | .agent => "agent"
  | .group => "group"

inductive ModelProblem where
  | emptyName (what : Declared)
  | declaredTwice (what : Declared) (name : String) (before : Declared)
  | emptyDomain (name : String)
  | duplicateValues (name : String)
  | notObservable (agent name : String)
  | notAnAction (agent name : String)
  | sharedAction (action first second : String)
  | unknownMember (group name : String)
  | containsItself (group : String)

open Coalition.Text in
def ModelProblem.message : ModelProblem → String
  | .emptyName what => "empty " ++ what.text ++ " name"
  | .declaredTwice what name before =>
      what.text ++ " " ++ quoted name ++ " already declared as " ++ before.text
  | .emptyDomain name => "variable " ++ quoted name ++ " has an empty domain"
  | .duplicateValues name => "variable " ++ quoted name ++ " has duplicate values"
  | .notObservable agent name =>
      "agent " ++ quoted agent ++ " observes " ++ quoted name ++ " which is not a state variable"
  | .notAnAction agent name =>
      "agent " ++ quoted agent ++ " acts on " ++ quoted name ++ " which is not an input variable"
  | .sharedAction action first second =>
      "action " ++ quoted action ++ " belongs to both " ++ quoted first ++ " and " ++ quoted second
  | .unknownMember group name =>
      "group " ++ quoted group ++ ": unknown agent or group " ++ quoted name
  | .containsItself group => "group " ++ quoted group ++ " contains itself"

namespace Description

abbrev Check (α : Type) := Except ModelProblem α

def declare (what : Declared) (names : List (String × Declared)) (name : String) :
    Check (List (String × Declared)) :=
  if name.isEmpty then .error (.emptyName what)
  else
    match names.lookup name with
    | some before => .error (.declaredTwice what name before)
    | none => .ok ((name, what) :: names)

def hasDuplicates : List String → Bool
  | [] => false
  | x :: rest => rest.contains x || hasDuplicates rest

def checkDomain (names : List (String × Declared)) (d : Domain) :
    Check (List (String × Declared)) := do
  let names ← declare .variable_ names d.name
  if d.values.isEmpty then throw (.emptyDomain d.name)
  if hasDuplicates d.values then throw (.duplicateValues d.name)
  return names

def claimActions (inputs : List Domain) (agent : String) :
    List (String × String) → List String → Check (List (String × String))
  | owners, [] => .ok owners
  | owners, action :: rest =>
      if !inputs.any (·.name == action) then .error (.notAnAction agent action)
      else
        match owners.lookup action with
        | some before => .error (.sharedAction action before agent)
        | none => claimActions inputs agent ((action, agent) :: owners) rest

def checkAgents (d : Description) : List (String × Declared) → List (String × String) →
    List AgentDescription → Check (List (String × Declared))
  | names, _, [] => .ok names
  | names, owners, a :: rest => do
      let names ← declare .agent names a.name
      if let some o := a.observes.find? fun o => !d.vars.any (·.name == o) then
        throw (.notObservable a.name o)
      let owners ← claimActions d.inputs a.name owners a.actions
      checkAgents d names owners rest

def members (groups : List (String × List String)) (name : String) : List String :=
  (groups.lookup name).getD []

/-- Whether a path through group membership comes back to a group on it. -/
def reachesCycle (groups : List (String × List String)) : (fuel : Nat) → List String → String → Bool
  | 0, _, _ => true
  | fuel + 1, above, name =>
      above.contains name ||
        (members groups name).any fun m =>
          (groups.lookup m).isSome && reachesCycle groups fuel (name :: above) m

def checkGroup (d : Description) (group : String × List String) : Check Unit := do
  let known (m : String) : Bool := d.agents.any (·.name == m) || (d.groups.lookup m).isSome
  if let some m := group.2.find? fun m => !known m then throw (.unknownMember group.1 m)
  if reachesCycle d.groups (d.groups.length + 1) [] group.1 then throw (.containsItself group.1)

def validate (d : Description) : Check Unit := do
  let names ← (d.vars ++ d.inputs).foldlM checkDomain []
  let names ← d.defines.foldlM (fun names define => declare .define names define.1) names
  let names ← checkAgents d names [] d.agents
  let _ ← d.groups.foldlM (fun names group => declare .group names group.1) names
  d.groups.forM (checkGroup d)

end Description

end Coalition
