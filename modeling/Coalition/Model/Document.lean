import Coalition.Error
import Coalition.Yaml.Node

-- A part of the wrong shape, an unknown field or a field given twice makes the whole document bad, but a bad domain is reported as soon
-- as it is met.

set_option autoImplicit false

namespace Coalition

namespace Document

open Coalition.Yaml

-- Reading a part: the state says whether some part had the wrong shape.
abbrev Part (α : Type) := StateT Bool (Except Error) α

def wrongShape : Part Unit := set true

def text? (node : Node) : Part (Option String) := do
  match node with
  | .scalar .. => return if node.isNull then none else some node.text
  | _ => wrongShape; return none

def items (node : Node) : Part (List Node) := do
  match node with
  | .sequence _ items => return items
  | _ =>
      if !node.isNull then wrongShape
      return []

def texts (node : Node) : Part (List String) := do
  return (← (← items node).mapM text?).filterMap id

def sameKey : Node → Node → Bool
  | .scalar _ a _, .scalar _ b _ => a == b
  | .sequence .., .sequence .. => true
  | .mapping .., .mapping .. => true
  | _, _ => false

def repeats : List (Node × Node) → Bool
  | [] => false
  | (key, _) :: rest => rest.any (fun other => sameKey key other.1) || repeats rest

-- The entries of a mapping without repeated keys, with the texts of the keys.
def entries (node : Node) : Part (List (String × Node)) := do
  match node with
  | .mapping _ entries =>
      if repeats entries then
        wrongShape
        return []
      entries.filterMapM fun (key, value) => do
        return (← text? key).map fun name => (name, value)
  | _ =>
      if !node.isNull then wrongShape
      return []

def domainText : Node → DomainText
  | .scalar _ text _ => .scalar text
  | .sequence _ items =>
      let scalar (n : Node) : Bool := match n with
        | .scalar .. => true
        | _ => false
      if items.all scalar then .values ((items.filter fun n => !n.isNull).map (·.text))
      else .badValues
  | .mapping .. => .other

-- Domains keep the order they are written in; their keys may repeat.
def domains (node : Node) : Part (List Domain) :=
  match node with
  | .mapping _ entries =>
      match readDomains (entries.map fun (key, value) => (value.line, key.text, domainText value)) with
      | .ok domains => pure domains
      | .error fault => throw (.domain fault)
  | _ => if node.isNull then pure [] else throw (.notAMapping node.line)

def agentField (a : AgentDescription) (field : String × Node) : Part AgentDescription := do
  match field with
  | ("name", node) => return { a with name := (← text? node).getD a.name }
  | ("observes", node) => return { a with observes := ← texts node }
  | ("actions", node) => return { a with actions := ← texts node }
  | ("protocol", node) => return { a with protocol := ← texts node }
  | _ => wrongShape; return a

def agent (node : Node) : Part (Option AgentDescription) := do
  if node.isNull then return none
  return some (← (← entries node).foldlM agentField {})

def field (d : Description) (field : String × Node) : Part Description := do
  match field with
  | ("name", node) => return { d with name := (← text? node).getD d.name }
  | ("description", node) => let _ ← text? node; return d
  | ("variables", node) => return { d with vars := ← domains node }
  | ("inputs", node) => return { d with inputs := ← domains node }
  | ("defines", node) =>
      let defines ← (← entries node).mapM fun (name, value) => do
        return (name, (← text? value).getD "")
      return { d with defines }
  | ("init", node) => return { d with init := ← texts node }
  | ("trans", node) => return { d with trans := ← texts node }
  | ("fairness", node) => return { d with fairness := ← texts node }
  | ("agents", node) => return { d with agents := ← (← items node).filterMapM agent }
  | ("groups", node) =>
      let groups ← (← entries node).mapM fun (name, value) => do return (name, ← texts value)
      return { d with groups }
  | ("specs", node) => return { d with specs := ← texts node }
  | _ => wrongShape; return d

def description (root : Node) : Part Description := do
  (← entries root).foldlM field {}

end Document

def Description.ofText (text : String) : Except Error Description :=
  match Yaml.read text with
  | .noDocument => .error .emptyDocument
  | .unreadable => .error .badDocument
  | .document root =>
      match (Document.description root).run false with
      | .error e => .error e
      | .ok (_, true) => .error .badDocument
      | .ok (d, false) => .ok d

end Coalition
