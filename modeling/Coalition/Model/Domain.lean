import Coalition.Text.Character
import Coalition.Text.Integer

-- Descriptions of multi-agent systems, as their author writes them, and the domains of their variables: Boolean, a range of integers, or
-- a list of values.

set_option autoImplicit false

namespace Coalition

structure Domain where
  name : String
  values : List String
deriving DecidableEq, Repr

inductive DomainText where
  | scalar (text : String)
  | values (values : List String)
  | badValues
  | other

inductive DomainError where
  | unknown (text : String)
  | badBound (error : Text.NumberError)
  | badValues
  | notADomain
  | endless (text : String)

def DomainError.message? : DomainError → Option String
  | .unknown text => some ("unknown domain " ++ Text.quoted text)
  | .badBound error => some error.message
  | .badValues => none
  | .notADomain => some "domain must be a list, a range or boolean"
  | .endless text => some ("endless domain " ++ Text.quoted text)

def integersFrom (first : Int) : (count : Nat) → List Int
  | 0 => []
  | count + 1 => first :: integersFrom (first + 1) count

def splitAtDots : List Char → Option (List Char × List Char)
  | [] => none
  | '.' :: '.' :: rest => some ([], rest)
  | c :: rest => (splitAtDots rest).map fun (before, after) => (c :: before, after)

/-- The values of a range. A count that has to pass the largest integer never ends. -/
def rangeValues (text : String) (low high : Int) : Except DomainError (List String) :=
  if high < low then .ok []
  else if high = Text.maxInteger then .error (.endless text)
  else .ok ((integersFrom low (high - low + 1).toNat).map fun n => s!"{n}")

def scalarValues (text : String) : Except DomainError (List String) :=
  if text == "boolean" then .ok ["false", "true"]
  else
    match splitAtDots text.toList with
    | none => .error (.unknown text)
    | some (low, high) => do
        let bound (cs : List Char) : Except DomainError Int :=
          (Text.readDecimal (Text.trimBlank (String.ofList cs))).mapError .badBound
        let low ← bound low
        let high ← bound high
        rangeValues text low high

def DomainText.read : DomainText → Except DomainError (List String)
  | .scalar text => scalarValues text
  | .values list => .ok list
  | .badValues => .error .badValues
  | .other => .error .notADomain

/-- A domain that could not be read: the line, the variable and the reason. -/
structure DomainFault where
  line : Nat
  name : String
  error : DomainError

def DomainFault.message? (f : DomainFault) : Option String :=
  f.error.message?.map fun m => s!"line {f.line}: " ++ f.name ++ ": " ++ m

def readDomains (entries : List (Nat × String × DomainText)) : Except DomainFault (List Domain) :=
  entries.mapM fun (line, name, text) =>
    match text.read with
    | .ok values => .ok ⟨name, values⟩
    | .error error => .error ⟨line, name, error⟩

structure AgentDescription where
  name : String := ""
  observes : List String := []
  actions : List String := []
  protocol : List String := []
deriving Repr

structure Description where
  name : String := ""
  vars : List Domain := []
  inputs : List Domain := []
  defines : List (String × String) := []
  init : List String := []
  trans : List String := []
  fairness : List String := []
  agents : List AgentDescription := []
  groups : List (String × List String) := []
  specs : List String := []
deriving Repr

end Coalition
