import Coalition.Text.Lexeme

-- What can be wrong with a model expression, and how it is said.

set_option autoImplicit false

namespace Coalition.Expression

open Coalition.Text

structure Found where
  text : String
  start : Option Position

def placeText : Option Position → String
  | some p => s!"<input>:{p.line}:{p.column}"
  | none => "<input>"

def Found.message (found : Found) : String :=
  Text.quoted found.text ++ " at " ++ placeText found.start

inductive Problem where
  | complaint (message : String)
  | empty
  | unexpected (found : Found)
  | unexpectedEnd
  | expectedAtEnd (wanted : String)
  | expected (wanted : String) (found : Found)
  | noTermAtEnd
  | noTerm (found : Found)
  | noVariableInNext
  | nextNotAllowed (name : String)
  | nextOfInput (name : String)
  | unknownVariable (name : String)
  | inputNotAllowed (name : String)
  | twoConstants (left right : String)
  | notInDomainOf (value name : String) (domain : List String)
  | differentDomains (left right : String)
  | unterminatedSet
  | notBooleanVariable (name : String)
  | notBoolean (text : String)
  /-- A value of a variable is asked for that its domain lacks; the subject is the variable. -/
  | notInDomain (name value : String) (domain : List String)
  | pending (name : String)

def Problem.message : Problem → String
  | .complaint message => message
  | .empty => "empty expression"
  | .unexpected found => "unexpected token " ++ found.message
  | .unexpectedEnd => "unexpected end of expression"
  | .expectedAtEnd wanted => "expected " ++ quoted wanted ++ ", found end of expression"
  | .expected wanted found => "expected " ++ quoted wanted ++ ", found " ++ found.message
  | .noTermAtEnd => "expected a variable or value, found end of expression"
  | .noTerm found => "expected a variable or value, found " ++ found.message
  | .noVariableInNext => "expected a variable in next()"
  | .nextNotAllowed name => "next(" ++ name ++ ") is not allowed here"
  | .nextOfInput name => "next(" ++ name ++ ") of an input variable"
  | .unknownVariable name => "unknown variable " ++ quoted name
  | .inputNotAllowed name => "input variable " ++ quoted name ++ " is not allowed here"
  | .twoConstants left right =>
      "comparison of two constants " ++ quoted left ++ " and " ++ quoted right
  | .notInDomainOf value name domain =>
      quoted value ++ " is not in the domain of " ++ name ++ " " ++ bracketed domain
  | .differentDomains left right => left ++ " and " ++ right ++ " have different domains"
  | .unterminatedSet => "unterminated set"
  | .notBooleanVariable name => name ++ " is not a Boolean variable"
  | .notBoolean text => quoted text ++ " is not a Boolean expression"
  | .notInDomain _ value domain => quoted value ++ " is not in the domain " ++ bracketed domain
  | .pending name => name ++ " is not compiled"

/-- What the message is about: mostly the expression's own text. -/
def Problem.subject (text : String) : Problem → String
  | .notInDomain name _ _ => name
  | _ => text

end Coalition.Expression
