import Coalition.Model.Expression.Basic
import Coalition.Model.Expression.Problem
import Coalition.Model.Expression.Token

-- From lowest to highest priority: `<->` and `->`, both grouping to the right, then `|`, then `&`, then negation.

set_option autoImplicit false

namespace Coalition.Expression

structure Scope where
  next : Bool
  inputs : Bool

def Scope.state : Scope := ⟨false, false⟩

def Scope.move : Scope := ⟨false, true⟩

def Scope.transition : Scope := ⟨true, true⟩

structure Names where
  vars : List Variable
  defines : List String
  compiled : List String

abbrev Reader (α : Type) := List Token → Except Problem (α × List Token)

def advance : List Token → List Token
  | [] => []
  | [last] => [last]
  | _ :: rest => rest

def at? (word : String) : List Token → Bool
  | t :: _ => !t.isEnd && t.text == word
  | [] => false

def atEnd : List Token → Bool
  | t :: _ => t.isEnd
  | [] => true

def found : List Token → Found
  | t :: _ => ⟨t.text, t.start⟩
  | [] => ⟨"", none⟩

def expect (word : String) : Reader Unit := fun ts =>
  if atEnd ts then .error (.expectedAtEnd word)
  else if at? word ts then .ok ((), advance ts)
  else .error (.expected word (found ts))

structure Term where
  reading : Option Reading
  isCall : Bool
  text : String

def signs : List String := ["(", ")", "&", "|", "->", "~", "!", "=", "<", "\x7b", "\x7d", ","]

def Names.find? (names : Names) (name : String) : Option Variable :=
  names.vars.find? (·.name == name)

/-- The variable of `next(..)`, whose opening word is the current token. -/
def nextCall (names : Names) (scope : Scope) : Reader Term := fun ts => do
  let ts := advance (advance ts)
  match ts with
  | [] => throw .noVariableInNext
  | t :: _ =>
      if t.isEnd then throw .noVariableInNext
      let name := t.text
      let ((), ts) ← expect ")" (advance ts)
      if !scope.next then throw (.nextNotAllowed name)
      match names.find? name with
      | none => throw (.unknownVariable name)
      | some v =>
          if v.kind = .input then throw (.nextOfInput name)
          return (⟨some ⟨v, true⟩, true, name⟩, ts)

def term (names : Names) (scope : Scope) : Reader Term := fun ts =>
  match ts with
  | [] => .error .noTermAtEnd
  | t :: _ =>
      if t.isEnd then .error .noTermAtEnd
      else if signs.contains t.text then .error (.noTerm (found ts))
      else if t.text == "next" && t.ahead == some '(' then nextCall names scope ts
      else
        let text := Text.trimQuotes t.text
        match names.find? text with
        | none => .ok (⟨none, false, text⟩, advance ts)
        | some v =>
            if v.kind = .input && !scope.inputs then .error (.inputNotAllowed text)
            else .ok (⟨some ⟨v, false⟩, false, text⟩, advance ts)

def Names.isValue (names : Names) (text : String) : Bool :=
  names.vars.any fun v => (v.index? text).isSome

/-- A variable compared with a term: a value of its domain before another variable. -/
def equalTo (left : Reading) (right : Term) : Except Problem Expression :=
  match right.isCall, left.var.index? right.text, right.reading with
  | false, some index, _ => .ok (.isValue left index)
  | _, _, none => .error (.notInDomainOf right.text left.var.name left.var.domain)
  | _, _, some reading =>
      if left.var.domain = reading.var.domain then .ok (.same left reading)
      else .error (.differentDomains left.var.name reading.var.name)

def equal (names : Names) (left right : Term) : Except Problem Expression :=
  match left.reading, right.reading with
  | some reading, _ => equalTo reading right
  | none, some reading => equalTo reading left
  | none, none =>
      if !names.isValue left.text then .error (.unknownVariable left.text)
      else if !names.isValue right.text then .error (.unknownVariable right.text)
      else .error (.twoConstants left.text right.text)

def setValues (v : Variable) : (fuel : Nat) → Reader (List Nat)
  | 0, _ => .error .unterminatedSet
  | fuel + 1, ts =>
      match ts with
      | [] => .error .unterminatedSet
      | t :: _ =>
          if t.isEnd then .error .unterminatedSet
          else
            let value := Text.trimQuotes t.text
            match v.index? value with
            | none => .error (.notInDomain v.name value v.domain)
            | some index =>
                let ts := advance ts
                if at? "," ts then do
                  let (others, ts) ← setValues v fuel (advance ts)
                  return (index :: others, ts)
                else do
                  let ((), ts) ← expect "\x7d" ts
                  return ([index], ts)

def membership (t : Term) : Reader Expression := fun ts =>
  match t.reading with
  | none => .error (.unknownVariable t.text)
  | some reading => do
      let ((), ts) ← expect "\x7b" ts
      let (indices, ts) ← setValues reading.var ts.length ts
      return (.isAmong reading indices, ts)

/-- A term on its own is a Boolean variable, a constant or a named expression. -/
def bare (names : Names) (t : Term) : Except Problem Expression :=
  match t.reading with
  | some reading =>
      if reading.var.isBoolean then .ok (.isValue reading 1)
      else .error (.notBooleanVariable reading.var.name)
  | none =>
      if t.text == "true" || t.text == "TRUE" then .ok (.constant true)
      else if t.text == "false" || t.text == "FALSE" then .ok (.constant false)
      else if names.compiled.contains t.text then .ok (.named t.text)
      else if names.defines.contains t.text then .error (.pending t.text)
      else .error (.notBoolean t.text)

def comparison (names : Names) (scope : Scope) : Reader Expression := fun ts => do
  let (left, ts) ← term names scope ts
  if at? "=" ts then
    let (right, ts) ← term names scope (advance ts)
    return (← equal names left right, ts)
  else if at? "!" ts then
    let ((), ts) ← expect "=" (advance ts)
    let (right, ts) ← term names scope ts
    return (.not (← equal names left right), ts)
  else if at? "in" ts then membership left (advance ts)
  else return (← bare names left, ts)

def moreOperands (sign : String) (make : Expression → Expression → Expression)
    (operand : Reader Expression) : (fuel : Nat) → Expression → Reader Expression
  | 0, left, ts => .ok (left, ts)
  | fuel + 1, left, ts =>
      if at? sign ts then do
        let (right, ts) ← operand (advance ts)
        moreOperands sign make operand fuel (make left right) ts
      else .ok (left, ts)

def leftChain (sign : String) (make : Expression → Expression → Expression)
    (operand : Reader Expression) : Reader Expression := fun ts => do
  let (left, ts) ← operand ts
  moreOperands sign make operand ts.length left ts

def implications (operand : Reader Expression) : (fuel : Nat) → Reader Expression
  | 0, ts => operand ts
  | fuel + 1, ts => do
      let (left, ts) ← operand ts
      if at? "->" ts then
        let (right, ts) ← implications operand fuel (advance ts)
        return (.implies left right, ts)
      else return (left, ts)

def equivalences (operand : Reader Expression) : (fuel : Nat) → Reader Expression
  | 0, ts => operand ts
  | fuel + 1, ts => do
      let (left, ts) ← operand ts
      if at? "<" ts then
        let ((), ts) ← expect "->" (advance ts)
        let (right, ts) ← equivalences operand fuel ts
        return (.iff left right, ts)
      else return (left, ts)

def chain (operand : Reader Expression) : Reader Expression := fun ts =>
  equivalences (fun ts => implications (leftChain "|" .or (leftChain "&" .and operand)) ts.length ts)
    ts.length ts

def unary (names : Names) (scope : Scope) : (fuel : Nat) → Reader Expression
  | 0, _ => .error .unexpectedEnd
  | fuel + 1, ts =>
      if at? "~" ts || at? "!" ts then do
        let (body, ts) ← unary names scope fuel (advance ts)
        return (.not body, ts)
      else if atEnd ts then .error .unexpectedEnd
      else if at? "(" ts then do
        let (body, ts) ← chain (unary names scope fuel) (advance ts)
        let ((), ts) ← expect ")" ts
        return (body, ts)
      else comparison names scope ts

def complaintSoFar : List Token → Option String
  | t :: _ => t.complaint
  | [] => none

def parse (names : Names) (scope : Scope) (text : String) : Except Problem Expression := do
  let ts := tokens text.toList
  if atEnd ts then throw .empty
  let (expression, ts) ← chain (unary names scope ts.length) ts
  match complaintSoFar ts with
  | some message => throw (.complaint message)
  | none => if atEnd ts then return expression else throw (.unexpected (found ts))

end Coalition.Expression
