import Coalition.Formula.Printer
import Coalition.Formula.Token

-- From lowest to highest priority: `<->` and `->`, both grouping to the right, then `|`, then `&`, then the unary, path, knowledge and
-- strategic operators.

set_option autoImplicit false

namespace Coalition.Formula

/-- A reader takes tokens, the current one first, and leaves the rest. -/
abbrev Reader (α : Type) := List Token → Except ParseError (α × List Token)

def advance : List Token → List Token
  | [] => []
  | [last] => [last]
  | _ :: rest => rest

def failAt {α : Type} (reason : String) : Reader α
  | t :: _ => .error (t.error reason)
  | [] => .error ⟨0, 0, "", reason⟩

def at? (word : String) : List Token → Bool
  | t :: _ => !t.isEnd && !t.isQuoted && t.text == word
  | [] => false

def atEnd : List Token → Bool
  | t :: _ => t.isEnd
  | [] => true

def expect (word : String) : Reader Unit := fun ts =>
  if atEnd ts then failAt ("expected " ++ Text.quoted word ++ ", found end of formula") ts
  else if at? word ts then .ok ((), advance ts)
  else failAt ("expected " ++ Text.quoted word) ts

def isName (word : String) : Bool :=
  match word.toList with
  | [] => false
  | c :: rest => startsName c && rest.all continuesName

def readGroup (closing : String) : (fuel : Nat) → Reader (List String)
  | 0, ts => failAt "expected an agent name" ts
  | fuel + 1, ts =>
      match ts with
      | [] => failAt "expected an agent name" ts
      | t :: _ =>
          if t.isEnd then failAt "expected an agent name, found end of formula" ts
          else if !t.isQuoted && !isName t.text then failAt "expected an agent name" ts
          else
            let ts := advance ts
            if at? "," ts then do
              let (others, ts) ← readGroup closing fuel (advance ts)
              return (t.text :: others, ts)
            else do
              let ((), ts) ← expect closing ts
              return ([t.text], ts)

def group (closing : String) : Reader (List String) := fun ts => readGroup closing ts.length ts

def moreOperands (op : Connective) (operand : Reader Formula) :
    (fuel : Nat) → Formula → Reader Formula
  | 0, left, ts => .ok (left, ts)
  | fuel + 1, left, ts =>
      if at? op.sign ts then do
        let (right, ts) ← operand (advance ts)
        moreOperands op operand fuel (.binary op left right) ts
      else .ok (left, ts)

def leftChain (op : Connective) (operand : Reader Formula) : Reader Formula := fun ts => do
  let (left, ts) ← operand ts
  moreOperands op operand ts.length left ts

def readRightChain (op : Connective) (operand : Reader Formula) : (fuel : Nat) → Reader Formula
  | 0, ts => operand ts
  | fuel + 1, ts => do
      let (left, ts) ← operand ts
      if at? op.sign ts then
        let (right, ts) ← readRightChain op operand fuel (advance ts)
        return (.binary op left right, ts)
      else return (left, ts)

def rightChain (op : Connective) (operand : Reader Formula) : Reader Formula := fun ts =>
  readRightChain op operand ts.length ts

def chain (operand : Reader Formula) : Reader Formula :=
  rightChain .iff (rightChain .implies (leftChain .or (leftChain .and operand)))

def untilBody (operand : Reader Formula) : Reader (Formula × Until × Formula) := fun ts => do
  let (left, ts) ← chain operand ts
  let finish (kind : Until) : Except ParseError ((Formula × Until × Formula) × List Token) := do
    let (right, ts) ← chain operand (advance ts)
    let ((), ts) ← expect "]" ts
    return ((left, kind, right), ts)
  if at? "U" ts then finish .strong
  else if at? "W" ts then finish .weak
  else failAt "expected U or W" ts

def strategicBody (operand : Reader Formula) (ability : Ability) (names : List String) :
    Reader Formula := fun ts =>
  let finish (modality : Modality) : Except ParseError (Formula × List Token) := do
    let (body, ts) ← operand (advance ts)
    return (.strategic ability names modality body, ts)
  if at? "[" ts then do
    let ((left, kind, right), ts) ← untilBody operand (advance ts)
    return (.strategicUntil ability names kind left right, ts)
  else if at? "X" ts then finish .next
  else if at? "F" ts then finish .eventually
  else if at? "G" ts then finish .always
  else failAt "expected X, F, G or [ after a strategic group" ts

inductive Opening where
  | constant (value : Constant)
  | negation
  | parenthesis
  | strategic (ability : Ability)
  | agentKnows (certainty : Certainty)
  | pathOrEveryone
  | allPaths
  | path (quantifier : Quantifier) (modality : Modality)
  | groupKnows (certainty : Certainty) (sharing : Sharing)
  | reserved
  | name

def Opening.ofWord (word : String) : Opening :=
  match word with
  | "~" | "!" => .negation
  | "(" => .parenthesis
  | "<" => .strategic .canForce
  | "[" => .strategic .cannotAvoid
  | "True" | "TRUE" => .constant .true
  | "False" | "FALSE" => .constant .false
  | "Init" => .constant .init
  | "Reachable" => .constant .reachable
  | "nK" => .agentKnows .possible
  | "K" => .agentKnows .known
  | "E" => .pathOrEveryone
  | "A" => .allPaths
  | "EX" => .path .some .next
  | "AX" => .path .all .next
  | "EF" => .path .some .eventually
  | "AF" => .path .all .eventually
  | "EG" => .path .some .always
  | "AG" => .path .all .always
  | "nE" => .groupKnows .possible .everyone
  | "nD" => .groupKnows .possible .distributed
  | "D" => .groupKnows .known .distributed
  | "nC" => .groupKnows .possible .common
  | "C" => .groupKnows .known .common
  | "X" | "F" | "G" | "U" | "W" => .reserved
  | _ => .name

def knowledgeBody (operand : Reader Formula) (make : List String → Formula → Formula) :
    Reader Formula := fun ts => do
  let (names, ts) ← group ">" ts
  let (body, ts) ← operand ts
  return (make names body, ts)

/-- A formula that no binary connective splits at the top. Every operand starts after a token of
its own, so the number of tokens is enough fuel. -/
def unary : (fuel : Nat) → Reader Formula
  | 0, ts => failAt "unexpected token" ts
  | fuel + 1, ts =>
      match ts with
      | [] => failAt "expected a formula, found end of formula" ts
      | t :: _ =>
          let rest := advance ts
          if t.isEnd then failAt "expected a formula, found end of formula" ts
          else if t.isQuoted then .ok (.atom t.text, rest)
          else
            match Opening.ofWord t.text with
            | .constant value => .ok (.constant value, rest)
            | .negation => do
                let (body, ts) ← unary fuel rest
                return (.not body, ts)
            | .parenthesis => do
                let (body, ts) ← chain (unary fuel) rest
                let ((), ts) ← expect ")" ts
                return (body, ts)
            | .strategic ability => do
                let (names, ts) ← group ability.closing rest
                strategicBody (unary fuel) ability names ts
            | .agentKnows certainty => do
                let ((), ts) ← expect "<" rest
                let (names, ts) ← group ">" ts
                match names with
                | [agent] =>
                    let (body, ts) ← unary fuel ts
                    return (.agentKnows certainty agent body, ts)
                | _ => failAt (t.text ++ " takes a single agent") ts
            | .pathOrEveryone =>
                if at? "[" rest then do
                  let ((left, kind, right), ts) ← untilBody (unary fuel) (advance rest)
                  return (.pathUntil .some kind left right, ts)
                else if at? "<" rest then
                  knowledgeBody (unary fuel) (.groupKnows .known .everyone) (advance rest)
                else failAt "expected \"[\" after E" rest
            | .allPaths =>
                if at? "[" rest then do
                  let ((left, kind, right), ts) ← untilBody (unary fuel) (advance rest)
                  return (.pathUntil .all kind left right, ts)
                else failAt "expected \"[\" after A" rest
            | .path quantifier modality => do
                let (body, ts) ← unary fuel rest
                return (.path quantifier modality body, ts)
            | .groupKnows certainty sharing => do
                let ((), ts) ← expect "<" rest
                knowledgeBody (unary fuel) (.groupKnows certainty sharing) ts
            | .reserved => failAt "unexpected token" ts
            | .name => if isName t.text then .ok (.atom t.text, rest) else failAt "unexpected token" ts

def faultSoFar : List Token → Option ParseError
  | t :: _ => t.fault
  | [] => none

def ofTokens (ts : List Token) : Except ParseError Formula :=
  match faultSoFar ts with
  | some fault => .error fault
  | none =>
      if atEnd ts then Prod.fst <$> failAt "empty formula" ts
      else do
        let (formula, ts) ← chain (unary ts.length) ts
        match faultSoFar ts with
        | some fault => throw fault
        | none =>
            if atEnd ts then return formula else Prod.fst <$> failAt "unexpected token" ts

def parseLine (firstLine : Int) (text : String) : Except ParseError Formula :=
  ofTokens (tokens firstLine text.toList)

def parse (text : String) : Except ParseError Formula := parseLine 1 text

end Coalition.Formula
