import Coalition.Command.Session
import Coalition.Evaluation.OnStates
import Coalition.Formula.Parser

-- The properties of a text stand on lines of their own, among blank lines and comments.

set_option autoImplicit false

namespace Coalition

def maxLineBytes : Nat := 65535

structure Property where
  text : String
  line : Nat

namespace Property

def numbered (texts : List String) : List Property :=
  texts.zipIdx.map fun (text, i) => ⟨text, i + 1⟩

-- The lines of a text; the end of the last line may be missing.
def lines (text : String) : List String :=
  let parts := text.splitOn "\n"
  if parts.getLast? == some "" then parts.dropLast else parts

def isComment (text : String) : Bool := text.startsWith "--"

-- The properties of a text, and whether all its lines could be read: those after a line that is
-- too long count no more.
def ofText (text : String) : List Property × Bool :=
  let lines := numbered (lines text)
  let fits (p : Property) : Bool := p.text.utf8ByteSize ≤ maxLineBytes
  let trimmed := (lines.takeWhile fits).map fun p => { p with text := Text.trimBlank p.text }
  (trimmed.filter fun p => !p.text.isEmpty && !isComment p.text, lines.all fits)

end Property

namespace Session

-- How the check of a property fails; a stopped one is not the fault of its text.
def propertyFailure (text : String) (error : Error) : Failure :=
  match error.cause with
  | .canceled => .usage error
  | _ => .input (.inside ("property " ++ Text.quoted text) error)

def check (ev : Evaluator) (memory : Memory) (property : Property) : Session Memory := do
  let text := property.text
  let f ← require (fun e => propertyFailure text (.parse e)) (Formula.parseLine property.line text)
  let (holds, memory) := (ev.check f).run memory
  let holds ← require (propertyFailure text) holds
  let answer := if holds then "true" else "false"
  printLine ("Specification " ++ text ++ " is " ++ answer)
  return memory

def checkAll (ev : Evaluator) (memory : Memory) (properties : List Property) : Session Memory :=
  properties.foldlM (check ev) memory

def printStats (stats : Bool) (memory : Memory) : Session Unit := do
  if stats then
    printLine ""
    print (.counters memory.counters)

end Session

end Coalition
