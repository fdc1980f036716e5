import Coalition.Text.Case
import Coalition.Text.Integer

-- How much is logged: a named level, or one that lies some steps above or below it.

set_option autoImplicit false

namespace Coalition

inductive LevelFault where
  | unknownName
  | offset (error : Text.NumberError)

def LevelFault.message : LevelFault → String
  | .unknownName => "unknown name"
  | .offset error => error.message

structure Level where
  severity : Int
deriving DecidableEq, Repr

namespace Level

def named : List (String × Int) := [("DEBUG", -4), ("INFO", 0), ("WARN", 4), ("ERROR", 8)]

-- A name in any case, and the number of steps after it with its sign.
def read (text : String) : Except LevelFault Level := do
  let isName (c : Char) : Bool := c != '+' && c != '-'
  let name := String.ofList (text.toList.takeWhile isName)
  let steps := String.ofList (text.toList.dropWhile isName)
  let offset ← if steps.isEmpty then pure 0 else (Text.readDecimal steps).mapError .offset
  match named.lookup (Text.upper name) with
  | some severity => .ok ⟨(severity + offset).bmod 0x10000000000000000⟩
  | none => .error .unknownName

-- The highest named level that is not above the level, or the lowest.
def base (level : Level) : String × Int :=
  (named.reverse.find? fun entry => entry.2 ≤ level.severity).getD ("DEBUG", -4)

def text (level : Level) : String :=
  let (name, severity) := level.base
  let offset := level.severity - severity
  if offset == 0 then name
  else name ++ (if 0 < offset then "+" else "-") ++ s!"{offset.natAbs}"

end Level

end Coalition
