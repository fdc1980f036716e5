import Coalition.Formula.Token
import Coalition.Model.Expression.Problem
import Coalition.Model.Validation
import Coalition.Region.Space
import Coalition.Settings.Level

-- A failure inside some part of the input is wrapped in the name of that part.

set_option autoImplicit false

namespace Coalition

inductive FileFault where
  | absent
  | folder
  | notFolder
  | tooLong
  | noPath

def FileFault.message : FileFault → String
  | .absent => "no such file or directory"
  | .folder => "is a directory"
  | .notFolder => "not a directory"
  | .tooLong => "file name too long"
  | .noPath => "invalid argument"

inductive Error where
  | parse (error : ParseError)
  | unknownAgent (name : String)
  /-- An expression, or the variable or name it is about, and what is wrong with it. -/
  | expression (subject : String) (problem : Expression.Problem)
  | nextOfInput (name : String)
  | defineCycle (name : String)
  | model (problem : ModelProblem)
  | domain (fault : DomainFault)
  | notAMapping (line : Nat)
  | emptyDocument
  | badDocument
  | unknownModel (name : String) (available : List String)
  | option (kind text : String) (expected : List String)
  | setting (name text : String) (error : Text.NumberError)
  | level (text : String) (fault : LevelFault)
  | unsupportedSemantics (variant semantics : String)
  | space (fault : Space.Fault)
  | canceled
  | noThreshold
  | endless
  | file (fault : FileFault)
  | longLine
  | inside (part : String) (error : Error)

namespace Error

def message? : Error → Option String
  | .parse e => some e.message
  | .unknownAgent name => some ("unknown agent or group " ++ Text.quoted name)
  | .expression subject problem => some (subject ++ ": " ++ problem.message)
  | .nextOfInput name => some (name ++ ": next() of an input variable")
  | .defineCycle name => some (name ++ ": define refers to itself")
  | .model (.unknownMember group name) => some (ModelProblem.unknownMember group name).message
  | .model problem => some ("invalid model: " ++ problem.message)
  | .domain fault => fault.message?.map ("invalid model: " ++ ·)
  | .notAMapping line => some s!"invalid model: line {line}: variables must be a mapping"
  | .emptyDocument => some "invalid model: EOF"
  | .badDocument => none
  | .unknownModel name available =>
      some ("unknown model " ++ Text.quoted name ++ " (available: " ++ ", ".intercalate available ++ ")")
  | .option kind text expected =>
      some ("invalid option: " ++ kind ++ " " ++ Text.quoted text ++ " (expected one of " ++
        ", ".intercalate expected ++ ")")
  | .setting name text error => some (name ++ "=" ++ Text.quoted text ++ ": " ++ error.message)
  | .level text fault =>
      some ("log level " ++ Text.quoted text ++ ": slog: level string " ++ Text.quoted text ++ ": " ++
        fault.message)
  | .unsupportedSemantics variant semantics =>
      some (variant ++ " variant: unsupported semantics: " ++ semantics)
  | .space fault => fault.message?
  | .canceled => some "context canceled"
  | .noThreshold => none
  | .endless => none
  | .file fault => some fault.message
  | .longLine => some "bufio.Scanner: token too long"
  | .inside part error => error.message?.map (part ++ ": " ++ ·)

def cause : Error → Error
  | .inside _ error => error.cause
  | error => error

end Error

end Coalition
