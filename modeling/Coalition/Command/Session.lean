import Coalition.Command.Request
import Coalition.Evaluation.Counters

-- The course of a command: what it prints, and why it fails.

set_option autoImplicit false

namespace Coalition

inductive Failure where
  | line (fault : LineFault)
  | usage (error : Error)
  | input (error : Error)

namespace Failure

def exitCode : Failure → Nat
  | .line _ | .usage _ => 2
  | .input _ => 1

def message? : Failure → Option String
  | .line fault => some fault.message
  | .usage error | .input error => error.message?

end Failure

-- A piece of the output. The time in a table of counters is only known in the end.
inductive Piece where
  | text (text : String)
  | counters (counters : Counters)

def Piece.render (elapsed : String) : Piece → String
  | .text shown => shown
  | .counters totals => totals.table elapsed

abbrev Session (α : Type) := ExceptT Failure (StateM (List Piece)) α

namespace Session

variable {α : Type}

def print (piece : Piece) : Session Unit := modify fun pieces => pieces ++ [piece]

def printLine (line : String) : Session Unit := print (.text (line ++ "\n"))

def printLines (lines : List String) : Session Unit := lines.forM printLine

def require {ε : Type} (failure : ε → Failure) (x : Except ε α) : Session α :=
  match x with
  | .ok a => pure a
  | .error e => throw (failure e)

end Session

structure Transcript where
  pieces : List Piece
  failure : Option Failure

namespace Transcript

def ofSession (session : Session Unit) : Transcript :=
  match session.run.run [] with
  | (.ok _, pieces) => ⟨pieces, none⟩
  | (.error failure, pieces) => ⟨pieces, some failure⟩

def output (transcript : Transcript) (elapsed : String) : String :=
  String.join (transcript.pieces.map (·.render elapsed))

def seconds (milliseconds : Nat) : String :=
  let digits := s!"{milliseconds % 1000}"
  let zeros := String.ofList (List.replicate (3 - digits.length) '0')
  s!"{milliseconds / 1000}." ++ zeros ++ digits ++ "0"

def exitCode (transcript : Transcript) : Nat := transcript.failure.elim 0 Failure.exitCode

end Transcript

end Coalition
