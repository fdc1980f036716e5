import Coalition.Text.Integer

-- Reading the flags among the arguments of a command.

set_option autoImplicit false

namespace Coalition

inductive LineFault where
  | unknownCommand (name : String) (similar : List String)
  | badFlag (text : String)
  | unknownFlag (name : String)
  | unknownLetter (letter : Char) (letters : String)
  | missingValue (name : String)
  | missingLetterValue (letter : Char) (letters : String)
  | badValue (value flag : String) (error : Text.NumberError)
  | argumentCount (received : Nat)
  | unknownFormat (text : String)
  | needsFile (command : String)

namespace LineFault

def similarText (similar : List String) : String :=
  if similar.isEmpty then ""
  else "\n\nDid you mean this?\n" ++ String.join (similar.map fun name => "\t" ++ name ++ "\n")

def message : LineFault → String
  | .unknownCommand name similar =>
      "unknown command " ++ Text.quoted name ++ " for \"atlk\"" ++ similarText similar
  | .badFlag text => "bad flag syntax: " ++ text
  | .unknownFlag name => "unknown flag: --" ++ name
  | .unknownLetter letter letters =>
      "unknown shorthand flag: " ++ Text.quotedChar letter ++ " in -" ++ letters
  | .missingValue name => "flag needs an argument: --" ++ name
  | .missingLetterValue letter letters =>
      "flag needs an argument: " ++ Text.quotedChar letter ++ " in -" ++ letters
  | .badValue value flag error =>
      "invalid argument " ++ Text.quoted value ++ " for " ++ Text.quoted flag ++ " flag: " ++
        error.message
  | .argumentCount received => s!"accepts 1 arg(s), received {received}"
  | .unknownFormat text => "unknown format " ++ Text.quoted text ++ " (expected dot or mermaid)"
  | .needsFile command => command ++ " needs a model file"

end LineFault

structure Flag (α : Type) where
  name : String
  letter : Option Char := none
  /-- The value that counts when none is given, if the flag may stand alone. -/
  alone : Option String := none
  set : String → α → Except Text.NumberError α

namespace Flag

variable {α : Type}

def label (flag : Flag α) : String :=
  (flag.letter.elim "" fun letter => "-" ++ letter.toString ++ ", ") ++ "--" ++ flag.name

def give (flag : Flag α) (value : String) (a : α) : Except LineFault α :=
  (flag.set value a).mapError (.badValue value flag.label)

def named (flags : List (Flag α)) (name : String) : Option (Flag α) :=
  flags.find? fun flag => flag.name == name

def lettered (flags : List (Flag α)) (letter : Char) : Option (Flag α) :=
  flags.find? fun flag => flag.letter == some letter

-- Whether an argument is a flag that takes the next argument as its value.
def takesNext (flags : List (Flag α)) (argument : String) : Bool :=
  if argument.contains '=' then false
  else
    match argument.toList with
    | '-' :: '-' :: name => ((named flags (String.ofList name)).bind (·.alone)).isNone
    | ['-', letter] => letter.utf8Size == 1 && ((lettered flags letter).bind (·.alone)).isNone
    | _ => false

-- A flag that waits for its value, and the fault if there is none.
abbrev Waiting (α : Type) := Flag α × LineFault

-- What has been set so far, and the flag that waits for the next argument.
abbrev Progress (α : Type) := α × Option (Waiting α)

def readLong (flags : List (Flag α)) (a : α) (body : List Char) : Except LineFault (Progress α) := do
  let name := String.ofList (body.takeWhile (· != '='))
  if name.isEmpty || body.head? == some '-' then throw (.badFlag ("--" ++ String.ofList body))
  match named flags name with
  | none => throw (.unknownFlag name)
  | some flag =>
      match body.dropWhile (· != '='), flag.alone with
      | _ :: value, _ => return (← flag.give (String.ofList value) a, none)
      | [], some value => return (← flag.give value a, none)
      | [], none => return (a, some (flag, .missingValue name))

-- The character that a message shows for a letter: its first byte.
def shownLetter (letter : Char) : Char :=
  Char.ofNat (((String.utf8EncodeChar letter).head?).elim 0 UInt8.toNat)

-- A run of letters that starts like this is left to the test runner.
def foreign : String := "test."

-- A run of letters; the last flag may have its value in the same argument.
def readLetters (flags : List (Flag α)) (a : α) : List Char → Except LineFault (Progress α)
  | [] => .ok (a, none)
  | letter :: rest =>
      if foreign.toList.isPrefixOf (letter :: rest) then .ok (a, none) else
      match lettered flags letter with
      | none => .error (.unknownLetter (shownLetter letter) (String.ofList (letter :: rest)))
      | some flag =>
          match rest, flag.alone with
          | '=' :: c :: value, _ => do
              return (← flag.give (String.ofList (c :: value)) a, none)
          | _, some value => do readLetters flags (← flag.give value a) rest
          | [], none => .ok (a, some (flag, .missingLetterValue letter letter.toString))
          | _, none => do return (← flag.give (String.ofList rest) a, none)

-- Read arguments: what the flags set, and the arguments that are no flags.
def readAll (flags : List (Flag α)) : (waiting : Option (Waiting α)) → α → List String →
    Except LineFault (α × List String)
  | some (_, fault), _, [] => .error fault
  | none, a, [] => .ok (a, [])
  | some (flag, _), a, value :: rest => do readAll flags none (← flag.give value a) rest
  | none, a, argument :: rest =>
      match argument.toList with
      | ['-', '-'] => .ok (a, rest)
      | '-' :: '-' :: body => do
          let (a, waiting) ← readLong flags a body
          readAll flags waiting a rest
      | '-' :: c :: letters => do
          let (a, waiting) ← readLetters flags a (c :: letters)
          readAll flags waiting a rest
      | _ => do
          let (a, others) ← readAll flags none a rest
          return (a, argument :: others)

def read (flags : List (Flag α)) (a : α) (arguments : List String) :
    Except LineFault (α × List String) :=
  readAll flags none a arguments

end Flag

end Coalition
