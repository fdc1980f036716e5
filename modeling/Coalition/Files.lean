import Coalition.Error

-- The files a command can see, by their paths from the directory it is run in.

set_option autoImplicit false

namespace Coalition

inductive Entry where
  | text (content : String)
  | folder

structure Files where
  entries : List (List String × Entry) := []

namespace Files

def parts (path : String) : List String :=
  let names := (path.splitOn "/").filter (· != "")
  if path.startsWith "/" then "/" :: names else names

def enter (place : List String) (part : String) : List String :=
  if part == "." then place
  else if part != ".." then place ++ [part]
  else
    match place.getLast? with
    | none | some ".." => place ++ [".."]
    | some "/" => place
    | some _ => place.dropLast

def settle (parts : List String) : List String := parts.foldl enter []

def everywhere : List (List String × Entry) :=
  [(["/"], .folder), (["/", "dev"], .folder), (["/", "dev", "null"], .text "")]

def entry? (files : Files) (place : List String) : Option Entry :=
  if place.all (· == "..") then some .folder else (files.entries ++ everywhere).lookup place

def pathLimit : Nat := 4095

def partLimit : Nat := 255

def follow (files : Files) (place : List String) : List String → Except FileFault Entry
  | [] =>
      match files.entry? place with
      | some entry => .ok entry
      | none => .error .absent
  | part :: rest =>
      match files.entry? place with
      | some .folder =>
          if partLimit < part.utf8ByteSize then .error .tooLong
          else follow files (enter place part) rest
      | some (.text _) => .error .notFolder
      | none => .error .absent

def locate (files : Files) (path : String) : Except FileFault Entry := do
  if path.contains '\x00' then throw .noPath
  if path.isEmpty then throw .absent
  if pathLimit < path.utf8ByteSize then throw .tooLong
  match ← files.follow [] (parts path) with
  | .text content => if path.endsWith "/" then throw .notFolder else return .text content
  | .folder => return .folder

def read (files : Files) (path : String) : Except Error String :=
  match files.locate path with
  | .ok (.text content) => .ok content
  | .ok .folder => .error (.inside ("read " ++ path) (.file .folder))
  | .error fault => .error (.inside ("open " ++ path) (.file fault))

def text? (files : Files) (path : String) : Option String := (files.read path).toOption

-- The folder that a path lies in, by a path without steps back.
def folderOf (path : String) : String :=
  let names := path.splitOn "/"
  let above := settle (parts ("/".intercalate names.dropLast ++ if 1 < names.length then "/" else ""))
  match above with
  | [] => "."
  | "/" :: names => "/" ++ "/".intercalate names
  | names => "/".intercalate names

def findFolder (files : Files) (path : String) : Except FileFault Unit := do
  let _ ← files.locate (folderOf path)

def add (files : Files) (path : String) (entry : Entry) : Files :=
  let parts := parts path
  let above := (List.range parts.length).map fun n => (settle (parts.take n), Entry.folder)
  ⟨(settle parts, entry) :: files.entries ++ above⟩

def ofTexts (texts : List (String × String)) : Files :=
  texts.foldl (fun files (path, content) => files.add path (.text content)) {}

end Files

end Coalition
