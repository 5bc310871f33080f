import Lowering.Text.Basic

/-!
# Reading files by path

A directory holds files, some of them in directories of its own. A path is read from left to right, starting
in the directory: an empty step and `.` stay where they are, `..` goes up, and any other step goes to what has
that name there. Above the directory nothing is known by name. A path has to end at a file.
-/

namespace Lowering

/-- Why a path leads to no file that can be read. -/
inductive PathProblem where
  /-- There is nothing of that name. -/
  | missing
  /-- The path goes on behind a file. -/
  | notDirectory
  /-- The path ends at a directory. -/
  | isDirectory
  | tooLong
  /-- The path has a zero byte. -/
  | invalid
  deriving DecidableEq, Repr

/-- What was being done when a problem showed. -/
def PathProblem.action : PathProblem → Text
  | .isDirectory => "read"
  | _ => "open"

def PathProblem.text : PathProblem → Text
  | .missing => "no such file or directory"
  | .notDirectory => "not a directory"
  | .isDirectory => "is a directory"
  | .tooLong => "file name too long"
  | .invalid => "invalid argument"

/-- A path that could not be read. -/
structure FileError where
  path : Text
  problem : PathProblem
  deriving DecidableEq, Repr

def FileError.message (e : FileError) : Text :=
  "read file: " ++ e.problem.action ++ " " ++ e.path ++ ": " ++ e.problem.text

/-- A way to read files by path. -/
abbrev FileReader := Text → Except FileError Text

/-- The steps of a path, which slashes divide. -/
def pathSteps : Text → List Text
  | [] => [[]]
  | b :: rest =>
    if b = Text.byte '/' then [] :: pathSteps rest
    else
      match pathSteps rest with
      | [] => [[b]]
      | step :: steps => (b :: step) :: steps

/-- The files of a directory, each with the steps that lead to it. -/
structure Directory where
  files : List (List Text × Text)

namespace Directory

/-- Does the step stay where it is? -/
def isStay (step : Text) : Bool := step.isEmpty || step == Text.ofString "."

/-- Does the step go up? -/
def isUp (step : Text) : Bool := step == Text.ofString ".."

/-- The directory of files given by path. -/
def ofFiles (files : List (Text × Text)) : Directory :=
  ⟨files.map fun (path, text) => ((pathSteps path).filter (!isStay ·), text)⟩

/-- Does some file lie below a place? -/
def hasBelow (d : Directory) (steps : List Text) : Bool := d.files.any fun file => steps.isPrefixOf file.1

/-- Where a path has led so far. -/
inductive Place where
  /-- A directory, by the steps that lead to it. -/
  | inside (steps : List Text)
  /-- A directory above. -/
  | above
  | file (text : Text)
  deriving DecidableEq, Repr

/-- The longest name of a file. -/
def maxName : Nat := 255

/-- The longest path. -/
def maxPath : Nat := 4095

/-- What has a given name in a directory. -/
def named (d : Directory) (steps : List Text) (name : Text) : Except PathProblem Place :=
  if maxName < name.length then .error .tooLong
  else
    match d.files.lookup (steps ++ [name]) with
    | some text => .ok (.file text)
    | none => if d.hasBelow (steps ++ [name]) then .ok (.inside (steps ++ [name])) else .error .missing

/-- Takes one step of a path. -/
def step (d : Directory) (place : Place) (name : Text) : Except PathProblem Place :=
  match place with
  | .file _ => .error .notDirectory
  | .inside steps =>
    if isStay name then .ok (.inside steps)
    else if isUp name then .ok (if steps.isEmpty then .above else .inside steps.dropLast)
    else d.named steps name
  | .above =>
    if isStay name || isUp name then .ok .above
    else if maxName < name.length then .error .tooLong
    else .error .missing

/-- Takes the steps of a path. -/
def walk (d : Directory) (place : Place) : List Text → Except PathProblem Place
  | [] => .ok place
  | name :: rest => do
    let next ← d.step place name
    d.walk next rest

/-- Where a path starts: one that begins with a slash starts above. -/
def start (path : Text) : Place := if path.head? = some (Text.byte '/') then .above else .inside []

/-- Where a path leads. -/
def find (d : Directory) (path : Text) : Except PathProblem Place :=
  if path.contains 0 then .error .invalid
  else if path.isEmpty then .error .missing
  else if maxPath < path.length then .error .tooLong
  else d.walk (start path) (pathSteps path)

/-- The text of the file that a path leads to. -/
def read (d : Directory) : FileReader := fun path =>
  match d.find path with
  | .ok (.file text) => .ok text
  | .ok _ => .error ⟨path, .isDirectory⟩
  | .error problem => .error ⟨path, problem⟩

end Directory

end Lowering
