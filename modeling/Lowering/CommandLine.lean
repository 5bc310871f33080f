import Lowering.Function.Package

/-!
# The command line

`parse FILE...` prints the tree of every function, `lower FILE...` the listing of every file. Options may
stand anywhere: `--target NAME`, `--validate` and `-v TOPICS`. One session serves all files. What was printed
before a failure stays; a fault ends the run at once.
-/

namespace Lowering.CommandLine

/-! ### Arguments -/

/-- What the command line asks for. -/
structure Request where
  target : Text := "x86"
  validate : Bool := false
  /-- The command and its files. -/
  words : List Text := []
  deriving DecidableEq, Repr

/-- Why the arguments make no request. -/
inductive UsageError where
  | noValue (option : Text)
  | badValue (option value : Text)
  | unknownOption (option : Text)
  | noCommand
  | unknownCommand (name : Text)

def UsageError.message : UsageError → Text
  | .noValue option => option ++ ": value expected"
  | .badValue option value => option ++ ": bad value: " ++ value.quoted
  | .unknownOption option => "unknown flag: " ++ option
  | .noCommand => "command expected"
  | .unknownCommand name => "unknown command: " ++ name

/-- The options that take a value. -/
inductive Valued where
  | target
  | verbosity
  deriving DecidableEq, Repr

/-- The option of a name. -/
def Valued.ofName? (name : Text) : Option Valued :=
  if name = Text.ofString "--target" then some .target
  else if name = Text.ofString "--verbosity" ∨ name = Text.ofString "-v" then some .verbosity
  else none

/-- Sets an option that takes a value. -/
def Request.set (r : Request) (option : Valued) (value : Text) : Request :=
  match option with
  | .target => { r with target := value }
  | .verbosity => r

/-- The name of an option and the value after an equals sign, if there is one. -/
def splitValue (arg : Text) : Text × Option Text :=
  let name := arg.takeWhile (· != Text.byte '=')
  match arg.drop name.length with
  | [] => (name, none)
  | _ :: value => (name, some value)

/-- Reads the arguments. -/
def readArgs (r : Request) : List Text → Except UsageError Request
  | [] => .ok r
  | arg :: rest =>
    if arg.head? ≠ some (Text.byte '-') then readArgs { r with words := r.words ++ [arg] } rest
    else
      let (name, value?) := splitValue arg
      match Valued.ofName? name with
      | some option =>
        match value?, rest with
        | some value, rest => readArgs (r.set option value) rest
        | none, value :: rest => readArgs (r.set option value) rest
        | none, [] => .error (.noValue name)
      | none =>
        if name = Text.ofString "--validate" then
          match value? with
          | none => readArgs { r with validate := true } rest
          | some value =>
            if value = Text.ofBool true then readArgs { r with validate := true } rest
            else if value = Text.ofBool false then readArgs { r with validate := false } rest
            else .error (.badValue name value)
        else .error (.unknownOption name)

/-! ### Commands -/

/-- How a command failed. -/
inductive CommandError where
  | target (error : UnknownTarget)
  | unread (file : Text) (error : FileError)
  | program (file : Text) (error : Program.ProgramError)
  | build (file : Text) (function : Label) (error : Program.FormError)
  | compile (file : Text) (error : CompileError)

def CommandError.message : CommandError → Text
  | .target error => error.message
  | .unread file error => "parse " ++ file ++ ": " ++ error.message
  | .program file error => "parse " ++ file ++ ": " ++ error.message
  | .build file function error => file ++ ": func " ++ function ++ ": " ++ error.message
  | .compile file error => "lower " ++ file ++ ": " ++ error.message

/-- What a command works on: the session and what was printed so far. -/
structure Console where
  session : Session := {}
  printed : Text := []

/-- A step of a command. -/
abbrev Running := ExceptT (Stop CommandError) (StateM Console)

namespace Running

/-- Prints a text. -/
def print (t : Text) : Running Unit := modify fun c => { c with printed := c.printed ++ t }

/-- Runs a computation of the back end. -/
def backend {ε α : Type} (f : ε → CommandError) (x : Backend ε α) : Running α := do
  let c ← get
  let (result, session) := x.run.run c.session
  set { c with session }
  match result with
  | .ok a => return a
  | .error why => throw (why.map f)

end Running

/-- The tree of a declaration, built in a frame of its own. -/
def declaredTree (d : Program.Declaration) : Backend Program.FormError Stm := do
  let frame ← X86.Frame.create d.name d.escapes
  let session ← get
  let (result, w) := d.build frame session
  set w.session
  match result with
  | .ok s => return s
  | .error why => throw why

/-- Prints the trees of declarations. -/
def printTrees (file : Text) : List Program.Declaration → Running Unit
  | [] => return ()
  | d :: rest => do
    let s ← Running.backend (.build file d.name) (declaredTree d)
    Running.print (d.name ++ " " ++ Text.bracketed (d.escapes.map Text.ofBool) ++ "\n" ++ s.text ++ "\n")
    printTrees file rest

/-- Prints the trees of files. -/
def parseFiles (read : FileReader) : List Text → Running Unit
  | [] => return ()
  | name :: rest => do
    match read name with
    | .error e => throw (.failed (.unread name e))
    | .ok text =>
      match Program.parse name text with
      | .error why => throw (why.map (.program name))
      | .ok ds =>
        printTrees name ds
        parseFiles read rest

/-- Prints the listings of files. -/
def lowerFiles (options : Options) (read : FileReader) : List Text → Running Unit
  | [] => return ()
  | name :: rest => do
    let t ← Running.backend (.compile name) (Program.compileFile options read name)
    Running.print t
    lowerFiles options read rest

/-! ### Running -/

/-- What a run prints, the complaint it ends with, and its exit code. -/
structure Outcome where
  code : Nat
  printed : Text
  complaint : Option Text
  deriving DecidableEq, Repr

/-- The outcome of a run that was refused for its arguments. -/
def Outcome.ofUsage (e : UsageError) : Outcome := ⟨1, [], some e.message⟩

/-- Runs a command; its name stands before its complaints. -/
def runCommand (name : Text) (request : Request) (command : Target → Running Unit) : Outcome :=
  match Target.ofName request.target with
  | .error e => ⟨1, [], some (name ++ ": " ++ (CommandError.target e).message)⟩
  | .ok target =>
    match (command target).run.run {} with
    | (.ok (), c) => ⟨0, c.printed, none⟩
    | (.error (.failed e), c) => ⟨1, c.printed, some (name ++ ": " ++ e.message)⟩
    | (.error (.fault _), c) => ⟨2, c.printed, none⟩

/-- Runs the arguments, with a way to read the files that they name. -/
def run (read : FileReader) (args : List Text) : Outcome :=
  match readArgs {} args with
  | .error e => .ofUsage e
  | .ok request =>
    match request.words with
    | [] => .ofUsage .noCommand
    | name :: names =>
      if name = Text.ofString "parse" then
        runCommand name request fun _ => parseFiles read names
      else if name = Text.ofString "lower" then
        runCommand name request fun target =>
          lowerFiles { target := some target, validate := request.validate } read names
      else .ofUsage (.unknownCommand name)

end Lowering.CommandLine
