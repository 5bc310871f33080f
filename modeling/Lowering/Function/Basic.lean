import Lowering.Instr.Check
import Lowering.Program.Build
import Lowering.Selection
import Lowering.X86.Rules

/-!
# Lowering functions

A function is lowered in its own frame: its body is built, put between entry and exit code, tiled by the
rules of the target and, on request, checked for registers that are used before they are defined.
-/

namespace Lowering

/-- How the body of a function comes about. -/
inductive Body where
  /-- It is there already. -/
  | tree (s : Stm)
  /-- It is built from its declaration. -/
  | declared (d : Program.Declaration)
  /-- It could not be supplied. -/
  | refused (message : Text)

/-- A function to be lowered. -/
structure Function where
  name : Label
  /-- Which formals need an address. -/
  escapes : List Bool
  body : Body

/-- The function that a declaration declares. -/
def Program.Declaration.function (d : Program.Declaration) : Function where
  name := d.name
  escapes := d.escapes
  body := .declared d

/-- The targets that code can be lowered to. -/
inductive Target where
  | x86
  deriving DecidableEq, Repr

/-- A name that no target has. -/
structure UnknownTarget where
  name : Text

def UnknownTarget.message (u : UnknownTarget) : Text := "unknown target: " ++ u.name.quoted

/-- The target of a name. -/
def Target.ofName (name : Text) : Except UnknownTarget Target :=
  if name = Text.ofString "x86" then .ok .x86 else .error ⟨name⟩

/-- How functions are to be lowered. -/
structure Options where
  target : Option Target
  /-- Check the code for registers used before they are defined. -/
  validate : Bool := false
  /-- The work was called off before it began. -/
  canceled : Bool := false

/-- Why a function could not be lowered. -/
inductive LowerError where
  | canceled
  | noTarget
  | form (error : Program.FormError)
  | bodyRefused (message : Text)
  | refused (why : Refusal)
  | undefinedUse (use : UndefinedUse)

def LowerError.message : LowerError → Text
  | .canceled => "context canceled"
  | .noTarget => "no target"
  | .form error => "build body: " ++ error.message
  | .bodyRefused message => "build body: " ++ orNoMessage message
  | .refused why => "munch: " ++ why.message
  | .undefinedUse use => "validate: " ++ use.message

/-- A computation of the back end. -/
abbrev Backend (ε : Type) := ExceptT (Stop ε) (StateM Session)

namespace Backend

/-- Runs a computation whose errors are of another type. -/
def mapError {ε δ α : Type} (f : ε → δ) (x : Backend ε α) : Backend δ α :=
  ExceptT.adapt (Stop.map f) x

end Backend

namespace Body

/-- The tree of a body, and the frame once the body's locals are in it. -/
def build [S : Supply] (body : Body) (frame : X86.Frame) : Backend LowerError (Stm × X86.Frame) :=
  match body with
  | .tree s => return (s, frame)
  | .refused message => throw (.failed (.bodyRefused message))
  | .declared d => do
    let session ← get
    let (result, w) := d.build frame session
    set w.session
    match result with
    | .ok s => return (s, w.frame)
    | .error why => throw (why.map .form)

end Body

/-- Tiles a tree by the rules of the target and yields its code. -/
def tile [S : Supply] (s : Stm) : Backend LowerError (List Instr) := do
  let session ← get
  let (result, log) := (X86.rules.tileStm s).run.run { session }
  set log.session
  match result with
  | .ok () => return log.code
  | .error why => throw (why.map .refused)

namespace Function

/-- Lowers a function. -/
def lower [S : Supply] (fn : Function) (options : Options) : Backend LowerError X86.Procedure := do
  Session.record (.function fn.name fn.escapes)
  if options.canceled then
    throw (.failed .canceled)
  if options.target.isNone then
    throw (.failed .noTarget)
  let frame ← X86.Frame.create fn.name fn.escapes
  let (body, frame) ← fn.body.build frame
  let whole ← frame.wrap body
  Session.record (.wholeTree whole)
  let code := X86.Frame.withExit (← tile whole)
  if options.validate then
    match checkDefined code [] with
    | .ok () => pure ()
    | .error why => throw (why.map .undefinedUse)
  Session.record (.lowered code.length)
  return frame.procedure code

end Function

end Lowering
