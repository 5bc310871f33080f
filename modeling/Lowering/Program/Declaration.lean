import Lowering.Program.Form

/-!
# Declarations

A program declares functions, `(func NAME (ESCAPE...) BODY)`, each name once. The body stays a form until it
is built in the frame of its function.
-/

namespace Lowering.Program

/-- A declared function, with the source that its body refers to. -/
structure Declaration where
  name : Label
  /-- Which formals need an address. -/
  escapes : List Bool
  body : SExpr
  source : Source

/-- Why a program could not be read. -/
inductive ProgramError where
  | parse (error : ParseError)
  | form (error : FormError)

def ProgramError.message : ProgramError → Text
  | .parse error => "parse: " ++ error.message
  | .form error => error.message

/-- The flags of the formals from number `index` on. -/
def readEscapes (src : Source) (function : Text) (index : Nat) : List SExpr → Except FormError (List Bool)
  | [] => .ok []
  | x :: rest =>
    match flagOf src x with
    | .error e => .error (e.within (.formal function index))
    | .ok flag => do
      let flags ← readEscapes src function (index + 1) rest
      return flag :: flags

/-- Reads a declaration, given the names declared before it. -/
def readDeclaration (src : Source) (seen : List Text) (x : SExpr) : Except FormError Declaration :=
  match x with
  | .list _ [.atom _ head, nameExpr, escapesExpr, body] =>
    if head = Text.ofString "func" then do
      let name ←
        match nameOf src nameExpr with
        | .ok name => .ok name
        | .error e => .error (e.within .functionName)
      if seen.contains name then
        .error (errorAt src nameExpr (.duplicateFunction name))
      else
        match escapesExpr with
        | .list _ flags => do
          let escapes ← readEscapes src name 0 flags
          return { name, escapes, body, source := src }
        | _ => .error (errorAt src escapesExpr .noEscapes)
    else .error (errorAt src x .noFunction)
  | _ => .error (errorAt src x .noFunction)

/-- Reads declarations, given the names declared before them. -/
def readDeclarations (src : Source) (seen : List Text) : List SExpr → Except FormError (List Declaration)
  | [] => .ok []
  | x :: rest => do
    let d ← readDeclaration src seen x
    let ds ← readDeclarations src (d.name :: seen) rest
    return d :: ds

/-- The declarations of a program text. -/
def parse (name text : Text) : Except (Stop ProgramError) (List Declaration) :=
  let src := Source.ofFile name text
  match src.parse .file with
  | .error why => .error (why.map .parse)
  | .ok (.expr x) => .error (.failed (.form (errorAt src x .noFunction)))
  | .ok (.document d) =>
    match readDeclarations src [] d.forms with
    | .error e => .error (.failed (.form e))
    | .ok ds => .ok ds

end Lowering.Program
