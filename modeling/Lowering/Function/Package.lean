import Lowering.Directory
import Lowering.Function.Basic
import Lowering.Listing

/-!
# Packages

A package is a list of functions with different names. Its functions are lowered each on its own and listed in
the given order. Here they are lowered in turn; how they may go otherwise is the subject of `Function.Runs`.
A program text compiles to the listing of its functions.
-/

namespace Lowering

/-- Why a package could not be lowered. -/
inductive PackageError where
  | duplicate (name : Label)
  | function (name : Label) (error : LowerError)

def PackageError.message : PackageError → Text
  | .duplicate name => "duplicate func " ++ name
  | .function name error => "func " ++ name ++ ": " ++ error.message

namespace Package

/-- The first name that stands in the list for a second time, given the names before it. -/
def duplicate? (seen : List Label) : List Label → Option Label
  | [] => none
  | name :: rest => if seen.contains name then some name else duplicate? (name :: seen) rest

/-- Lowers functions in order, up to the first that fails. -/
def lowerAll (options : Options) : List Function → Backend PackageError (List X86.Procedure)
  | [] => return []
  | fn :: rest => do
    let p ← Backend.mapError (PackageError.function fn.name) (fn.lower options)
    let ps ← lowerAll options rest
    return p :: ps

/-- Lowers the functions of a package. -/
def lower (options : Options) (fns : List Function) : Backend PackageError (List X86.Procedure) :=
  match duplicate? [] (fns.map (·.name)) with
  | some name => throw (.failed (.duplicate name))
  | none => lowerAll options fns

/-- Lowers the functions of a package and lists them. -/
def compile (options : Options) (fns : List Function) : Backend PackageError Text := do
  Session.record (.package fns.length)
  let ps ← lower options fns
  match Listing.procedures ps with
  | .ok t => return t
  | .error f => throw (.fault f)

end Package

/-- Why a program could not be compiled. -/
inductive CompileError where
  | unread (error : FileError)
  | program (error : Program.ProgramError)
  | package (error : PackageError)

def CompileError.message : CompileError → Text
  | .unread error => error.message
  | .program error => "parse text: " ++ error.message
  | .package error => "compile: " ++ error.message

namespace Program

/-- Compiles a program text to a listing. -/
def compile (options : Options) (name text : Text) : Backend CompileError Text :=
  match Program.parse name text with
  | .error why => throw (why.map .program)
  | .ok ds =>
    Backend.mapError .package (Package.compile options (ds.map (·.function)))

/-- Compiles a file to a listing. -/
def compileFile (options : Options) (read : FileReader) (path : Text) : Backend CompileError Text :=
  match read path with
  | .error e => throw (.failed (.unread e))
  | .ok text => do
    Session.record (.file path text.length)
    compile options path text

end Program

end Lowering
