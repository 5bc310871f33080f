import Lowering.SExpr.Grammar

/-!
# Sources

A source is a sequence of files read as one text. A position of that text is located in the first file that
reaches up to it, by line and column from one. Reading succeeds if nothing but blanks is left over.
-/

namespace Lowering

/-- A named text. -/
structure SourceFile where
  name : Text
  text : Text
  deriving DecidableEq, Repr

/-- The files of a source, in order. -/
structure Source where
  files : List SourceFile := []
  deriving DecidableEq, Repr

/-- Why a source could not be read. -/
inductive ParseError where
  | read (place : Text) (error : ReadError)
  /-- A node was read, and text is left over at a position. -/
  | leftOver (place : Text) (pos : Nat) (node : Node)

/-- The text of an error. -/
def ParseError.message : ParseError → Text
  | .read place error => place ++ ": " ++ error.message
  | .leftOver place pos _ => place ++ ": partial read: unexpected text at " ++ Text.ofNat pos

namespace Source

/-- The source of one file. -/
def ofFile (name text : Text) : Source := ⟨[⟨name, text⟩]⟩

/-- Adds a file at the end. -/
def add (s : Source) (name text : Text) : Source := ⟨s.files ++ [⟨name, text⟩]⟩

/-- The texts of all files. -/
def text (s : Source) : Text := s.files.flatMap (·.text)

/-- The line and column behind the given start of a file. -/
def lineColumn (before : Text) : Nat × Nat :=
  (1 + before.count Text.newline, 1 + (before.reverse.takeWhile (· != Text.newline)).length)

/-- The location of a position in the files from position `base` on. -/
def locationFrom (base : Nat) (files : List SourceFile) (pos : Int) : Text :=
  match files with
  | [] => "pos " ++ Text.ofInt pos
  | f :: rest =>
    if base ≤ pos ∧ pos ≤ base + f.text.length then
      let (line, column) := lineColumn (f.text.take (pos - base).toNat)
      f.name ++ ":" ++ Text.ofNat line ++ ":" ++ Text.ofNat column
    else locationFrom (base + f.text.length) rest pos

/-- The location of a position: file, line and column. -/
def location (s : Source) (pos : Int) : Text := locationFrom 0 s.files pos

/-- The text between two positions. -/
def slice (s : Source) (start stop : Int) : Except Fault Text :=
  if start < 0 ∨ stop < start then .error .noSuchSlice
  else .ok ((s.text.drop start.toNat).take (stop - start).toNat)

/-- Reads the whole source by a grammar. -/
def parse (s : Source) (g : Grammar) : Except (Stop ParseError) Node :=
  let text := s.text
  match g.parse text 0 with
  | .error (.fault f) => .error (.fault f)
  | .error (.failed e) => .error (.failed (.read (s.location e.pos) e))
  | .ok (node, stop) =>
    let last := Skipper.blank.skip text stop
    if last ≠ text.length then .error (.failed (.leftOver (s.location last) last node)) else .ok node

end Source

end Lowering
