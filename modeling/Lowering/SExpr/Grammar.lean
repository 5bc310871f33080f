import Lowering.SExpr.Reader

/-!
# Grammars

A grammar is a description of texts that can be put together from smaller ones. Reading starts at a position
and stops at one that is not before it, whether it succeeds or fails; an alternative that fails after it has
moved on ends the search for one that fits.
-/

namespace Lowering

/-- A description of texts. -/
inductive Grammar where
  /-- No grammar: what stands around a grammar may be missing, the grammar itself may not. -/
  | missing
  | const (text : Text)
  | atom
  | int
  | list
  | expr
  | file
  /-- A grammar between two others, each of which may be missing. -/
  | context (before inner after : Grammar)
  | anyOf (alternatives : List Grammar)
  /-- A grammar behind blanks. -/
  | spaced (inner : Grammar) (skipper : Skipper)

namespace Grammar

/-- The name of a grammar in messages. -/
def name : Grammar → Text
  | .missing => "<nil>"
  | .const _ => "parse.Const"
  | .atom => "parse.Atom"
  | .int => "parse.Int"
  | .list => "parse.List"
  | .expr => "parse.Expr"
  | .file => "parse.File"
  | .context .. => "parse.Context"
  | .anyOf _ => "parse.AnyOf"
  | .spaced .. => "parse.Spacer"

def isMissing : Grammar → Bool
  | .missing => true
  | _ => false

/-- The result of reading: a node and the position behind it. -/
abbrev Result := Except (Stop ReadError) (Node × Nat)

/-- The result of a reader of expressions. -/
def ofReader : Except ReadError (SExpr × Nat) → Result
  | .ok (e, stop) => .ok (.expr e, stop)
  | .error e => .error (.failed e)

mutual

/-- Reads the text `rest`, which starts at position `pos`. -/
def parse (g : Grammar) (rest : Text) (pos : Nat) : Result :=
  match g with
  | .missing => .error (.fault .noGrammar)
  | .const text =>
    if text.isPrefixOf rest then .ok (.expr (.atom ⟨pos, pos + text.length⟩ text), pos + text.length)
    else .error (.failed { pos, problem := .expected text })
  | .atom => ofReader (SExpr.readAtom rest pos)
  | .int => ofReader (SExpr.readInt rest pos)
  | .list => ofReader (SExpr.readList rest pos)
  | .expr => ofReader (SExpr.readExpr rest pos)
  | .file =>
    match SExpr.readDocument rest pos with
    | .ok (d, stop) => .ok (.document d, stop)
    | .error e => .error (.failed e)
  | .context before inner after => do
    let start ←
      if before.isMissing then .ok pos
      else
        match before.parse rest pos with
        | .ok (_, stop) => .ok stop
        | .error why => .error (why.map (·.within [.before]))
    let (node, stop) ← inner.parse (rest.drop (start - pos)) start
    if after.isMissing then .ok (node, stop)
    else
      match after.parse (rest.drop (stop - pos)) stop with
      | .ok (_, last) => .ok (node, last)
      | .error why => .error (why.map (·.within [.after]))
  | .anyOf alternatives => parseAny alternatives (alternatives.map name) rest pos
  | .spaced inner skipper =>
    let k := skipper.count rest
    match inner.parse (rest.drop k) (pos + k) with
    | .ok found => .ok found
    | .error why =>
      .error (why.map fun e =>
        { e with pos := if e.pos = pos + k then pos else e.pos }.within [.inside inner.name])

/-- Reads by the first alternative that fits; `names` are those of all alternatives. -/
def parseAny (alternatives : List Grammar) (names : List Text) (rest : Text) (pos : Nat) : Result :=
  match alternatives with
  | [] => .error (.failed { pos, problem := .noneOf names })
  | g :: gs =>
    match g.parse rest pos with
    | .ok found => .ok found
    | .error (.fault f) => .error (.fault f)
    | .error (.failed e) =>
      if e.pos ≠ pos then .error (.failed (e.within [.inside g.name])) else parseAny gs names rest pos

end

end Grammar

end Lowering
