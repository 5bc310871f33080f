import Lowering.Program.Declaration
import Lowering.X86.Frame

/-!
# Building bodies

The body of a declaration is built into a tree in the frame of its function. Named registers and locals are
made when they are first met, and every later mention refers to the same one. What was made before an error
stays in the frame.
-/

namespace Lowering.Program

/-- What a body is built in: the session, the frame, and the names met so far. -/
structure Workspace where
  session : Session
  frame : X86.Frame
  temps : List (Text × Temp) := []
  locals : List (Text × Access) := []

/-- A step of building. -/
abbrev Building := ExceptT (Stop FormError) (StateM Workspace)

namespace Building

/-- Goes on with a value or fails. -/
def ofExcept {α : Type} : Except FormError α → Building α
  | .ok a => pure a
  | .error e => throw (.failed e)

/-- Fails at an expression. -/
def fail {α : Type} (src : Source) (x : SExpr) (problem : Problem) : Building α :=
  throw (.failed (errorAt src x problem))

/-- Puts one more step around the errors of a part. -/
def within {α : Type} (step : Step) (part : Building α) : Building α :=
  tryCatch part fun why => throw (why.map (·.within step))

/-- The register of a name. -/
def namedTemp [S : Supply] (name : Text) : Building Temp := do
  let w ← get
  match w.temps.lookup name with
  | some t => return t
  | none =>
    let (t, session) := Session.freshTemp.run w.session
    set { w with session, temps := (name, t) :: w.temps }
    return t

/-- The storage of a local; the flag matters when the name is met for the first time. -/
def namedLocal [S : Supply] (name : Text) (escapes : Bool) : Building Access := do
  let w ← get
  match w.locals.lookup name with
  | some a => return a
  | none =>
    match (w.frame.addLocal escapes).run w.session with
    | (.error f, session) =>
      set { w with session }
      throw (.fault f)
    | (.ok (a, frame), session) =>
      set { w with session, frame, locals := (name, a) :: w.locals }
      return a

end Building

/-- The heads of statements. -/
inductive StmHead where
  | move
  | exp
  | label
  | seq
  | jump
  | cjump
  deriving DecidableEq, Repr

namespace StmHead

def all : List StmHead := [.move, .exp, .label, .seq, .jump, .cjump]

def text : StmHead → Text
  | .move => "move"
  | .exp => "exp"
  | .label => "label"
  | .seq => "seq"
  | .jump => "jump"
  | .cjump => "cjump"

def ofText? (t : Text) : Option StmHead := all.find? (·.text == t)

end StmHead

/-- The heads of expressions, operators apart. -/
inductive ExpHead where
  | const
  | temp
  | formal
  | local
  | mem
  | name
  | call
  | eseq
  deriving DecidableEq, Repr

namespace ExpHead

def all : List ExpHead := [.const, .temp, .formal, .local, .mem, .name, .call, .eseq]

def text : ExpHead → Text
  | .const => "const"
  | .temp => "temp"
  | .formal => "formal"
  | .local => "local"
  | .mem => "mem"
  | .name => "name"
  | .call => "call"
  | .eseq => "eseq"

def ofText? (t : Text) : Option ExpHead := all.find? (·.text == t)

end ExpHead

/-- A constant, signed or unsigned, of 32 bits. -/
def constant (src : Source) (x : SExpr) (value : Int) : Building Exp :=
  if value < -0x80000000 ∨ 0xffffffff < value then Building.fail src x (.overflow value)
  else return .const (BitVec.ofInt 32 value)

/-- Can a value be moved there? -/
def isDestination : Exp → Bool
  | .temp _ => true
  | .mem _ => true
  | _ => false

/-- The labels that expressions name. -/
def labelsOf (src : Source) : List SExpr → Building (List Label)
  | [] => return []
  | x :: rest => do
    let l ← Building.ofExcept (nameOf src x)
    let ls ← labelsOf src rest
    return l :: ls

/-- The error for a form with the wrong number of parts. -/
def wrongArity {α : Type} (src : Source) (span : Span) (items : List SExpr) (takes : Nat) : Building α :=
  Building.fail src (.list span items) (.arity (headOf items) takes (argsOf items).length)

mutual

/-- Builds a statement. -/
def buildStm [S : Supply] (src : Source) (x : SExpr) : Building Stm :=
  match x with
  | .list span items =>
    match StmHead.ofText? (headOf items) with
    | none => Building.fail src (.list span items) (.unknownStatement (headOf items))
    | some .move =>
      match items with
      | [_, d, s] => do
        let dst ← Building.within .moveDst (buildExp src d)
        if !isDestination dst then
          Building.fail src d (.moveTo dst)
        let value ← Building.within .moveSrc (buildExp src s)
        return .move dst value
      | items => wrongArity src span items 2
    | some .exp =>
      match items with
      | [_, e] => do
        let value ← buildExp src e
        return .exp value
      | items => wrongArity src span items 1
    | some .label =>
      match items with
      | [_, l] => do
        let name ← Building.ofExcept (nameOf src l)
        return .label name
      | items => wrongArity src span items 1
    | some .seq =>
      match items with
      | _ :: parts => do
        let stms ← buildSeq src 0 parts
        return Stm.seqs stms
      | [] => return Stm.seqs []
    | some .jump =>
      match items with
      | [_, l] => do
        let name ← Building.ofExcept (nameOf src l)
        return Stm.goto name
      | _ :: t :: ls => do
        let target ← Building.within .jumpTarget (buildExp src t)
        let labels ← labelsOf src ls
        return .jump target labels
      | items => Building.fail src (.list span items) .noJumpTarget
    | some .cjump =>
      match items with
      | [_, o, l, r, t, f] => do
        let name ← Building.ofExcept (nameOf src o)
        match Rel.ofText? name with
        | none => Building.fail src o (.unknownRelation name)
        | some rel =>
          let left ← Building.within .left (buildExp src l)
          let right ← Building.within .right (buildExp src r)
          let ifTrue ← Building.ofExcept (nameOf src t)
          let ifFalse ← Building.ofExcept (nameOf src f)
          return .cjump rel left right ifTrue ifFalse
      | items => wrongArity src span items 5
  | x => Building.fail src x .noStatement

/-- Builds the parts of a sequence, the first one being number `index`. -/
def buildSeq [S : Supply] (src : Source) (index : Nat) (parts : List SExpr) : Building (List Stm) :=
  match parts with
  | [] => return []
  | x :: rest => do
    let s ← Building.within (.seq index) (buildStm src x)
    let ss ← buildSeq src (index + 1) rest
    return s :: ss

/-- Builds an expression. -/
def buildExp [S : Supply] (src : Source) (x : SExpr) : Building Exp :=
  match x with
  | .int span value => constant src (.int span value) value
  | .atom span text =>
    if text = Text.ofString "fp" then return X86.framePointerExp
    else if text = Text.ofString "rv" then return X86.resultExp
    else Building.fail src (.atom span text) (.unknownAtom text)
  | .list span items =>
    match ExpHead.ofText? (headOf items) with
    | some .const =>
      match items with
      | [_, v] =>
        match v with
        | .int vspan value => constant src (.int vspan value) value
        | v => Building.fail src v .noInt
      | items => wrongArity src span items 1
    | some .temp =>
      match items with
      | [_, n] => do
        let name ← Building.ofExcept (nameOf src n)
        let t ← Building.namedTemp name
        return .temp t
      | items => wrongArity src span items 1
    | some .formal =>
      match items with
      | [_, n] => do
        let formals := (← get).frame.formals
        match n with
        | .int nspan value =>
          match (if value < 0 then none else formals[value.toNat]?) with
          | some a => return a.exp X86.framePointerExp
          | none => Building.fail src (.int nspan value) (.formalRange formals.length)
        | n => Building.fail src n (.formalRange formals.length)
      | items => wrongArity src span items 1
    | some .local =>
      match items with
      | [_, n, flag] => do
        let name ← Building.ofExcept (nameOf src n)
        let escapes ← Building.ofExcept (flagOf src flag)
        let a ← Building.namedLocal name escapes
        return a.exp X86.framePointerExp
      | items => wrongArity src span items 2
    | some .mem =>
      match items with
      | [_, a] => do
        let addr ← Building.within .mem (buildExp src a)
        return .mem addr
      | items => wrongArity src span items 1
    | some .name =>
      match items with
      | [_, l] => do
        let name ← Building.ofExcept (nameOf src l)
        return .name name
      | items => wrongArity src span items 1
    | some .call =>
      match items with
      | _ :: f :: args => do
        let func ← Building.within .callTarget (buildExp src f)
        let values ← buildArgs src 0 args
        return .call func values
      | items => Building.fail src (.list span items) .noCallTarget
    | some .eseq =>
      match items with
      | [_, s, e] => do
        let stm ← Building.within .eseqStm (buildStm src s)
        let value ← Building.within .eseqExp (buildExp src e)
        return .eseq stm value
      | items => wrongArity src span items 2
    | none =>
      match Op.ofText? (headOf items) with
      | none => Building.fail src (.list span items) (.unknownExpression (headOf items))
      | some op =>
        match items with
        | [_, l, r] => do
          let left ← Building.within (.opLeft op) (buildExp src l)
          let right ← Building.within (.opRight op) (buildExp src r)
          return .bin op left right
        | items => wrongArity src span items 2

/-- Builds arguments, the first one being number `index`. -/
def buildArgs [S : Supply] (src : Source) (index : Nat) (args : List SExpr) : Building (List Exp) :=
  match args with
  | [] => return []
  | x :: rest => do
    let e ← Building.within (.arg index) (buildExp src x)
    let es ← buildArgs src (index + 1) rest
    return e :: es

end

/-- Builds the body of a declaration in a frame. -/
def Declaration.build [S : Supply] (d : Declaration) (frame : X86.Frame) (session : Session) :
    Except (Stop FormError) Stm × Workspace :=
  (buildStm d.source d.body).run.run { session, frame }

end Lowering.Program
