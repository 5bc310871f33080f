import Lowering.SExpr.Source
import Lowering.Tree.Printer

/-!
# Forms of a program

A program is written in forms, lists whose head says what they are. A form that does not fit is an error at
its position, reported with the way that leads to it from the outermost form.
-/

namespace Lowering.Program

/-- What is wrong with a form. -/
inductive Problem where
  | noFunction
  | noName
  | duplicateFunction (name : Text)
  | noEscapes
  | noFlag
  | noStatement
  | unknownStatement (head : Text)
  | unknownExpression (head : Text)
  | unknownAtom (text : Text)
  | unknownRelation (name : Text)
  /-- The form has the wrong number of parts. -/
  | arity (head : Text) (takes got : Nat)
  /-- The destination can hold no value. -/
  | moveTo (dst : Exp)
  | noJumpTarget
  | noCallTarget
  | noInt
  | formalRange (formals : Nat)
  | overflow (value : Int)
  deriving DecidableEq

def Problem.message : Problem → Text
  | .noFunction => "(func NAME (ESCAPE...) BODY) expected"
  | .noName => "name expected"
  | .duplicateFunction name => "duplicate func " ++ name
  | .noEscapes => "escapes list expected"
  | .noFlag => "true or false expected"
  | .noStatement => "statement expected"
  | .unknownStatement head => "unknown statement " ++ head.quoted
  | .unknownExpression head => "unknown expression " ++ head.quoted
  | .unknownAtom text => "unknown atom " ++ text.quoted
  | .unknownRelation name => "unknown relation " ++ name.quoted
  | .arity head takes got => head ++ " takes " ++ Text.ofNat takes ++ " args, got " ++ Text.ofNat got
  | .moveTo dst => "move to " ++ dst.text
  | .noJumpTarget => "jump target expected"
  | .noCallTarget => "call target expected"
  | .noInt => "int expected"
  | .formalRange formals => "formal index out of range: have " ++ Text.ofNat formals ++ " formals"
  | .overflow value => "constant overflows 32 bits: " ++ Text.ofInt value

/-- A step from a form to one of its parts. -/
inductive Step where
  | functionName
  | formal (function : Text) (index : Nat)
  | moveDst
  | moveSrc
  | seq (index : Nat)
  | jumpTarget
  | left
  | right
  | mem
  | callTarget
  | arg (index : Nat)
  | eseqStm
  | eseqExp
  | opLeft (op : Op)
  | opRight (op : Op)
  deriving DecidableEq

def Step.text : Step → Text
  | .functionName => "func name"
  | .formal function index => "func " ++ function ++ ": formal " ++ Text.ofNat index
  | .moveDst => "move dst"
  | .moveSrc => "move src"
  | .seq index => "seq " ++ Text.ofNat index
  | .jumpTarget => "jump target"
  | .left => "left"
  | .right => "right"
  | .mem => "mem"
  | .callTarget => "call target"
  | .arg index => "arg " ++ Text.ofNat index
  | .eseqStm => "eseq stm"
  | .eseqExp => "eseq exp"
  | .opLeft op => op.text ++ " left"
  | .opRight op => op.text ++ " right"

/-- A problem with a form, where the form starts, and the steps that lead to it, outermost first. -/
structure FormError where
  pos : Nat
  place : Text
  path : List Step := []
  problem : Problem
  deriving DecidableEq

namespace FormError

/-- Puts one more step around an error. -/
def within (e : FormError) (step : Step) : FormError := { e with path := step :: e.path }

/-- The text of an error. -/
def message (e : FormError) : Text :=
  Text.join ": " (e.path.map Step.text ++ [e.place ++ ": " ++ e.problem.message])

end FormError

/-! ### Parts that forms share -/

/-- The error for an expression. -/
def errorAt (src : Source) (x : SExpr) (problem : Problem) : FormError :=
  { pos := x.span.start, place := src.location x.span.start, problem }

/-- The word that an expression is. -/
def nameOf (src : Source) (x : SExpr) : Except FormError Text :=
  match x with
  | .atom _ text => .ok text
  | _ => .error (errorAt src x .noName)

/-- The truth value that an expression spells. -/
def flagOf (src : Source) (x : SExpr) : Except FormError Bool :=
  match x with
  | .atom _ text =>
    if text = Text.ofBool true then .ok true
    else if text = Text.ofBool false then .ok false
    else .error (errorAt src x .noFlag)
  | _ => .error (errorAt src x .noFlag)

end Lowering.Program
