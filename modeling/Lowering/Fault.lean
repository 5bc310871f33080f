import Lowering.Text.Quoted

/-!
# Faults

Lowering can stop in two ways. It *fails* when it has to give up on its input, with an error of the layer
that gave up; it meets a *fault* when its caller broke a rule of the interface, such as a rule action that
reads a hole. A failure leaves no trace in the instruction log, a fault leaves the log as it found it.
-/

namespace Lowering

/-- A broken rule of an interface. -/
inductive Fault where
  /-- Register numbers start at one. -/
  | zeroRegister
  /-- A dense set has no room below its base. -/
  | keyBelowBase
  /-- A template names an operand that its instruction does not have. -/
  | noOperand (placeholder template : Text)
  /-- Only the listed relations have a negation. -/
  | noNegation (relation : Text)
  /-- An action reads a wildcard that its pattern does not bind. -/
  | unbound (wildcard : Text)
  /-- An action reads a wildcard that captured a hole. -/
  | holeRead
  /-- The journal is to note a hole, which has no text. -/
  | holeNoted
  /-- Two calls, two jumps or two lists are compared. -/
  | incomparable
  /-- A grammar is used where none was given. -/
  | noGrammar
  /-- A part of a text is asked for that ends before it starts. -/
  | noSuchSlice
  /-- A position lies before the start of a text. -/
  | noSuchPosition
  /-- The frame that only makes other frames holds no locals. -/
  | noLocals
  /-- Blanks have codes below 64. -/
  | highBlank
  /-- An action lowers its own node again, which would never end. -/
  | endless
  /-- An action raises a fault of its own. -/
  | raised (message : Text)
  deriving DecidableEq, Repr

/-- The text of a fault. -/
def Fault.message : Fault → Text
  | .zeroRegister => "zero register"
  | .keyBelowBase => "key below base"
  | .noOperand placeholder template =>
    "placeholder out of range: " ++ placeholder ++ " in " ++ template.quoted
  | .noNegation relation => relation
  | .unbound wildcard => "wildcard " ++ wildcard ++ " is not bound"
  | .holeRead | .holeNoted | .incomparable | .noGrammar | .noSuchSlice | .noSuchPosition => "runtime error"
  | .noLocals => "x86: AllocLocal on the frame factory, use NewFrame"
  | .highBlank => "too high char code"
  | .endless => "endless lowering"
  | .raised message => message

/-- Why a computation stopped: it failed with an error of its own, or it met a fault. -/
inductive Stop (ε : Type) where
  | failed (error : ε)
  | fault (fault : Fault)
  deriving DecidableEq, Repr

namespace Stop

/-- Changes the error of a failure and keeps a fault. -/
def map {ε δ : Type} (f : ε → δ) : Stop ε → Stop δ
  | .failed e => .failed (f e)
  | .fault x => .fault x

end Stop

end Lowering
