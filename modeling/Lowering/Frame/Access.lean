import Lowering.Tree.Printer

/-!
# Storage of variables

A formal or a local lives in a slot of its function's frame or in a register of its own.
-/

namespace Lowering

/-- Where a variable lives. -/
inductive Access where
  /-- In the slot at a fixed distance from the frame pointer. -/
  | inFrame (offset : Int)
  /-- In a register of its own. -/
  | inReg (reg : Temp)
  deriving DecidableEq, Repr

namespace Access

/-- The expression for the variable, given one for the frame pointer. -/
def exp (a : Access) (fp : Exp) : Exp :=
  match a with
  | .inFrame offset => .mem (.bin .plus fp (.const (BitVec.ofInt 32 offset)))
  | .inReg reg => .temp reg

def text : Access → Text
  | .inFrame offset => "frame@" ++ Text.ofInt offset
  | .inReg reg => "reg@" ++ reg.text

end Access

end Lowering
