import Lowering.Fault

/-!
# Registers and labels

Lowering knows registers by number. Positive numbers are virtual registers, handed out as they are needed;
negative numbers are fixed to a register of the machine. Zero is neither: it is what an unset name of a
register stands for.
-/

namespace Lowering

/-- A register: virtual if its number is positive, fixed to a machine register if it is negative. -/
structure Temp where
  id : Int
  deriving DecidableEq, Repr, Inhabited

namespace Temp

/-- Is the register fixed to one of the machine? -/
def isFixed (t : Temp) : Bool := t.id < 0

/-- The number of the machine register, in eight bits. -/
def reg? (t : Temp) : Option UInt8 := if t.isFixed then some (UInt8.ofInt (-t.id)) else none

/-- The register fixed to machine register `r`. -/
def fixed (r : UInt8) : Except Fault Temp :=
  if r = 0 then .error .zeroRegister else .ok ⟨-r.toNat⟩

/-- A register is written `t` and its number, or `r` and the number of the machine register. -/
def text (t : Temp) : Text :=
  match t.reg? with
  | some r => "r" ++ Text.ofNat r.toNat
  | none => "t" ++ Text.ofInt t.id

end Temp

/-- A label is the name of a place in the code. -/
abbrev Label := Text

/-- The label with a given number. -/
def Label.numbered (n : Nat) : Label := "L" ++ Text.ofNat n

end Lowering
