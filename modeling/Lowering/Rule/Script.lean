import Lowering.Rule.Basic

/-!
# Scripted rules

The action of a rule can be given as a script: a list of steps over named registers. A name that was never
set stands for register zero. Wildcards are read when their step runs. A script for an expression yields the
register that it returns, or register zero if it ends without returning one.
-/

namespace Lowering.Script

/-- A step of a script. -/
inductive Step where
  | lowerStm (w : Wildcard .stm)
  | lowerExp (w : Wildcard .exp) (reg : Text)
  | fresh (reg : Text)
  /-- Names a captured register. -/
  | captured (w : Wildcard .temp) (reg : Text)
  /-- Names the register fixed to a machine register. -/
  | fixed (number : UInt8) (reg : Text)
  | framePointer (reg : Text)
  | resultRegister (reg : Text)
  /-- Emits an operation, whose template may end in a captured word. -/
  | oper (asm : Text) (imm : Option (Wildcard .word)) (dst src : List Text)
  | move (dst src : Text)
  | label (w : Wildcard .label)
  | refuse (message : Text)
  /-- Refuses without an error. -/
  | abandon
  | raise (message : Text)
  | result (reg : Text)

/-- The registers that a target reserves. -/
structure Reserved where
  framePointer : Temp
  resultRegister : Temp

/-- The registers named so far, the latest first. -/
abbrev Registers := List (Text × Temp)

namespace Registers

/-- The register of a name, zero if it was never set. -/
def get (regs : Registers) (name : Text) : Temp := (List.lookup name regs).getD ⟨0⟩

end Registers

/-- Runs the steps of a script on what its pattern captured. -/
def run (reserved : Reserved) (captures : Captures) : List Step → Registers → Action Temp
  | [], _ => return ⟨0⟩
  | step :: rest, regs =>
    let next := run reserved captures rest
    match step with
    | .lowerStm w => do
      let s ← Action.orFault (captures.read w)
      Action.lowerStm s
      next regs
    | .lowerExp w reg => do
      let e ← Action.orFault (captures.read w)
      let t ← Action.lowerExp e
      next ((reg, t) :: regs)
    | .fresh reg => do
      let t ← Action.freshTemp
      next ((reg, t) :: regs)
    | .captured w reg => do
      let t ← Action.orFault (captures.read w)
      next ((reg, t) :: regs)
    | .fixed number reg => do
      let t ← Action.orFault (Temp.fixed number)
      next ((reg, t) :: regs)
    | .framePointer reg => next ((reg, reserved.framePointer) :: regs)
    | .resultRegister reg => next ((reg, reserved.resultRegister) :: regs)
    | .oper asm imm dst src => do
      let tail ← match imm with
        | none => pure ([] : Text)
        | some w => do
          let v ← Action.orFault (captures.read w)
          pure (Text.ofInt (BitVec.toInt v))
      Action.append [.oper (asm ++ tail) (dst.map regs.get) (src.map regs.get) [] []]
      next regs
    | .move dst src => do
      Action.append [.move "mov d0, s0" (regs.get dst) (regs.get src)]
      next regs
    | .label w => do
      let l ← Action.orFault (captures.read w)
      Action.append [.label (l ++ ":") l]
      next regs
    | .refuse message => .refuse (.refused (some message))
    | .abandon => .refuse (.refused none)
    | .raise message => .fault (.raised message)
    | .result reg => return regs.get reg

/-- A scripted rule for statements. -/
def stmRule (reserved : Reserved) (name : Text) (pattern : Pattern .stm) (steps : List Step) :
    Rule .stm Unit where
  name := name
  pattern := pattern
  action captures := do
    let _ ← run reserved captures steps []
    return ()

/-- A scripted rule for expressions. -/
def expRule (reserved : Reserved) (name : Text) (pattern : Pattern .exp) (steps : List Step) :
    Rule .exp Temp where
  name := name
  pattern := pattern
  action captures := run reserved captures steps []

end Lowering.Script
