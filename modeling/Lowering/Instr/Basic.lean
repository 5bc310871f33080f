import Lowering.Temp

/-!
# Instructions

An instruction is a template with the registers it defines and uses, the labels it may go to and the
symbols it names. A copy is kept apart from other operations, because an allocator may merge its two
registers, and so is a label.
-/

namespace Lowering

/-- A selected machine instruction. -/
inductive Instr where
  | oper (asm : Text) (dst src : List Temp) (jumps syms : List Label)
  /-- Copies one register to another. -/
  | move (asm : Text) (dst src : Temp)
  | label (asm : Text) (name : Label)
  deriving DecidableEq, Repr

namespace Instr

/-- The template. -/
def asm : Instr → Text
  | .oper asm .. => asm
  | .move asm .. => asm
  | .label asm _ => asm

/-- The registers that are read. -/
def uses : Instr → List Temp
  | .oper _ _ src _ _ => src
  | .move _ _ src => [src]
  | .label .. => []

/-- The registers that are written. -/
def defs : Instr → List Temp
  | .oper _ dst _ _ _ => dst
  | .move _ dst _ => [dst]
  | .label .. => []

/-- The labels that control may go to. -/
def targets : Instr → List Label
  | .oper _ _ _ jumps _ => jumps
  | .move .. => []
  | .label .. => []

/-- The labels that are named without control going there. -/
def symbols : Instr → List Label
  | .oper _ _ _ _ syms => syms
  | .move .. => []
  | .label .. => []

end Instr

end Lowering
