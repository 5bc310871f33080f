import Lowering.DenseSet
import Lowering.Instr.Template

/-!
# Use before definition

Code passes the check if every register that an instruction uses is fixed, live on entry, or defined by an
earlier instruction. Registers are checked in the order of the code and, within an instruction, of its uses.
The defined registers are kept in a dense set that starts at the lowest register the code mentions.
-/

namespace Lowering

/-- An instruction uses a register that nothing before it defines. -/
structure UndefinedUse where
  index : Nat
  instr : Instr
  reg : Temp
  deriving DecidableEq, Repr

/-- The text of a complaint. -/
def UndefinedUse.message (u : UndefinedUse) : Text :=
  "instr " ++ Text.ofNat u.index ++ " (" ++ u.instr.cited ++ "): use of undefined register " ++ u.reg.text

namespace Check

/-- The lower of a register and the lowest one so far, where zero stands for none so far. -/
def lower (low : Int) (t : Temp) : Int :=
  if !t.isFixed && (low == 0 || t.id < low) then t.id else low

/-- The registers that code mentions, those live on entry first. -/
def mentioned (code : List Instr) (liveIn : List Temp) : List Temp :=
  liveIn ++ code.flatMap fun x => x.uses ++ x.defs

/-- The lowest virtual register that code mentions, or one. -/
def lowest (code : List Instr) (liveIn : List Temp) : Int :=
  let low := (mentioned code liveIn).foldl lower 0
  if low == 0 then 1 else low

/-- Adds registers to the defined ones; fixed registers are always defined. -/
def define (defined : DenseSet) : List Temp → Except Fault DenseSet
  | [] => .ok defined
  | t :: ts =>
    if t.isFixed then define defined ts
    else do
      let defined ← defined.insert t.id
      define defined ts

/-- Is the register fixed or among the defined ones? -/
def isDefined (defined : DenseSet) (t : Temp) : Bool := t.isFixed || defined.contains t.id

/-- Checks the code from instruction `index` on. -/
def scan (index : Nat) (defined : DenseSet) : List Instr → Except (Stop UndefinedUse) Unit
  | [] => .ok ()
  | x :: rest =>
    match x.uses.find? (!isDefined defined ·) with
    | some t => .error (.failed ⟨index, x, t⟩)
    | none =>
      match define defined x.defs with
      | .error f => .error (.fault f)
      | .ok defined => scan (index + 1) defined rest

end Check

/-- Checks that code defines every virtual register before it uses it, those of `liveIn` apart. -/
def checkDefined (code : List Instr) (liveIn : List Temp) : Except (Stop UndefinedUse) Unit :=
  match Check.define ⟨Check.lowest code liveIn, #[]⟩ liveIn with
  | .error f => .error (.fault f)
  | .ok defined => Check.scan 0 defined code

end Lowering
