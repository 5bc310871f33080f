import Lowering.Proofs.Machine.Execution

/-!
# What trees mean

Direct evaluation of trees that only compute, load and store: expressions yield words, statements change
registers and memory, both from left to right. Arithmetic is modulo `2 ^ 32` and shift counts are modulo 32.
Division rounds to zero and traps on zero and on the one quotient that does not fit a word. Trees that call, jump
or hold statements in expressions have no direct meaning here.
-/

namespace Lowering

open X86

/-- The quotient of two words, rounded to zero. -/
def Word.quotient (a b : Word) : Except Halt Word :=
  if b = 0 ∨ a = -2147483648 ∧ b = -1 then .error .trap else .ok (BitVec.ofInt 32 (a.toInt.tdiv b.toInt))

/-- What an operator does with two words. -/
def Op.apply : Op → Word → Word → Except Halt Word
  | .plus, a, b => .ok (a + b)
  | .minus, a, b => .ok (a - b)
  | .mul, a, b => .ok (a * b)
  | .div, a, b => Word.quotient a b
  | .and, a, b => .ok (a &&& b)
  | .or, a, b => .ok (a ||| b)
  | .shl, a, b => .ok (a <<< (b.toNat % 32))
  | .shr, a, b => .ok (a >>> (b.toNat % 32))
  | .sar, a, b => .ok (a.sshiftRight (b.toNat % 32))
  | .xor, a, b => .ok (a ^^^ b)
  | .other _, _, _ => .error .stuck

/-- The value of an expression, where symbols have addresses. -/
def Exp.eval (address : Label → Word) (m : Machine) : Exp → Except Halt Word
  | .const v => .ok v
  | .temp t => .ok (m.regs t)
  | .name l => .ok (address l)
  | .mem addr => do
    let a ← addr.eval address m
    return m.mem.load a
  | .bin op left right => do
    let a ← left.eval address m
    let b ← right.eval address m
    op.apply a b
  | .hole | .call .. | .eseq .. => .error .stuck

/-- What a statement does to registers and memory. -/
def Stm.run (address : Label → Word) : Stm → Machine → Except Halt Machine
  | .seq first second, m => do
    let m₁ ← first.run address m
    second.run address m₁
  | .exp e, m => do
    let _ ← e.eval address m
    return m
  | .move (.temp t) src, m => do
    let v ← src.eval address m
    return m.set t v
  | .move (.mem addr) src, m => do
    let a ← addr.eval address m
    let v ← src.eval address m
    return m.store a v
  | _, _ => .error .stuck

/-- Registers that a tree may name when `n` virtual ones were handed out: these and the frame pointer. -/
def Visible (n : Nat) (t : Temp) : Prop := t = framePointer ∨ 0 < t.id ∧ t.id ≤ n

instance (n : Nat) (t : Temp) : Decidable (Visible n t) := inferInstanceAs (Decidable (_ ∨ _))

/-- Does the expression only compute and load, from registers that are visible? -/
def Exp.plain (n : Nat) : Exp → Bool
  | .const _ => true
  | .temp t => decide (Visible n t)
  | .name _ => true
  | .mem addr => addr.plain n
  | .bin op left right => decide (op ∈ Op.listed) && left.plain n && right.plain n
  | .hole | .call .. | .eseq .. => false

/-- Does the statement only compute and store, with virtual registers that were handed out? -/
def Stm.plain (n : Nat) : Stm → Bool
  | .seq first second => first.plain n && second.plain n
  | .exp e => e.plain n
  | .move (.temp t) src => decide (0 < t.id ∧ t.id ≤ n) && src.plain n
  | .move (.mem addr) src => addr.plain n && src.plain n
  | _ => false

example : (Exp.bin .div (.const (-7)) (.const 2)).eval (fun _ => 0) ⟨fun _ => 0, fun _ => 0, none⟩ = .ok (-3) := by
  rfl

end Lowering
