import Lowering.Instr.Basic
import Lowering.Tree.Basic
import Lowering.X86.Register

/-!
# Instruction forms

The forms of x86 instruction that the rules emit, and the template each is written with. Operations on two
operands update the first one in place, so their result register is also the first one they use.
-/

namespace Lowering.X86

/-- An operation that updates its first operand. -/
inductive Arith where
  | add
  | sub
  | and
  | or
  | xor
  deriving DecidableEq, Repr

namespace Arith

def all : List Arith := [.add, .sub, .and, .or, .xor]

/-- The operator of trees that the operation computes. -/
def op : Arith → Op
  | .add => .plus
  | .sub => .minus
  | .and => .and
  | .or => .or
  | .xor => .xor

def mnemonic : Arith → Text
  | .add => "add"
  | .sub => "sub"
  | .and => "and"
  | .or => "or"
  | .xor => "xor"

/-- May the operands change places? -/
def commutes : Arith → Bool
  | .sub => false
  | _ => true

end Arith

/-- A shift. -/
inductive Shift where
  | left
  | right
  /-- A right shift that copies the sign. -/
  | arithmeticRight
  deriving DecidableEq, Repr

namespace Shift

def all : List Shift := [.left, .right, .arithmeticRight]

/-- The operator of trees that the shift computes. -/
def op : Shift → Op
  | .left => .shl
  | .right => .shr
  | .arithmeticRight => .sar

def mnemonic : Shift → Text
  | .left => "shl"
  | .right => "shr"
  | .arithmeticRight => "sar"

end Shift

/-- A form of instruction, with the words that are part of it. -/
inductive Form where
  /-- Loads a constant. -/
  | loadConst (i : Word)
  /-- Loads the address of a symbol. -/
  | loadSymbol
  /-- Loads from a register plus a displacement. -/
  | load (disp : Word)
  /-- Loads from a constant address. -/
  | loadAt (addr : Word)
  /-- Stores to a register plus a displacement. -/
  | store (disp : Word)
  /-- Stores a constant to a register plus a displacement. -/
  | storeConst (disp value : Word)
  /-- Stores to a constant address. -/
  | storeAt (addr : Word)
  | arith (op : Arith)
  | arithConst (op : Arith) (i : Word)
  | mul
  /-- Multiplies a register by a constant into another. -/
  | mulConst (i : Word)
  /-- Extends the sign of `eax` into `edx`. -/
  | signExtend
  /-- Divides `edx:eax`. -/
  | div
  /-- Shifts by the count in `cl`. -/
  | shift (op : Shift)
  | shiftConst (op : Shift) (count : Word)
  | cmp
  | cmpConst (i : Word)
  /-- Goes to its first target if the relation holds for the operands last compared. -/
  | branch (rel : Rel)
  | jump
  /-- Goes to the address in a register. -/
  | jumpReg
  | push
  | pushConst (i : Word)
  | call
  /-- Calls the address in a register. -/
  | callReg
  /-- Takes bytes off the stack. -/
  | pop (bytes : Nat)
  deriving DecidableEq, Repr

/-- A constant operand, signed. -/
def constText (i : Word) : Text := Text.ofInt i.toInt

/-- A displacement behind a register, with its sign; none if it is zero. -/
def dispText (i : Word) : Text :=
  if i.toInt < 0 then " - " ++ Text.ofInt (-i.toInt)
  else if 0 < i.toInt then " + " ++ Text.ofInt i.toInt
  else []

/-- The mnemonic of the branch on a relation; a relation outside the list has none. -/
def branchMnemonic : Rel → Text
  | .eq => "je"
  | .ne => "jne"
  | .lt => "jl"
  | .gt => "jg"
  | .le => "jle"
  | .ge => "jge"
  | .ult => "jb"
  | .ule => "jbe"
  | .ugt => "ja"
  | .uge => "jae"
  | .other _ => []

/-- The template of a form. -/
def Form.asm : Form → Text
  | .loadConst i => "mov d0, " ++ constText i
  | .loadSymbol => "mov d0, l0"
  | .load disp => "mov d0, [s0" ++ dispText disp ++ "]"
  | .loadAt addr => "mov d0, [" ++ constText addr ++ "]"
  | .store disp => "mov [s0" ++ dispText disp ++ "], s1"
  | .storeConst disp value => "mov dword [s0" ++ dispText disp ++ "], " ++ constText value
  | .storeAt addr => "mov [" ++ constText addr ++ "], s0"
  | .arith op => op.mnemonic ++ " d0, s1"
  | .arithConst op i => op.mnemonic ++ " d0, " ++ constText i
  | .mul => "imul d0, s1"
  | .mulConst i => "imul d0, s0, " ++ constText i
  | .signExtend => "cdq"
  | .div => "idiv s0"
  | .shift op => op.mnemonic ++ " d0, cl"
  | .shiftConst op count => op.mnemonic ++ " d0, " ++ constText count
  | .cmp => "cmp s0, s1"
  | .cmpConst i => "cmp s0, " ++ constText i
  | .branch rel => branchMnemonic rel ++ " j0"
  | .jump => "jmp j0"
  | .jumpReg => "jmp s0"
  | .push => "push s0"
  | .pushConst i => "push dword " ++ constText i
  | .call => "call l0"
  | .callReg => "call s0"
  | .pop bytes => "add esp, " ++ Text.ofNat bytes

/-- An operation on registers only. -/
def oper (form : Form) (dst src : List Temp) : Instr := .oper form.asm dst src [] []

/-- A copy of one register to another. -/
def copy (dst src : Temp) : Instr := .move "mov d0, s0" dst src

end Lowering.X86
