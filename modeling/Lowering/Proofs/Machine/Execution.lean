import Lowering.Proofs.Machine.Assembly

/-!
# Executing instructions

A machine has a word in every register, virtual ones included, a memory of bytes, and flags that are known only
behind a comparison. Words are stored with the low byte first and arithmetic is modulo `2 ^ 32`. Division takes
`edx:eax` and traps on zero and on a quotient that does not fit. Calls are left to the world, which may change
nothing but `eax`, `ecx`, `edx` and memory, as the C convention has it. Jumps are named by label; where a label
stands is not the business of a single instruction.
-/

namespace Lowering.X86

/-! ### Memory -/

abbrev Memory := Word → BitVec 8

namespace Memory

/-- The word at an address, its low byte first. -/
def load (mem : Memory) (a : Word) : Word := mem (a + 3) ++ mem (a + 2) ++ mem (a + 1) ++ mem a

/-- Puts a word at an address, its low byte first. -/
def store (mem : Memory) (a v : Word) : Memory := fun b =>
  if b = a then v.extractLsb' 0 8
  else if b = a + 1 then v.extractLsb' 8 8
  else if b = a + 2 then v.extractLsb' 16 8
  else if b = a + 3 then v.extractLsb' 24 8
  else mem b

end Memory

/-! ### Flags -/

structure Flags where
  carry : Bool
  zero : Bool
  sign : Bool
  overflow : Bool
  deriving DecidableEq

/-- The flags that a comparison leaves: those of the difference. -/
def Flags.compare (a b : Word) : Flags where
  carry := a.ult b
  zero := a - b == 0
  sign := (a - b).msb
  overflow := a.msb != b.msb && a.msb != (a - b).msb

/-- The condition of a branch: signed ones look at sign and overflow, unsigned ones at the carry. -/
def condition? : Rel → Flags → Option Bool
  | .eq, f => some f.zero
  | .ne, f => some (!f.zero)
  | .lt, f => some (f.sign != f.overflow)
  | .gt, f => some (!f.zero && f.sign == f.overflow)
  | .le, f => some (f.zero || f.sign != f.overflow)
  | .ge, f => some (f.sign == f.overflow)
  | .ult, f => some f.carry
  | .ule, f => some (f.carry || f.zero)
  | .ugt, f => some (!f.carry && !f.zero)
  | .uge, f => some (!f.carry)
  | .other _, _ => none

/-! ### Arithmetic -/

def Arith.apply : Arith → Word → Word → Word
  | .add, a, b => a + b
  | .sub, a, b => a - b
  | .and, a, b => a &&& b
  | .or, a, b => a ||| b
  | .xor, a, b => a ^^^ b

/-- Shifts by a count modulo the size of a word. -/
def Shift.apply : Shift → Word → Word → Word
  | .left, a, count => a <<< (count.toNat % 32)
  | .right, a, count => a >>> (count.toNat % 32)
  | .arithmeticRight, a, count => a.sshiftRight (count.toNat % 32)

/-- Quotient and remainder of `high:low`, rounded to zero. There are none if the divisor is zero or the quotient
does not fit. -/
def divide? (high low divisor : Word) : Option (Word × Word) :=
  let n := (high ++ low : BitVec 64).toInt
  let k := divisor.toInt
  if k = 0 ∨ n.tdiv k < -2147483648 ∨ 2147483647 < n.tdiv k then none
  else some (BitVec.ofInt 32 (n.tdiv k), BitVec.ofInt 32 (n.tmod k))

/-- The high word of a number whose sign is extended. -/
def signWord (a : Word) : Word := if a.msb then -1 else 0

/-! ### Machines -/

structure Machine where
  regs : Temp → Word
  mem : Memory
  flags : Option Flags := none

namespace Machine

/-- Puts a word into a register. -/
def set (m : Machine) (t : Temp) (v : Word) : Machine := { m with regs := fun u => if u = t then v else m.regs u }

/-- Forgets the flags. -/
def forget (m : Machine) : Machine := { m with flags := none }

def store (m : Machine) (a v : Word) : Machine := { m with mem := m.mem.store a v }

/-- Puts a word on the stack. -/
def push (m : Machine) (v : Word) : Machine :=
  let top := m.regs stackPointer - 4
  (m.set stackPointer top).store top v

end Machine

/-- What a call leaves behind. -/
structure Returned where
  eax : Word
  ecx : Word
  edx : Word
  mem : Memory

/-- What code cannot see: where symbols are, and what functions do. -/
structure World where
  address : Label → Word
  callee : Word → Machine → Returned

/-- Calls the function at an address. -/
def Machine.call (m : Machine) (w : World) (addr : Word) : Machine :=
  let r := w.callee addr m
  { regs := (((m.set Register.eax.temp r.eax).set Register.ecx.temp r.ecx).set Register.edx.temp r.edx).regs
    mem := r.mem }

/-- What an instruction comes to. -/
inductive Effect where
  | next (m : Machine)
  | goto (l : Label)
  | trap

/-! ### Operands -/

/-- The register of a slot. -/
def Slot.temp? (x : Instr) : Slot → Option Temp
  | .src i => x.uses[i]?
  | .dst i => x.defs[i]?
  | .fixed r => some r.temp

/-- The address of a memory operand. -/
def address? (x : Instr) (m : Machine) (base : Option Slot) (disp : Word) : Option Word :=
  match base with
  | none => some disp
  | some slot => (slot.temp? x).map fun t => m.regs t + disp

/-- The value of an operand that can be read as a word. -/
def Operand.value? (w : World) (x : Instr) (m : Machine) : Operand → Option Word
  | .reg slot => (slot.temp? x).map m.regs
  | .imm v => some v
  | .sym i => x.symbols[i]?.map w.address
  | .mem base disp => (address? x m base disp).map m.mem.load
  | .cl | .target _ => none

/-! ### Instructions -/

/-- What an instruction does; nothing if its operands are not those of its mnemonic. -/
def Assembly.exec? (w : World) (x : Instr) (m : Machine) (a : Assembly) : Option Effect :=
  match a.mnemonic, a.operands with
  | .mov, [.reg dst, src] => do
    let t ← dst.temp? x
    let v ← src.value? w x m
    some (.next (m.set t v))
  | .mov, [.mem base disp, .reg src] => do
    let addr ← address? x m base disp
    let t ← src.temp? x
    some (.next (m.store addr (m.regs t)))
  | .mov, [.mem base disp, .imm v] => do
    let addr ← address? x m base disp
    some (.next (m.store addr v))
  | .arith op, [.reg dst, src] => do
    let t ← dst.temp? x
    let v ← src.value? w x m
    some (.next (m.set t (op.apply (m.regs t) v)).forget)
  | .imul, [.reg dst, src] => do
    let t ← dst.temp? x
    let v ← src.value? w x m
    some (.next (m.set t (m.regs t * v)).forget)
  | .imul, [.reg dst, src, .imm i] => do
    let t ← dst.temp? x
    let v ← src.value? w x m
    some (.next (m.set t (v * i)).forget)
  | .cdq, [] => some (.next (m.set Register.edx.temp (signWord (m.regs Register.eax.temp))))
  | .idiv, [.reg src] => do
    let t ← src.temp? x
    match divide? (m.regs Register.edx.temp) (m.regs Register.eax.temp) (m.regs t) with
    | none => some .trap
    | some (q, r) => some (.next ((m.set Register.eax.temp q).set Register.edx.temp r).forget)
  | .shift op, [.reg dst, .cl] => do
    let t ← dst.temp? x
    some (.next (m.set t (op.apply (m.regs t) (m.regs Register.ecx.temp))).forget)
  | .shift op, [.reg dst, .imm i] => do
    let t ← dst.temp? x
    some (.next (m.set t (op.apply (m.regs t) i)).forget)
  | .cmp, [.reg left, right] => do
    let t ← left.temp? x
    let v ← right.value? w x m
    some (.next { m with flags := some (Flags.compare (m.regs t) v) })
  | .jcc rel, [.target i] => do
    let l ← x.targets[i]?
    let flags ← m.flags
    let taken ← condition? rel flags
    some (if taken then .goto l else .next m)
  | .jmp, [.target i] => x.targets[i]?.map .goto
  | .jmp, [.reg slot] => do
    let t ← slot.temp? x
    let l ← x.targets.find? fun l => w.address l == m.regs t
    some (.goto l)
  | .push, [src] => do
    let v ← src.value? w x m
    some (.next (m.push v))
  | .call, [src] => do
    let v ← src.value? w x m
    some (.next (m.call w v))
  | _, _ => none

/-- What an instruction does. A label does nothing. -/
def exec? (w : World) (x : Instr) (m : Machine) : Option Effect :=
  match x with
  | .label .. => some (.next m)
  | x => (Assembly.read? x.asm).bind (Assembly.exec? w x m)

/-- Why code does not run to its end. -/
inductive Halt where
  | trap
  /-- Control goes to a label. -/
  | left
  /-- An instruction is not understood. -/
  | stuck
  deriving DecidableEq

/-- Runs code from its first instruction to its end. -/
def run (w : World) : List Instr → Machine → Except Halt Machine
  | [], m => .ok m
  | x :: rest, m =>
    match exec? w x m with
    | some (.next m') => run w rest m'
    | some (.goto _) => .error .left
    | some .trap => .error .trap
    | none => .error .stuck

/-! ### Runs -/

section Run

variable {w : World} {m m' : Machine}

@[simp] theorem run_nil (w : World) (m : Machine) : run w [] m = .ok m := rfl

theorem run_next {x : Instr} (hx : exec? w x m = some (.next m')) (rest : List Instr) :
    run w (x :: rest) m = run w rest m' := by
  rw [run, hx]

theorem run_trap {x : Instr} (hx : exec? w x m = some .trap) (rest : List Instr) :
    run w (x :: rest) m = .error .trap := by
  rw [run, hx]

theorem run_append (w : World) (a b : List Instr) (m : Machine) : run w (a ++ b) m = (run w a m).bind (run w b) := by
  induction a generalizing m with
  | nil => rfl
  | cons x rest ih =>
    rw [List.cons_append, run, run]
    split
    · exact ih _
    · rfl
    · rfl
    · rfl

end Run

/-! ### Registers -/

@[simp] theorem Machine.set_self (m : Machine) (t : Temp) (v : Word) : (m.set t v).regs t = v := if_pos rfl

theorem Machine.set_of_ne (m : Machine) {t u : Temp} (v : Word) (hne : u ≠ t) : (m.set t v).regs u = m.regs u :=
  if_neg hne

@[simp] theorem Machine.set_mem (m : Machine) (t : Temp) (v : Word) : (m.set t v).mem = m.mem := rfl

@[simp] theorem Machine.forget_regs (m : Machine) : m.forget.regs = m.regs := rfl

@[simp] theorem Machine.forget_mem (m : Machine) : m.forget.mem = m.mem := rfl

@[simp] theorem Machine.store_regs (m : Machine) (a v : Word) : (m.store a v).regs = m.regs := rfl

@[simp] theorem Machine.store_mem (m : Machine) (a v : Word) : (m.store a v).mem = m.mem.store a v := rfl

/-! ### The instructions of the target -/

section Emitted

variable (w : World) (m : Machine)

/-- A form does what it spells. -/
theorem exec_form {form : Form} (hform : ∀ n, form ≠ .branch (.other n)) (dst src : List Temp)
    (jumps syms : List Label) :
    exec? w (.oper form.asm dst src jumps syms) m =
      form.reading.exec? w (.oper form.asm dst src jumps syms) m := by
  change (Assembly.read? form.asm).bind _ = _
  rw [read_asm form hform]
  rfl

theorem exec_oper {form : Form} (hform : ∀ n, form ≠ .branch (.other n)) (dst src : List Temp) :
    exec? w (oper form dst src) m = form.reading.exec? w (oper form dst src) m :=
  exec_form w m hform dst src [] []

theorem exec_copy (d s : Temp) : exec? w (copy d s) m = some (.next (m.set d (m.regs s))) := rfl

theorem exec_label (asm : Text) (l : Label) : exec? w (.label asm l) m = some (.next m) := rfl

theorem exec_loadConst (i : Word) (d : Temp) :
    exec? w (oper (.loadConst i) [d] []) m = some (.next (m.set d i)) :=
  exec_oper w m (fun _ => Form.noConfusion) [d] []

theorem exec_loadSymbol (l : Label) (d : Temp) :
    exec? w (.oper Form.loadSymbol.asm [d] [] [] [l]) m = some (.next (m.set d (w.address l))) :=
  exec_form w m (fun _ => Form.noConfusion) [d] [] [] [l]

theorem exec_load (disp : Word) (d a : Temp) :
    exec? w (oper (.load disp) [d] [a]) m = some (.next (m.set d (m.mem.load (m.regs a + disp)))) :=
  exec_oper w m (fun _ => Form.noConfusion) [d] [a]

theorem exec_loadAt (addr : Word) (d : Temp) :
    exec? w (oper (.loadAt addr) [d] []) m = some (.next (m.set d (m.mem.load addr))) :=
  exec_oper w m (fun _ => Form.noConfusion) [d] []

theorem exec_store (disp : Word) (a b : Temp) :
    exec? w (oper (.store disp) [] [a, b]) m = some (.next (m.store (m.regs a + disp) (m.regs b))) :=
  exec_oper w m (fun _ => Form.noConfusion) [] [a, b]

theorem exec_storeConst (disp value : Word) (a : Temp) :
    exec? w (oper (.storeConst disp value) [] [a]) m = some (.next (m.store (m.regs a + disp) value)) :=
  exec_oper w m (fun _ => Form.noConfusion) [] [a]

theorem exec_storeAt (addr : Word) (a : Temp) :
    exec? w (oper (.storeAt addr) [] [a]) m = some (.next (m.store addr (m.regs a))) :=
  exec_oper w m (fun _ => Form.noConfusion) [] [a]

theorem exec_arith (op : Arith) (d b : Temp) :
    exec? w (oper (.arith op) [d] [d, b]) m =
      some (.next (m.set d (op.apply (m.regs d) (m.regs b))).forget) :=
  exec_oper w m (fun _ => Form.noConfusion) [d] [d, b]

theorem exec_arithConst (op : Arith) (i : Word) (d : Temp) :
    exec? w (oper (.arithConst op i) [d] [d]) m = some (.next (m.set d (op.apply (m.regs d) i)).forget) :=
  exec_oper w m (fun _ => Form.noConfusion) [d] [d]

theorem exec_mul (d b : Temp) :
    exec? w (oper .mul [d] [d, b]) m = some (.next (m.set d (m.regs d * m.regs b)).forget) :=
  exec_oper w m (fun _ => Form.noConfusion) [d] [d, b]

theorem exec_mulConst (i : Word) (d a : Temp) :
    exec? w (oper (.mulConst i) [d] [a]) m = some (.next (m.set d (m.regs a * i)).forget) :=
  exec_oper w m (fun _ => Form.noConfusion) [d] [a]

theorem exec_signExtend (dst src : List Temp) :
    exec? w (oper .signExtend dst src) m =
      some (.next (m.set Register.edx.temp (signWord (m.regs Register.eax.temp)))) :=
  exec_oper w m (fun _ => Form.noConfusion) dst src

theorem exec_div (dst : List Temp) (b : Temp) (src : List Temp) :
    exec? w (oper .div dst (b :: src)) m =
      match divide? (m.regs Register.edx.temp) (m.regs Register.eax.temp) (m.regs b) with
      | none => some .trap
      | some (q, r) => some (.next ((m.set Register.eax.temp q).set Register.edx.temp r).forget) :=
  exec_oper w m (fun _ => Form.noConfusion) dst (b :: src)

theorem exec_shift (op : Shift) (d : Temp) (src : List Temp) :
    exec? w (oper (.shift op) [d] src) m =
      some (.next (m.set d (op.apply (m.regs d) (m.regs Register.ecx.temp))).forget) :=
  exec_oper w m (fun _ => Form.noConfusion) [d] src

theorem exec_shiftConst (op : Shift) (i : Word) (d : Temp) (src : List Temp) :
    exec? w (oper (.shiftConst op i) [d] src) m = some (.next (m.set d (op.apply (m.regs d) i)).forget) :=
  exec_oper w m (fun _ => Form.noConfusion) [d] src

theorem exec_cmp (a b : Temp) :
    exec? w (oper .cmp [] [a, b]) m =
      some (.next { m with flags := some (Flags.compare (m.regs a) (m.regs b)) }) :=
  exec_oper w m (fun _ => Form.noConfusion) [] [a, b]

theorem exec_cmpConst (i : Word) (a : Temp) :
    exec? w (oper (.cmpConst i) [] [a]) m = some (.next { m with flags := some (Flags.compare (m.regs a) i) }) :=
  exec_oper w m (fun _ => Form.noConfusion) [] [a]

theorem exec_jump (l : Label) : exec? w (.oper Form.jump.asm [] [] [l] []) m = some (.goto l) :=
  exec_form w m (fun _ => Form.noConfusion) [] [] [l] []

theorem exec_jumpReg (a : Temp) (labels : List Label) :
    exec? w (.oper Form.jumpReg.asm [] [a] labels []) m =
      (labels.find? fun l => w.address l == m.regs a).map .goto := by
  refine (exec_form w m (fun _ => Form.noConfusion) [] [a] labels []).trans ?_
  exact Option.map_eq_bind.symm

/-- A branch goes to its first label or on, as the flags have it. -/
theorem exec_branch {rel : Rel} (hrel : ∀ n, rel ≠ .other n) (t f : Label) :
    exec? w (.oper (Form.branch rel).asm [] [] [t, f] []) m =
      (m.flags.bind (condition? rel)).map fun taken => if taken then .goto t else .next m := by
  refine (exec_form w m (fun n h => hrel n (Form.branch.inj h)) [] [] [t, f] []).trans ?_
  cases hflags : m.flags with
  | none => simp [Form.reading, Assembly.exec?, Instr.targets, hflags]
  | some flags =>
    cases hcond : condition? rel flags <;> simp [Form.reading, Assembly.exec?, Instr.targets, hflags, hcond]

/-- A branch on a relation outside the list is not understood. -/
theorem exec_branch_other (k : Int) (t f : Label) :
    exec? w (.oper (Form.branch (.other k)).asm [] [] [t, f] []) m = none := rfl

theorem exec_push (t : Temp) (dst src : List Temp) :
    exec? w (oper .push dst (t :: src)) m = some (.next (m.push (m.regs t))) :=
  exec_oper w m (fun _ => Form.noConfusion) dst (t :: src)

theorem exec_pushConst (i : Word) (dst src : List Temp) :
    exec? w (oper (.pushConst i) dst src) m = some (.next (m.push i)) :=
  exec_oper w m (fun _ => Form.noConfusion) dst src

theorem exec_call (l : Label) (dst : List Temp) :
    exec? w (.oper Form.call.asm dst [] [] [l]) m = some (.next (m.call w (w.address l))) :=
  exec_form w m (fun _ => Form.noConfusion) dst [] [] [l]

theorem exec_callReg (a : Temp) (dst : List Temp) :
    exec? w (oper .callReg dst [a]) m = some (.next (m.call w (m.regs a))) :=
  exec_oper w m (fun _ => Form.noConfusion) dst [a]

theorem exec_pop (bytes : Nat) (dst src : List Temp) :
    exec? w (oper (.pop bytes) dst src) m =
      some (.next (m.set stackPointer (m.regs stackPointer + BitVec.ofInt 32 bytes)).forget) :=
  exec_oper w m (fun _ => Form.noConfusion) dst src

end Emitted

end Lowering.X86
