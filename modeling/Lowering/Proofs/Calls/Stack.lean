import Lowering.Proofs.Machine.Control

/-!
# The stack pointer

How far code moves the stack pointer is read from its text: a push takes four bytes, and an addition to the stack
pointer gives some back. Code is balanced if its instructions do to the stack pointer what their text says, the stack is
level at every label and jump, and it is level at the end. Then control may go from any jump to any label, and along
every path through the code the stack pointer is where the text has it.
-/

namespace Lowering.X86

/-- What an instruction is spelled as. A label is none. -/
def spelled? : Instr → Option Assembly
  | .label .. => none
  | x => Assembly.read? x.asm

def mnemonic? (x : Instr) : Option Mnemonic := (spelled? x).map (·.mnemonic)

/-- How far the text of an instruction moves the stack pointer. -/
def Assembly.stackShift : Assembly → Word
  | ⟨.push, _⟩ => -4
  | ⟨.arith .add, [.reg (.fixed .esp), .imm v]⟩ => v
  | _ => 0

@[inherit_doc Assembly.stackShift]
def stackShift (x : Instr) : Word := (spelled? x).elim 0 Assembly.stackShift

/-- How far code moves the stack pointer from its start to its end. -/
def stackOffset : List Instr → Word
  | [] => 0
  | x :: code => stackShift x + stackOffset code

/-- Is it a label, a jump, or something that is not understood? -/
def isMark (x : Instr) : Bool :=
  match mnemonic? x with
  | none | some .jmp | some (.jcc _) => true
  | _ => false

/-- Executing the instruction moves the stack pointer as its text says. -/
def ShiftsStack (x : Instr) : Prop :=
  ∀ w m m', exec? w x m = some (.next m') → m'.regs stackPointer = m.regs stackPointer + stackShift x

structure Balanced (code : List Instr) : Prop where
  shifts : ∀ x ∈ code, ShiftsStack x
  marks : ∀ i x, code[i]? = some x → isMark x = true → stackOffset (code.take i) = 0
  settled : stackOffset code = 0

/-! ### Offsets -/

@[simp] theorem stackOffset_nil : stackOffset [] = 0 := rfl

@[simp] theorem stackOffset_cons (x : Instr) (code : List Instr) :
    stackOffset (x :: code) = stackShift x + stackOffset code := rfl

theorem stackOffset_append (code code' : List Instr) :
    stackOffset (code ++ code') = stackOffset code + stackOffset code' := by
  induction code with
  | nil => simp
  | cons x code ih => simp [ih, BitVec.add_assoc]

theorem spelled_form {form : Form} (hform : ∀ n, form ≠ .branch (.other n)) (dst src : List Temp)
    (jumps syms : List Label) : spelled? (.oper form.asm dst src jumps syms) = some form.reading := read_asm form hform

theorem spelled_oper {form : Form} (hform : ∀ n, form ≠ .branch (.other n)) (dst src : List Temp) :
    spelled? (oper form dst src) = some form.reading := spelled_form hform ..

theorem spelled_copy (d s : Temp) : spelled? (copy d s) = some ⟨.mov, [.reg (.dst 0), .reg (.src 0)]⟩ := rfl

section Spelled

variable {x : Instr} {a : Assembly} (hx : spelled? x = some a)

include hx

theorem mnemonic_of_spelled : mnemonic? x = some a.mnemonic := by rw [mnemonic?, hx, Option.map_some]

theorem stackShift_of_spelled : stackShift x = a.stackShift := by rw [stackShift, hx, Option.elim_some]

end Spelled

/-! ### Balanced code -/

namespace Balanced

variable {code code' : List Instr}

theorem nil : Balanced [] where
  shifts := by simp
  marks := by simp
  settled := rfl

theorem of_unmarked (hshifts : ∀ x ∈ code, ShiftsStack x) (hmarks : ∀ x ∈ code, isMark x = false)
    (hsettled : stackOffset code = 0) : Balanced code where
  shifts := hshifts
  marks := by
    intro i x hx hmark
    rw [hmarks x (List.mem_of_getElem? hx)] at hmark
    cases hmark
  settled := hsettled

/-- Balanced pieces of code do not get in each other's way. -/
theorem append (h : Balanced code) (h' : Balanced code') : Balanced (code ++ code') where
  shifts := List.forall_mem_append.mpr ⟨h.shifts, h'.shifts⟩
  marks := by
    intro i x hx hmark
    by_cases hi : i < code.length
    · rw [List.getElem?_append_left hi] at hx
      rw [List.take_append_of_le_length (Nat.le_of_lt hi)]
      exact h.marks i x hx hmark
    · rw [List.getElem?_append_right (Nat.le_of_not_lt hi)] at hx
      rw [List.take_append, List.take_of_length_le (Nat.le_of_not_lt hi), stackOffset_append, h.settled,
        h'.marks _ x hx hmark]
      rfl
  settled := by
    rw [stackOffset_append, h.settled, h'.settled]
    rfl

end Balanced

/-- Only jumps hand control to a label. -/
theorem Assembly.isJump_of_goto {w : World} {x : Instr} {m : Machine} {l : Label} {a : Assembly}
    (h : a.exec? w x m = some (.goto l)) : a.mnemonic = .jmp ∨ ∃ rel, a.mnemonic = .jcc rel := by
  unfold Assembly.exec? at h
  split at h
  case h_8 =>
    obtain ⟨t, -, h⟩ := Option.bind_eq_some_iff.mp h
    split at h <;> cases h
  case h_12 rel _ hmnemonic _ => exact .inr ⟨rel, hmnemonic⟩
  case h_13 hmnemonic _ => exact .inl hmnemonic
  case h_14 hmnemonic _ => exact .inl hmnemonic
  all_goals simp [Option.bind_eq_some_iff] at h

theorem exec_cases {w : World} {x : Instr} {m : Machine} {effect : Effect} (h : exec? w x m = some effect) :
    (∃ asm l, x = .label asm l ∧ effect = .next m) ∨ ∃ a, spelled? x = some a ∧ a.exec? w x m = some effect := by
  cases x with
  | label asm l =>
    cases h
    exact .inl ⟨asm, l, rfl, rfl⟩
  | oper | move => exact .inr (Option.bind_eq_some_iff.mp h)

theorem isMark_of_goto {w : World} {x : Instr} {m : Machine} {l : Label} (h : exec? w x m = some (.goto l)) :
    isMark x = true := by
  obtain ⟨asm, l', -, heffect⟩ | ⟨a, ha, hexec⟩ := exec_cases h
  · cases heffect
  · rw [isMark, mnemonic_of_spelled ha]
    rcases Assembly.isJump_of_goto hexec with hjump | ⟨rel, hjump⟩ <;> rw [hjump]

/-! ### Paths -/

section Path

variable {code pre post : List Instr}

theorem getElem?_piece {pc : Nat} (hpc : Within pre.length (pre ++ code).length pc) :
    (pre ++ code ++ post)[pc]? = code[pc - pre.length]? := by
  rw [List.getElem?_append_left hpc.2, List.getElem?_append_right hpc.1]

/-- The stack is level wherever a label stands, in balanced code or around it. -/
theorem Balanced.offset_of_definedAt (hcode : Balanced code) {l : Label} {pc : Nat}
    (hdefined : DefinedAt (pre ++ code ++ post) l pc) : stackOffset (code.take (pc - pre.length)) = 0 := by
  by_cases hinside : Within pre.length (pre ++ code).length pc
  · obtain ⟨asm, hlabel⟩ := hdefined
    rw [getElem?_piece hinside] at hlabel
    exact hcode.marks _ _ hlabel rfl
  · rw [Within, List.length_append] at hinside
    by_cases hbefore : pc ≤ pre.length
    · rw [Nat.sub_eq_zero_of_le hbefore, List.take_zero, stackOffset_nil]
    · rw [List.take_of_length_le (by omega), hcode.settled]

/-- Along every path through balanced code, the stack pointer is where the text has it. -/
theorem Balanced.stackPointer_along (hcode : Balanced code) {w : World} {c c' : Config}
    (hpath : Path w (pre ++ code ++ post) (Within pre.length (pre ++ code).length) c c') {base : Word}
    (hc : c.2.regs stackPointer = base + stackOffset (code.take (c.1 - pre.length))) :
    c'.2.regs stackPointer = base + stackOffset (code.take (c'.1 - pre.length)) := by
  induction hpath with
  | refl c => exact hc
  | step hinside hstep _ ih =>
    apply ih
    cases hstep with
    | @next pc m m₁ x hx hexec =>
      rw [getElem?_piece hinside] at hx
      have hshift := hcode.shifts x (List.mem_of_getElem? hx) w m m₁ hexec
      have hlow : pre.length ≤ pc := hinside.1
      rw [hshift, hc, show pc + 1 - pre.length = pc - pre.length + 1 by omega, List.take_add_one, hx,
        stackOffset_append]
      simp [BitVec.add_assoc]
    | @goto pc k m x l hx hexec hk =>
      rw [getElem?_piece hinside] at hx
      rw [hc, hcode.offset_of_definedAt hk, hcode.marks _ x hx (isMark_of_goto hexec)]

end Path

end Lowering.X86
