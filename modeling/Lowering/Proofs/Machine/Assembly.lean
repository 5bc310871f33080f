import Lowering.Proofs.Template.Tokens

/-!
# Assembly as it is spelled

A template is read as the 32-bit x86 instruction that it spells: a mnemonic and its operands. Registers are
placeholders or go by their names, numbers are decimal, and an operand in brackets is memory at a register plus
a displacement or at a constant address. Reading looks at nothing but the text, so what an instruction means does
not depend on which form it was written from.
-/

namespace Lowering.X86

/-- A register as a template spells it. -/
inductive Slot where
  | src (i : Nat)
  | dst (i : Nat)
  | fixed (r : Register)
  deriving DecidableEq

/-- An operand as a template spells it. -/
inductive Operand where
  | reg (slot : Slot)
  /-- The low byte of `ecx`. -/
  | cl
  | imm (value : Word)
  | sym (i : Nat)
  | target (i : Nat)
  | mem (base : Option Slot) (disp : Word)
  deriving DecidableEq

inductive Mnemonic where
  | mov
  | arith (op : Arith)
  | imul
  | cdq
  | idiv
  | shift (op : Shift)
  | cmp
  | jcc (rel : Rel)
  | jmp
  | push
  | call
  deriving DecidableEq

/-- An instruction as a template spells it. -/
structure Assembly where
  mnemonic : Mnemonic
  operands : List Operand
  deriving DecidableEq

/-! ### Reading -/

/-- The mnemonics, with the signed and unsigned conditions of branches. -/
def Mnemonic.table : List (Text × Mnemonic) := [
  ("mov", .mov), ("add", .arith .add), ("sub", .arith .sub), ("and", .arith .and), ("or", .arith .or),
  ("xor", .arith .xor), ("imul", .imul), ("cdq", .cdq), ("idiv", .idiv), ("shl", .shift .left),
  ("shr", .shift .right), ("sar", .shift .arithmeticRight), ("cmp", .cmp), ("je", .jcc .eq), ("jne", .jcc .ne),
  ("jl", .jcc .lt), ("jg", .jcc .gt), ("jle", .jcc .le), ("jge", .jcc .ge), ("jb", .jcc .ult),
  ("jbe", .jcc .ule), ("ja", .jcc .ugt), ("jae", .jcc .uge), ("jmp", .jmp), ("push", .push), ("call", .call)]

def Mnemonic.read? (w : Text) : Option Mnemonic := Mnemonic.table.lookup w

/-- The value of a word of digits. -/
def number? (w : Text) : Option Nat := if !w.isEmpty && w.all Text.isDigit then some (Text.digitsValue w) else none

/-- The number of a placeholder. -/
def placeholder? (letter : Char) : Text → Option Nat
  | [] => none
  | b :: digits => if b = Text.byte letter then number? digits else none

def Slot.read? (w : Text) : Option Slot :=
  (placeholder? 's' w).map .src <|> (placeholder? 'd' w).map .dst <|>
    (Register.all.find? (·.text == w)).map .fixed

/-- An operand that is one word. -/
def Operand.readWord? (w : Text) : Option Operand :=
  (Slot.read? w).map .reg <|> (if w = "cl" then some .cl else none) <|>
    (number? w).map (fun n : Nat => .imm (BitVec.ofInt 32 (n : Int))) <|> (placeholder? 'l' w).map .sym <|>
    (placeholder? 'j' w).map .target

/-- What stands in brackets. -/
def Operand.readMemory? : List Piece → Option Operand
  | [.word w] =>
    (Slot.read? w).map (fun base => .mem (some base) 0) <|>
      (number? w).map (fun n : Nat => .mem none (BitVec.ofInt 32 (n : Int)))
  | [.byte 45, .word w] => (number? w).map fun n : Nat => .mem none (BitVec.ofInt 32 (-(n : Int)))
  | [.word w, .byte 43, .word d] => do
    let base ← Slot.read? w
    let n ← number? d
    some (.mem (some base) (BitVec.ofInt 32 (n : Int)))
  | [.word w, .byte 45, .word d] => do
    let base ← Slot.read? w
    let n ← number? d
    some (.mem (some base) (BitVec.ofInt 32 (-(n : Int))))
  | _ => none

/-- Reads an operand, without its size. -/
def Operand.readPlain? : List Piece → Option Operand
  | .byte 91 :: rest => if rest.getLast? = some (.byte 93) then readMemory? rest.dropLast else none
  | [.byte 45, .word w] => (number? w).map fun n : Nat => .imm (BitVec.ofInt 32 (-(n : Int)))
  | [.word w] => readWord? w
  | _ => none

/-- Reads an operand; the size of a word may be written before it. -/
def Operand.read? (ps : List Piece) : Option Operand :=
  if ps.head? = some (.word "dword") then readPlain? ps.tail else readPlain? ps

/-- Cuts operands at commas. -/
def splitOperands : List Piece → List (List Piece)
  | [] => [[]]
  | p :: rest =>
    if p = .byte 44 then [] :: splitOperands rest
    else
      match splitOperands rest with
      | [] => [[p]]
      | first :: others => (p :: first) :: others

/-- Reads a mnemonic and operands. -/
def Assembly.ofTokens? : List Piece → Option Assembly
  | .word w :: rest => do
    let mnemonic ← Mnemonic.read? w
    let operands ← if rest.isEmpty then some [] else (splitOperands rest).mapM Operand.read?
    some { mnemonic, operands }
  | _ => none

/-- Reads a template. -/
def Assembly.read? (t : Text) : Option Assembly := ofTokens? (tokens t)

example : Assembly.read? "mov dword [s0 - 8], -1" =
    some ⟨.mov, [.mem (some (.src 0)) (-8), .imm (-1)]⟩ := by decide

theorem read_bracket (ps : List Piece) : Operand.read? (.byte 91 :: ps) = Operand.readPlain? (.byte 91 :: ps) :=
  if_neg (by simp)

theorem read_dword (ps : List Piece) : Operand.read? (.word "dword" :: ps) = Operand.readPlain? ps := if_pos rfl

section Split

variable {a b c : List Piece}

theorem splitOperands_last (ha : .byte 44 ∉ a) : splitOperands a = [a] := by
  induction a with
  | nil => rfl
  | cons p rest ih =>
    obtain ⟨hp, hrest⟩ := not_or.mp (mt List.mem_cons.mpr ha)
    rw [splitOperands, if_neg (Ne.symm hp), ih hrest]

theorem splitOperands_append (ha : .byte 44 ∉ a) : splitOperands (a ++ .byte 44 :: b) = a :: splitOperands b := by
  induction a with
  | nil => rw [List.nil_append, splitOperands, if_pos rfl]
  | cons p rest ih =>
    obtain ⟨hp, hrest⟩ := not_or.mp (mt List.mem_cons.mpr ha)
    rw [List.cons_append, splitOperands, if_neg (Ne.symm hp), ih hrest]

variable {t w : Text} {m : Mnemonic} {x y z : Operand}

theorem read_one (ht : tokens t = .word w :: a) (hw : Mnemonic.read? w = some m) (hne : a ≠ []) (ha : .byte 44 ∉ a)
    (hx : Operand.read? a = some x) : Assembly.read? t = some ⟨m, [x]⟩ := by
  have hempty : a.isEmpty = false := List.isEmpty_eq_false_iff.mpr hne
  simp [Assembly.read?, ht, Assembly.ofTokens?, hw, hempty, splitOperands_last ha, hx]

theorem read_two (ht : tokens t = .word w :: (a ++ .byte 44 :: b)) (hw : Mnemonic.read? w = some m)
    (ha : .byte 44 ∉ a) (hb : .byte 44 ∉ b) (hx : Operand.read? a = some x) (hy : Operand.read? b = some y) :
    Assembly.read? t = some ⟨m, [x, y]⟩ := by
  simp [Assembly.read?, ht, Assembly.ofTokens?, hw, splitOperands_append ha, splitOperands_last hb, hx, hy]

theorem read_three (ht : tokens t = .word w :: (a ++ .byte 44 :: (b ++ .byte 44 :: c)))
    (hw : Mnemonic.read? w = some m) (ha : .byte 44 ∉ a) (hb : .byte 44 ∉ b) (hc : .byte 44 ∉ c)
    (hx : Operand.read? a = some x) (hy : Operand.read? b = some y) (hz : Operand.read? c = some z) :
    Assembly.read? t = some ⟨m, [x, y, z]⟩ := by
  simp [Assembly.read?, ht, Assembly.ofTokens?, hw, splitOperands_append ha, splitOperands_append hb,
    splitOperands_last hc, hx, hy, hz]

end Split

/-! ### Numbers -/

theorem number?_ofNat (n : Nat) : number? (Text.ofNat n) = some n := by
  have hall : (Text.ofNat n).all Text.isDigit = true := List.all_eq_true.mpr (Text.isDigit_of_mem_ofNat n)
  simp [number?, Text.ofNat_ne_nil, hall, Text.digitsValue_ofNat]

theorem placeholder?_ofNat (letter : Char) (hletter : Text.isDigit (Text.byte letter) = false) (n : Nat) :
    placeholder? letter (Text.ofNat n) = none := by
  cases h : Text.ofNat n with
  | nil => rfl
  | cons b digits =>
    have hb : b ≠ Text.byte letter := by
      rintro rfl
      exact Text.ofNat_ne_cons hletter n digits h
    rw [placeholder?, if_neg hb]

theorem slot?_ofNat (n : Nat) : Slot.read? (Text.ofNat n) = none := by
  have hname (r : Register) : (r.text == Text.ofNat n) = false := by
    have hne : Text.ofNat n ≠ r.text := by
      cases r <;> exact Text.ofNat_ne_cons rfl n _
    exact beq_eq_false_iff_ne.mpr hne.symm
  simp [Slot.read?, placeholder?_ofNat 's' rfl, placeholder?_ofNat 'd' rfl, Register.all,
    hname]

theorem readPlain_numeral (v : Int) : Operand.readPlain? (numeral v) = some (.imm (BitVec.ofInt 32 v)) := by
  cases v with
  | ofNat n =>
    have hcl : Text.ofNat n ≠ "cl" := Text.ofNat_ne_cons rfl n _
    simp [numeral, Operand.readPlain?, Operand.readWord?, hcl, slot?_ofNat, number?_ofNat]
  | negSucc n =>
    change (number? (Text.ofNat (n + 1))).map _ = _
    rw [number?_ofNat]
    rfl

theorem read_numeral (v : Int) : Operand.read? (numeral v) = some (.imm (BitVec.ofInt 32 v)) := by
  have hdword : (numeral v).head? ≠ some (.word "dword") := by
    cases v with
    | ofNat n =>
      have hdword : Text.ofNat n ≠ "dword" := Text.ofNat_ne_cons rfl n _
      simp [numeral, hdword]
    | negSucc n => simp [numeral]
  rw [Operand.read?, if_neg hdword, readPlain_numeral]

theorem readPlain_absolute (v : Int) :
    Operand.readPlain? (.byte 91 :: numeral v ++ [.byte 93]) = some (.mem none (BitVec.ofInt 32 v)) := by
  cases v with
  | ofNat n =>
    change ((Slot.read? (Text.ofNat n)).map _ <|> (number? (Text.ofNat n)).map _) = _
    rw [slot?_ofNat, number?_ofNat]
    rfl
  | negSucc n =>
    change (number? (Text.ofNat (n + 1))).map _ = _
    rw [number?_ofNat]
    rfl

theorem readPlain_based (i : Word) :
    Operand.readPlain? (.byte 91 :: .word "s0" :: displacement i ++ [.byte 93]) = some (.mem (some (.src 0)) i) := by
  rw [displacement]
  split
  · next hneg =>
    obtain ⟨n, hn⟩ := Int.eq_ofNat_of_zero_le (a := -i.toInt) (by omega)
    rw [hn]
    change (number? (Text.ofNat n)).bind _ = _
    rw [number?_ofNat]
    change some (Operand.mem (some (.src 0)) (BitVec.ofInt 32 (-(n : Int)))) = _
    rw [← hn, Int.neg_neg, BitVec.ofInt_toInt]
  · split
    · next hpos =>
      obtain ⟨n, hn⟩ := Int.eq_ofNat_of_zero_le (a := i.toInt) (by omega)
      rw [hn]
      change (number? (Text.ofNat n)).bind _ = _
      rw [number?_ofNat]
      change some (Operand.mem (some (.src 0)) (BitVec.ofInt 32 (n : Int))) = _
      rw [← hn, BitVec.ofInt_toInt]
    · next hneg hpos =>
      have hzero : i = 0 := by
        rw [← BitVec.ofInt_toInt (x := i), show i.toInt = 0 by omega]
        rfl
      rw [hzero]
      rfl

/-! ### The forms -/

/-- The instruction that a form spells. -/
def Form.reading : Form → Assembly
  | .loadConst i => ⟨.mov, [.reg (.dst 0), .imm i]⟩
  | .loadSymbol => ⟨.mov, [.reg (.dst 0), .sym 0]⟩
  | .load disp => ⟨.mov, [.reg (.dst 0), .mem (some (.src 0)) disp]⟩
  | .loadAt addr => ⟨.mov, [.reg (.dst 0), .mem none addr]⟩
  | .store disp => ⟨.mov, [.mem (some (.src 0)) disp, .reg (.src 1)]⟩
  | .storeConst disp value => ⟨.mov, [.mem (some (.src 0)) disp, .imm value]⟩
  | .storeAt addr => ⟨.mov, [.mem none addr, .reg (.src 0)]⟩
  | .arith op => ⟨.arith op, [.reg (.dst 0), .reg (.src 1)]⟩
  | .arithConst op i => ⟨.arith op, [.reg (.dst 0), .imm i]⟩
  | .mul => ⟨.imul, [.reg (.dst 0), .reg (.src 1)]⟩
  | .mulConst i => ⟨.imul, [.reg (.dst 0), .reg (.src 0), .imm i]⟩
  | .signExtend => ⟨.cdq, []⟩
  | .div => ⟨.idiv, [.reg (.src 0)]⟩
  | .shift op => ⟨.shift op, [.reg (.dst 0), .cl]⟩
  | .shiftConst op count => ⟨.shift op, [.reg (.dst 0), .imm count]⟩
  | .cmp => ⟨.cmp, [.reg (.src 0), .reg (.src 1)]⟩
  | .cmpConst i => ⟨.cmp, [.reg (.src 0), .imm i]⟩
  | .branch rel => ⟨.jcc rel, [.target 0]⟩
  | .jump => ⟨.jmp, [.target 0]⟩
  | .jumpReg => ⟨.jmp, [.reg (.src 0)]⟩
  | .push => ⟨.push, [.reg (.src 0)]⟩
  | .pushConst i => ⟨.push, [.imm i]⟩
  | .call => ⟨.call, [.sym 0]⟩
  | .callReg => ⟨.call, [.reg (.src 0)]⟩
  | .pop bytes => ⟨.arith .add, [.reg (.fixed .esp), .imm (BitVec.ofInt 32 bytes)]⟩

theorem read_constNumeral (i : Word) : Operand.read? (numeral i.toInt) = some (.imm i) := by
  rw [read_numeral, BitVec.ofInt_toInt]

theorem read_based (disp : Word) : Operand.read? (based disp) = some (.mem (some (.src 0)) disp) :=
  (read_bracket _).trans (readPlain_based disp)

theorem read_absolute (addr : Word) : Operand.read? (absolute addr) = some (.mem none addr) := by
  have hread := readPlain_absolute addr.toInt
  rw [BitVec.ofInt_toInt] at hread
  exact (read_bracket _).trans hread

theorem comma_not_mem_based (disp : Word) : .byte 44 ∉ based disp := by
  simp [based, comma_not_mem_displacement]

theorem comma_not_mem_absolute (addr : Word) : .byte 44 ∉ absolute addr := by
  simp [absolute, comma_not_mem_numeral]

/-- Every form spells the instruction it is meant for. A branch on a relation outside the list has no mnemonic. -/
theorem read_asm (f : Form) (hf : ∀ n, f ≠ .branch (.other n)) : Assembly.read? f.asm = some f.reading := by
  have htokens := tokens_asm f
  cases f with
  | loadConst i =>
    exact read_two (a := [.word "d0"]) htokens rfl (by decide) (comma_not_mem_numeral _) rfl (read_constNumeral i)
  | load disp =>
    exact read_two (a := [.word "d0"]) htokens rfl (by decide) (comma_not_mem_based disp) rfl (read_based disp)
  | loadAt addr =>
    exact read_two (a := [.word "d0"]) htokens rfl (by decide) (comma_not_mem_absolute addr) rfl (read_absolute addr)
  | store disp =>
    exact read_two (a := based disp) (b := [.word "s1"]) htokens rfl (comma_not_mem_based disp) (by decide)
      (read_based disp) rfl
  | storeConst disp value =>
    refine read_two (a := .word "dword" :: based disp) htokens rfl ?_ (comma_not_mem_numeral _) ?_
      (read_constNumeral value)
    · simp [comma_not_mem_based]
    · exact (read_dword _).trans (readPlain_based disp)
  | storeAt addr =>
    exact read_two (a := absolute addr) (b := [.word "s0"]) htokens rfl (comma_not_mem_absolute addr) (by decide)
      (read_absolute addr) rfl
  | arith op => cases op <;> rfl
  | arithConst op i =>
    have hop : Mnemonic.read? op.mnemonic = some (.arith op) := by cases op <;> rfl
    exact read_two (a := [.word "d0"]) htokens hop (by decide) (comma_not_mem_numeral _) rfl (read_constNumeral i)
  | mulConst i =>
    exact read_three (a := [.word "d0"]) (b := [.word "s0"]) htokens rfl (by decide) (by decide)
      (comma_not_mem_numeral _) rfl rfl (read_constNumeral i)
  | shift op => cases op <;> rfl
  | shiftConst op i =>
    have hop : Mnemonic.read? op.mnemonic = some (.shift op) := by cases op <;> rfl
    exact read_two (a := [.word "d0"]) htokens hop (by decide) (comma_not_mem_numeral _) rfl (read_constNumeral i)
  | cmpConst i =>
    exact read_two (a := [.word "s0"]) htokens rfl (by decide) (comma_not_mem_numeral _) rfl (read_constNumeral i)
  | branch rel =>
    cases rel with
    | other n => exact absurd rfl (hf n)
    | _ => rfl
  | pushConst i =>
    refine read_one htokens rfl (List.cons_ne_nil _ _) ?_ ?_
    · simp [comma_not_mem_numeral]
    · rw [read_dword, readPlain_numeral, BitVec.ofInt_toInt]
  | pop bytes =>
    exact read_two (a := [.word "esp"]) htokens rfl (by decide) (comma_not_mem_numeral _) rfl (read_numeral bytes)
  | _ => rfl

end Lowering.X86
