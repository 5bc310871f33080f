import Lowering.Proofs.Template.Pieces
import Lowering.X86.Form

/-!
# Tokens of the target's templates

What the templates of the target are made of once blanks are left out: words, numerals, displacements and the bytes
between them. `tokens_asm` lists the tokens of every form; all that is said about templates is read off from it.
-/

namespace Lowering.X86

/-- The pieces of a template without blanks. -/
def tokens (t : Text) : List Piece := (pieces t).filter (· ≠ .byte 32)

/-! ### Numbers -/

/-- The pieces of a number. -/
def numeral : Int → List Piece
  | .ofNat n => [.word (Text.ofNat n)]
  | .negSucc n => [.byte 45, .word (Text.ofNat (n + 1))]

theorem tokens_byte {b : UInt8} (hb : isTemplateWord b = false) (hblank : b ≠ 32) (rest : Text) :
    tokens (b :: rest) = .byte b :: tokens rest := by
  simp [tokens, pieces_byte hb, hblank]

theorem tokens_ofNat (n : Nat) {rest : Text} (hrest : goesOnWithWord rest = false) :
    tokens (Text.ofNat n ++ rest) = .word (Text.ofNat n) :: tokens rest := by
  simp [tokens, pieces_ofNat n hrest]

theorem tokens_ofInt (v : Int) {rest : Text} (hrest : goesOnWithWord rest = false) :
    tokens (Text.ofInt v ++ rest) = numeral v ++ tokens rest := by
  cases v with
  | ofNat n => exact tokens_ofNat n hrest
  | negSucc n =>
    refine (tokens_byte (by decide) (by decide) _).trans ?_
    exact congrArg (Piece.byte 45 :: ·) (tokens_ofNat (n + 1) hrest)

theorem tokens_ofInt_last (v : Int) : tokens (Text.ofInt v) = numeral v := by
  have h : tokens (Text.ofInt v ++ []) = numeral v ++ tokens [] := tokens_ofInt v rfl
  rwa [List.append_nil, show tokens [] = [] from rfl, List.append_nil] at h

theorem comma_not_mem_numeral (v : Int) : .byte 44 ∉ numeral v := by
  cases v <;> simp [numeral]

/-- The pieces of a displacement. -/
def displacement (i : Word) : List Piece :=
  if i.toInt < 0 then .byte 45 :: numeral (-i.toInt)
  else if 0 < i.toInt then .byte 43 :: numeral i.toInt
  else []

theorem goesOnWithWord_dispText (i : Word) {rest : Text} (hrest : goesOnWithWord rest = false) :
    goesOnWithWord (dispText i ++ rest) = false := by
  rw [dispText]
  split
  · rfl
  · split
    · rfl
    · exact hrest

theorem tokens_dispText (i : Word) {rest : Text} (hrest : goesOnWithWord rest = false) :
    tokens (dispText i ++ rest) = displacement i ++ tokens rest := by
  rw [dispText, displacement]
  split
  · rw [List.append_assoc]
    exact congrArg (Piece.byte 45 :: ·) (tokens_ofInt _ hrest)
  · split
    · rw [List.append_assoc]
      exact congrArg (Piece.byte 43 :: ·) (tokens_ofInt _ hrest)
    · rfl

theorem tokens_based (i : Word) {rest : Text} (hrest : goesOnWithWord rest = false) :
    tokens ("[s0" ++ dispText i ++ rest) = .byte 91 :: .word "s0" :: displacement i ++ tokens rest := by
  have hword : tokens ("s0" ++ (dispText i ++ rest)) = .word "s0" :: tokens (dispText i ++ rest) := by
    rw [tokens, pieces_word (by decide) (List.all_eq_true.mp rfl) (goesOnWithWord_dispText i hrest)]
    rfl
  rw [List.append_assoc]
  refine congrArg (Piece.byte 91 :: ·) (hword.trans ?_)
  rw [tokens_dispText i hrest]
  rfl

theorem comma_not_mem_displacement (i : Word) : .byte 44 ∉ displacement i := by
  rw [displacement]
  split
  · simp [comma_not_mem_numeral]
  · split
    · simp [comma_not_mem_numeral]
    · exact List.not_mem_nil

theorem tokens_constText (i : Word) {rest : Text} (hrest : goesOnWithWord rest = false) :
    tokens (constText i ++ rest) = numeral i.toInt ++ tokens rest := tokens_ofInt i.toInt hrest

theorem tokens_constText_last (i : Word) : tokens (constText i) = numeral i.toInt := tokens_ofInt_last i.toInt

/-! ### Forms -/

/-- The tokens of a memory operand at a register plus a displacement. -/
def based (disp : Word) : List Piece := .byte 91 :: .word "s0" :: displacement disp ++ [.byte 93]

/-- The tokens of a memory operand at a constant address. -/
def absolute (addr : Word) : List Piece := .byte 91 :: numeral addr.toInt ++ [.byte 93]

/-- The tokens of a form's template. -/
def Form.tokens : Form → List Piece
  | .loadConst i => .word "mov" :: .word "d0" :: .byte 44 :: numeral i.toInt
  | .loadSymbol => [.word "mov", .word "d0", .byte 44, .word "l0"]
  | .load disp => .word "mov" :: .word "d0" :: .byte 44 :: based disp
  | .loadAt addr => .word "mov" :: .word "d0" :: .byte 44 :: absolute addr
  | .store disp => .word "mov" :: based disp ++ [.byte 44, .word "s1"]
  | .storeConst disp value => .word "mov" :: .word "dword" :: based disp ++ .byte 44 :: numeral value.toInt
  | .storeAt addr => .word "mov" :: absolute addr ++ [.byte 44, .word "s0"]
  | .arith op => [.word op.mnemonic, .word "d0", .byte 44, .word "s1"]
  | .arithConst op i => .word op.mnemonic :: .word "d0" :: .byte 44 :: numeral i.toInt
  | .mul => [.word "imul", .word "d0", .byte 44, .word "s1"]
  | .mulConst i => .word "imul" :: .word "d0" :: .byte 44 :: .word "s0" :: .byte 44 :: numeral i.toInt
  | .signExtend => [.word "cdq"]
  | .div => [.word "idiv", .word "s0"]
  | .shift op => [.word op.mnemonic, .word "d0", .byte 44, .word "cl"]
  | .shiftConst op count => .word op.mnemonic :: .word "d0" :: .byte 44 :: numeral count.toInt
  | .cmp => [.word "cmp", .word "s0", .byte 44, .word "s1"]
  | .cmpConst i => .word "cmp" :: .word "s0" :: .byte 44 :: numeral i.toInt
  | .branch (.other _) => [.word "j0"]
  | .branch rel => [.word (branchMnemonic rel), .word "j0"]
  | .jump => [.word "jmp", .word "j0"]
  | .jumpReg => [.word "jmp", .word "s0"]
  | .push => [.word "push", .word "s0"]
  | .pushConst i => .word "push" :: .word "dword" :: numeral i.toInt
  | .call => [.word "call", .word "l0"]
  | .callReg => [.word "call", .word "s0"]
  | .pop bytes => .word "add" :: .word "esp" :: .byte 44 :: numeral bytes

theorem tokens_based_last (disp : Word) : tokens ("[s0" ++ dispText disp ++ "]") = based disp := tokens_based disp rfl

theorem tokens_asm (f : Form) : X86.tokens f.asm = f.tokens := by
  -- What stands before the first part that is not fixed is read by computation.
  cases f with
  | loadConst i => exact congrArg (fun ps => .word "mov" :: .word "d0" :: .byte 44 :: ps) (tokens_constText_last i)
  | load disp => exact congrArg (fun ps => .word "mov" :: .word "d0" :: .byte 44 :: ps) (tokens_based_last disp)
  | loadAt addr =>
    have haddr : X86.tokens (constText addr ++ "]") = numeral addr.toInt ++ [.byte 93] := tokens_constText addr rfl
    exact congrArg (fun ps => .word "mov" :: .word "d0" :: .byte 44 :: .byte 91 :: ps) haddr
  | store disp =>
    have hbase : X86.tokens ("[s0" ++ dispText disp ++ "], s1") = _ := tokens_based disp rfl
    refine (congrArg (fun ps => .word "mov" :: ps) hbase).trans ?_
    simp only [Form.tokens, based, List.cons_append, List.append_assoc]
    rfl
  | storeConst disp value =>
    have hbase : X86.tokens ("[s0" ++ dispText disp ++ ("], " ++ constText value)) = _ := tokens_based disp rfl
    have hrest : X86.tokens ("], " ++ constText value) = .byte 93 :: .byte 44 :: numeral value.toInt :=
      congrArg (fun ps => Piece.byte 93 :: Piece.byte 44 :: ps) (tokens_constText_last value)
    rw [hrest] at hbase
    rw [Form.asm, List.append_assoc]
    refine (congrArg (fun ps => .word "mov" :: .word "dword" :: ps) hbase).trans ?_
    simp only [Form.tokens, based, List.cons_append, List.append_assoc]
    rfl
  | storeAt addr =>
    have haddr : X86.tokens (constText addr ++ "], s0") = _ := tokens_constText addr rfl
    refine (congrArg (fun ps => .word "mov" :: .byte 91 :: ps) haddr).trans ?_
    simp only [Form.tokens, absolute, List.cons_append, List.append_assoc]
    rfl
  | arith op => cases op <;> rfl
  | arithConst op i =>
    have htail : ∀ w : Text, .word w :: .word "d0" :: .byte 44 :: X86.tokens (constText i) =
        .word w :: .word "d0" :: .byte 44 :: numeral i.toInt := by
      intro w
      rw [tokens_constText_last]
    cases op <;> exact htail _
  | mulConst i =>
    exact congrArg (fun ps => .word "imul" :: .word "d0" :: .byte 44 :: .word "s0" :: .byte 44 :: ps)
      (tokens_constText_last i)
  | shift op => cases op <;> rfl
  | shiftConst op i =>
    have htail : ∀ w : Text, .word w :: .word "d0" :: .byte 44 :: X86.tokens (constText i) =
        .word w :: .word "d0" :: .byte 44 :: numeral i.toInt := by
      intro w
      rw [tokens_constText_last]
    cases op <;> exact htail _
  | cmpConst i => exact congrArg (fun ps => .word "cmp" :: .word "s0" :: .byte 44 :: ps) (tokens_constText_last i)
  | branch rel => cases rel <;> rfl
  | pushConst i => exact congrArg (fun ps => .word "push" :: .word "dword" :: ps) (tokens_constText_last i)
  | pop bytes => exact congrArg (fun ps => .word "add" :: .word "esp" :: .byte 44 :: ps) (tokens_ofInt_last bytes)
  | _ => rfl

end Lowering.X86
