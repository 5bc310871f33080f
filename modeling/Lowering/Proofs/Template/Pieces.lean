import Lowering.Instr.Template

/-!
# Pieces of a template

A template is cut into words, which are longest runs of word bytes, and the single bytes between them. Numbers
are written as one word, with a byte before it if they are negative.
-/

namespace Lowering

/-- A word of a template, or a byte between words. -/
inductive Piece where
  | word (w : Text)
  | byte (b : UInt8)
  deriving DecidableEq

/-- Puts a byte of a word before pieces: it joins the word that follows, if there is one. -/
def Piece.consWord (b : UInt8) : List Piece → List Piece
  | [] => [.word [b]]
  | .word w :: rest => .word (b :: w) :: rest
  | .byte c :: rest => .word [b] :: .byte c :: rest

/-- The pieces of a template. -/
def pieces : Text → List Piece
  | [] => []
  | b :: rest => if isTemplateWord b then Piece.consWord b (pieces rest) else .byte b :: pieces rest

theorem pieces_byte {b : UInt8} (hb : isTemplateWord b = false) (rest : Text) :
    pieces (b :: rest) = .byte b :: pieces rest := by
  rw [pieces, hb, if_neg Bool.false_ne_true]

theorem pieces_word {w : Text} (hne : w ≠ []) (hw : ∀ b ∈ w, isTemplateWord b = true) {rest : Text}
    (hrest : goesOnWithWord rest = false) : pieces (w ++ rest) = .word w :: pieces rest := by
  induction w with
  | nil => exact absurd rfl hne
  | cons b w ih =>
    obtain ⟨hb, hw⟩ := List.forall_mem_cons.mp hw
    rw [List.cons_append, pieces, if_pos hb]
    cases w with
    | nil =>
      cases rest with
      | nil => rfl
      | cons c rest =>
        rw [List.nil_append, pieces_byte hrest]
        rfl
    | cons c w =>
      rw [ih (List.cons_ne_nil c w) hw]
      rfl

/-! ### Numbers -/

namespace Text

theorem isDigit_digit {n : Nat} (hn : n < 10) : isDigit (digit n) = true := by
  revert n
  decide

theorem digit_toNat {n : Nat} (hn : n < 10) : (digit n).toNat - 48 = n := by
  revert n
  decide

theorem ofNat_ne_nil (n : Nat) : ofNat n ≠ [] := by
  rw [ofNat]
  split <;> simp

theorem isDigit_of_mem_ofNat (n : Nat) : ∀ b ∈ ofNat n, isDigit b = true := by
  induction n using Nat.strongRecOn with
  | ind n ih =>
    rw [ofNat]
    split
    · next hn => exact List.forall_mem_singleton.mpr (isDigit_digit hn)
    · next hn =>
      intro b hb
      obtain hb | hb := List.mem_append.mp hb
      · exact ih (n / 10) (by omega) b hb
      · exact List.mem_singleton.mp hb ▸ isDigit_digit (Nat.mod_lt n (by omega))

/-- A number begins with no letter. -/
theorem ofNat_ne_cons {b : UInt8} (hb : isDigit b = false) (n : Nat) (rest : Text) :
    ofNat n ≠ b :: rest := by
  intro h
  have := isDigit_of_mem_ofNat n b (h ▸ List.mem_cons_self ..)
  rw [hb] at this
  cases this

theorem digitsValue_ofNat (n : Nat) : digitsValue (ofNat n) = n := by
  induction n using Nat.strongRecOn with
  | ind n ih =>
    rw [ofNat]
    split
    · next hn =>
      change 10 * 0 + ((digit n).toNat - 48) = n
      rw [digit_toNat hn]
      omega
    · next hn =>
      have hprefix := ih (n / 10) (by omega)
      rw [digitsValue] at hprefix ⊢
      rw [List.foldl_append, hprefix]
      change 10 * (n / 10) + ((digit (n % 10)).toNat - 48) = n
      rw [digit_toNat (Nat.mod_lt n (by omega))]
      omega

theorem ofNat_injective {n m : Nat} (h : ofNat n = ofNat m) : n = m := by
  rw [← digitsValue_ofNat n, h, digitsValue_ofNat]

theorem isTemplateWord_of_isDigit {b : UInt8} (hb : isDigit b = true) : isTemplateWord b = true := by
  simp [isTemplateWord, isAlphanumeric, hb]

end Text

/-- A number is one word. -/
theorem pieces_ofNat (n : Nat) {rest : Text} (hrest : goesOnWithWord rest = false) :
    pieces (Text.ofNat n ++ rest) = .word (Text.ofNat n) :: pieces rest :=
  pieces_word (Text.ofNat_ne_nil n)
    (fun b hb => Text.isTemplateWord_of_isDigit (Text.isDigit_of_mem_ofNat n b hb)) hrest

end Lowering
