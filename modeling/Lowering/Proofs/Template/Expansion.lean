import Lowering.Proofs.Template.Pieces

/-!
# Expanding a template piece by piece

Expansion scans a template from left to right. It comes to the same as cutting the template into pieces and replacing
every word that is a placeholder, so what is put in for one placeholder never plays a part in another.
-/

namespace Lowering

namespace Operands

variable (x : Operands) (template : Text)

/-- The operands that a word counts, if it is a placeholder. -/
def counted? : Text → Option (List Text)
  | [] => none
  | c :: digits => if !digits.isEmpty && digits.all Text.isDigit then x.family? c else none

/-- What a piece is replaced by. -/
def expandPiece : Piece → Except Fault Text
  | .byte b => .ok [b]
  | .word w =>
    match x.counted? w with
    | none => .ok w
    | some family =>
      match family[Text.digitsValue w.tail]? with
      | none => .error (.noOperand w template)
      | some operand => .ok operand

/-- Expands pieces from left to right. -/
def expandPieces : List Piece → Except Fault Text
  | [] => .ok []
  | p :: rest => do
    let first ← x.expandPiece template p
    let tail ← expandPieces rest
    .ok (first ++ tail)

/-! ### Words inside the scan -/

theorem family?_eq_none {c : UInt8} (hc : isTemplateWord c = false) : x.family? c = none := by
  have hne (letter : Char) (hletter : isTemplateWord (Text.byte letter) = true) : c ≠ Text.byte letter := by
    rintro rfl
    exact Bool.noConfusion (hletter.symm.trans hc)
  rw [family?, if_neg (hne 's' rfl), if_neg (hne 'd' rfl), if_neg (hne 'j' rfl), if_neg (hne 'l' rfl)]

/-- Outside of words it does not matter whether a word has begun. -/
theorem expandFrom_outside {rest : Text} (hrest : goesOnWithWord rest = false) (fresh : Bool) :
    x.expandFrom template fresh rest = x.expandFrom template true rest := by
  cases rest with
  | nil => rw [expandFrom, expandFrom]
  | cons c rest =>
    rw [expandFrom, expandFrom, family?_eq_none x hrest]
    simp only [ite_self]

theorem expandFrom_byte {c : UInt8} (hc : isTemplateWord c = false) (rest : Text) :
    x.expandFrom template true (c :: rest) = (do
      let tail ← x.expandFrom template true rest
      .ok (c :: tail)) := by
  rw [expandFrom, family?_eq_none x hc]
  simp only [ite_self, hc, Bool.not_false]

/-- Inside a word everything up to its end is copied. -/
theorem expandFrom_inside {w : Text} (hw : ∀ b ∈ w, isTemplateWord b = true) {rest : Text}
    (hrest : goesOnWithWord rest = false) :
    x.expandFrom template false (w ++ rest) = (do
      let tail ← x.expandFrom template true rest
      .ok (w ++ tail)) := by
  induction w with
  | nil =>
    rw [List.nil_append, expandFrom_outside x template hrest]
    cases x.expandFrom template true rest <;> rfl
  | cons c w ih =>
    obtain ⟨hc, hw⟩ := List.forall_mem_cons.mp hw
    rw [List.cons_append, expandFrom]
    simp only [Bool.false_and, Bool.false_eq_true, if_false, hc, Bool.not_true, ih hw]
    cases x.expandFrom template true rest <;> rfl

end Operands

/-! ### Digits of a word -/

section Digits

variable {w rest : Text}

theorem takeWhile_isDigit_of_all (hw : w.all Text.isDigit = true) (hrest : goesOnWithWord rest = false) :
    (w ++ rest).takeWhile Text.isDigit = w := by
  induction w with
  | nil =>
    cases rest with
    | nil => rfl
    | cons c rest =>
      have hc : Text.isDigit c ≠ true := by
        intro hdigit
        exact Bool.noConfusion (hrest.symm.trans (Text.isTemplateWord_of_isDigit hdigit))
      rw [List.nil_append, List.takeWhile_cons_of_neg hc]
  | cons b w ih =>
    rw [List.all_cons, Bool.and_eq_true] at hw
    rw [List.cons_append, List.takeWhile_cons_of_pos hw.1, ih hw.2]

/-- A word that is not all digits goes on behind its digits. -/
theorem goesOnWithWord_of_not_all (hword : ∀ b ∈ w, isTemplateWord b = true) (hw : w.all Text.isDigit = false) :
    goesOnWithWord ((w ++ rest).drop ((w ++ rest).takeWhile Text.isDigit).length) = true := by
  induction w with
  | nil => cases hw
  | cons b w ih =>
    obtain ⟨hb, hword⟩ := List.forall_mem_cons.mp hword
    by_cases hdigit : Text.isDigit b = true
    · rw [List.all_cons, hdigit, Bool.true_and] at hw
      rw [List.cons_append, List.takeWhile_cons_of_pos hdigit, List.length_cons, List.drop_succ_cons]
      exact ih hword hw
    · rw [List.cons_append, List.takeWhile_cons_of_neg hdigit]
      exact hb

/-- Every text that starts with a word byte is a word and what follows it. -/
theorem exists_word_append (t : Text) :
    ∃ w rest, t = w ++ rest ∧ (∀ b ∈ w, isTemplateWord b = true) ∧ goesOnWithWord rest = false := by
  induction t with
  | nil => exact ⟨[], [], rfl, List.forall_mem_nil _, rfl⟩
  | cons c t ih =>
    by_cases hc : isTemplateWord c = true
    · obtain ⟨w, rest, rfl, hw, hrest⟩ := ih
      exact ⟨c :: w, rest, rfl, List.forall_mem_cons.mpr ⟨hc, hw⟩, hrest⟩
    · exact ⟨[], c :: t, rfl, List.forall_mem_nil _, Bool.eq_false_iff.mpr hc⟩

end Digits

namespace Operands

variable (x : Operands) (template : Text)

/-- The scan replaces a whole word or copies it. -/
theorem expandFrom_word {c : UInt8} {w rest : Text} (hc : isTemplateWord c = true)
    (hw : ∀ b ∈ w, isTemplateWord b = true) (hrest : goesOnWithWord rest = false) :
    x.expandFrom template true (c :: w ++ rest) = (do
      let first ← x.expandPiece template (.word (c :: w))
      let tail ← x.expandFrom template true rest
      .ok (first ++ tail)) := by
  rw [List.cons_append, expandFrom, expandPiece, counted?]
  by_cases hall : w.all Text.isDigit = true
  · have hdigits := takeWhile_isDigit_of_all hall hrest
    have hdrop : (w ++ rest).drop w.length = rest := List.drop_left
    simp only [hdigits, hdrop, hrest, hall, Bool.not_false, Bool.and_true, Bool.true_and, List.tail_cons]
    generalize (if (!w.isEmpty) = true then x.family? c else none) = family?
    cases family? with
    | none =>
      simp only [hc, Bool.not_true, expandFrom_inside x template hw hrest]
      cases x.expandFrom template true rest <;> rfl
    | some family =>
      cases hget : family[Text.digitsValue w]? with
      | none =>
        simp only [hget]
        rfl
      | some operand =>
        simp only [hget, expandFrom_outside x template hrest false]
        rfl
  · have hnot : w.all Text.isDigit = false := Bool.eq_false_iff.mpr hall
    simp only [goesOnWithWord_of_not_all hw hnot, hnot, Bool.not_true, Bool.and_false, Bool.false_eq_true, if_false,
      hc, expandFrom_inside x template hw hrest]
    cases x.expandFrom template true rest <;> rfl

/-- Expansion is substitution in the words of a template. -/
theorem expandFrom_eq_expandPieces (t : Text) : x.expandFrom template true t = x.expandPieces template (pieces t) := by
  induction hlength : t.length using Nat.strongRecOn generalizing t with
  | ind length ih =>
    cases t with
    | nil => rw [expandFrom, pieces, expandPieces]
    | cons c t =>
      rw [List.length_cons] at hlength
      by_cases hc : isTemplateWord c = true
      · obtain ⟨w, rest, rfl, hw, hrest⟩ := exists_word_append t
        have hword : ∀ b ∈ c :: w, isTemplateWord b = true := List.forall_mem_cons.mpr ⟨hc, hw⟩
        rw [← List.cons_append, expandFrom_word x template hc hw hrest, pieces_word (List.cons_ne_nil c w) hword hrest,
          expandPieces, ih rest.length (by rw [List.length_append] at hlength; omega) rest rfl]
      · have hc : isTemplateWord c = false := Bool.eq_false_iff.mpr hc
        rw [expandFrom_byte x template hc, pieces_byte hc, expandPieces, ih t.length (by omega) t rfl]
        rfl

end Operands

end Lowering
