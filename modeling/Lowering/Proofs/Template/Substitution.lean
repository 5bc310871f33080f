import Lowering.Proofs.Template.Expansion
import Mathlib.Data.List.Forall2
import Mathlib.Data.Nat.Digits.Defs

/-!
# Expansion is substitution in words

What expanding a template means, said without the scan: the template is cut into its longest runs of word bytes and the
single bytes between them, every run that is a placeholder is replaced by the operand it names, and everything else is
copied. There is only one such cut, and expansion meets a fault exactly if a placeholder names an operand that is not
there.
-/

namespace Lowering

/-! ### Cuts -/

namespace Piece

/-- The bytes of a piece. -/
def text : Piece → Text
  | .word w => w
  | .byte b => [b]

def isWord : Piece → Bool
  | .word _ => true
  | .byte _ => false

/-- Does a piece hold what it may hold: a word some word bytes, a single byte no word byte? -/
def WellFormed : Piece → Prop
  | .word w => w ≠ [] ∧ ∀ b ∈ w, isTemplateWord b = true
  | .byte b => isTemplateWord b = false

end Piece

/-- The pieces are the text cut into its longest runs of word bytes and the single bytes between them. -/
structure IsCut (ps : List Piece) (t : Text) : Prop where
  text : ps.flatMap Piece.text = t
  wellFormed : ∀ p ∈ ps, p.WellFormed
  /-- Words do not touch, so each is as long as can be. -/
  apart : ps.IsChain fun p q => p.isWord = false ∨ q.isWord = false

namespace IsCut

variable {ps : List Piece} {t : Text} {b : UInt8}

theorem cons_byte (h : IsCut ps t) (hb : isTemplateWord b = false) : IsCut (.byte b :: ps) (b :: t) where
  text := congrArg (b :: ·) h.text
  wellFormed := List.forall_mem_cons.mpr ⟨hb, h.wellFormed⟩
  apart := by
    cases ps with
    | nil => exact .singleton _
    | cons p ps => exact .cons_cons (.inl rfl) h.apart

theorem consWord (h : IsCut ps t) (hb : isTemplateWord b = true) : IsCut (Piece.consWord b ps) (b :: t) := by
  have hone : (Piece.word [b]).WellFormed := ⟨List.cons_ne_nil b [], List.forall_mem_singleton.mpr hb⟩
  obtain ⟨rfl, hps, hapart⟩ := h
  cases ps with
  | nil => exact ⟨rfl, List.forall_mem_singleton.mpr hone, .singleton _⟩
  | cons p ps =>
    cases p with
    | byte c => exact ⟨rfl, List.forall_mem_cons.mpr ⟨hone, hps⟩, .cons_cons (.inr rfl) hapart⟩
    | word w =>
      obtain ⟨hw, hps⟩ := List.forall_mem_cons.mp hps
      refine ⟨rfl, List.forall_mem_cons.mpr ⟨⟨List.cons_ne_nil b w, List.forall_mem_cons.mpr ⟨hb, hw.2⟩⟩, hps⟩, ?_⟩
      cases ps with
      | nil => exact .singleton _
      | cons q ps => exact .cons_cons (List.isChain_cons_cons.mp hapart).1 (List.isChain_cons_cons.mp hapart).2

end IsCut

theorem isCut_pieces (t : Text) : IsCut (pieces t) t := by
  induction t with
  | nil => exact ⟨rfl, List.forall_mem_nil _, .nil⟩
  | cons b t ih =>
    rw [pieces]
    split
    · next hb => exact ih.consWord hb
    · next hb => exact ih.cons_byte (Bool.eq_false_iff.mpr hb)

/-- There is only one cut. -/
theorem IsCut.eq_pieces {ps : List Piece} {t : Text} (h : IsCut ps t) : ps = pieces t := by
  obtain ⟨rfl, hps, hapart⟩ := h
  induction ps with
  | nil => rfl
  | cons p ps ih =>
    obtain ⟨hp, htail⟩ := List.forall_mem_cons.mp hps
    have hrest := ih htail hapart.of_cons
    rw [List.flatMap_cons]
    cases p with
    | byte b => exact (congrArg _ hrest).trans (pieces_byte hp _).symm
    | word w =>
      have hnext : goesOnWithWord (ps.flatMap Piece.text) = false := by
        cases ps with
        | nil => rfl
        | cons q ps =>
          obtain hword | hword := (List.isChain_cons_cons.mp hapart).1
          · cases hword
          · cases q with
            | word w' => cases hword
            | byte c => exact (List.forall_mem_cons.mp htail).1
      exact (congrArg _ hrest).trans (pieces_word hp.1 hp.2 hnext).symm

/-! ### Placeholders -/

/-- The lists that placeholders count. -/
inductive OperandList where
  | uses
  | defs
  | jumps
  | syms
  deriving DecidableEq

/-- The letter of a list. -/
def OperandList.letter : OperandList → UInt8
  | .uses => Text.byte 's'
  | .defs => Text.byte 'd'
  | .jumps => Text.byte 'j'
  | .syms => Text.byte 'l'

/-- The operands of an instruction in print: registers by their names, labels as they are. -/
def Instr.printed (names : Temp → Text) (x : Instr) : OperandList → List Text
  | .uses => x.uses.map names
  | .defs => x.defs.map names
  | .jumps => x.targets
  | .syms => x.symbols

/-- How many operands there are in a list. -/
def Instr.count (x : Instr) : OperandList → Nat
  | .uses => x.uses.length
  | .defs => x.defs.length
  | .jumps => x.targets.length
  | .syms => x.symbols.length

theorem Instr.length_printed (names : Temp → Text) (x : Instr) (list : OperandList) :
    (x.printed names list).length = x.count list := by
  cases list with
  | uses => exact List.length_map names
  | defs => exact List.length_map names
  | jumps => rfl
  | syms => rfl

/-- The word is the letter of a list with the decimal digits of `n` behind it. Zeros may stand in front. -/
def IsPlaceholder (w : Text) (list : OperandList) (n : Nat) : Prop :=
  ∃ digits, w = list.letter :: digits ∧ digits ≠ [] ∧ (∀ b ∈ digits, Text.isDigit b = true) ∧
    n = Nat.ofDigits 10 (digits.reverse.map fun b => b.toNat - 48)

namespace Text

theorem digitsValue_concat (digits : Text) (b : UInt8) :
    digitsValue (digits ++ [b]) = 10 * digitsValue digits + (b.toNat - 48) := by
  rw [digitsValue, List.foldl_concat]
  rfl

theorem digitsValue_reverse (digits : Text) :
    digitsValue digits.reverse = Nat.ofDigits 10 (digits.map fun b => b.toNat - 48) := by
  induction digits with
  | nil => rfl
  | cons b digits ih =>
    rw [List.reverse_cons, digitsValue_concat, ih, List.map_cons, Nat.ofDigits_cons, Nat.add_comm]

end Text

theorem isPlaceholder_iff {w : Text} {list : OperandList} {n : Nat} :
    IsPlaceholder w list n ↔ ∃ digits, w = list.letter :: digits ∧ (!digits.isEmpty && digits.all Text.isDigit) = true ∧
      n = Text.digitsValue digits := by
  refine exists_congr fun digits => and_congr_right fun _ => ?_
  rw [← Text.digitsValue_reverse, List.reverse_reverse, ← and_assoc]
  simp

/-- What a piece of a template may be replaced by. -/
inductive Replaced (names : Temp → Text) (x : Instr) : Piece → Text → Prop
  | byte (b : UInt8) : Replaced names x (.byte b) [b]
  | word {w : Text} (hplain : ∀ list n, ¬ IsPlaceholder w list n) : Replaced names x (.word w) w
  | operand {w : Text} {list : OperandList} {n : Nat} {t : Text} (hw : IsPlaceholder w list n)
      (ht : (x.printed names list)[n]? = some t) : Replaced names x (.word w) t

/-- The word asks for an operand past the end of its list. -/
def Dangling (x : Instr) (w : Text) : Prop := ∃ list n, IsPlaceholder w list n ∧ x.count list ≤ n

/-! ### Expansion of a piece -/

section Expansion

variable {names : Temp → Text} {x : Instr} {template : Text}

theorem family?_letter (list : OperandList) : (x.operands names).family? list.letter = some (x.printed names list) := by
  cases list <;> rfl

theorem exists_letter_of_family? {c : UInt8} {family : List Text} (h : (x.operands names).family? c = some family) :
    ∃ list : OperandList, c = list.letter := by
  simp only [Operands.family?] at h
  split at h
  · next hc => exact ⟨.uses, hc⟩
  split at h
  · next hc => exact ⟨.defs, hc⟩
  split at h
  · next hc => exact ⟨.jumps, hc⟩
  split at h
  · next hc => exact ⟨.syms, hc⟩
  · cases h

theorem expandPiece_plain {w : Text} (hw : ∀ list n, ¬ IsPlaceholder w list n) :
    (x.operands names).expandPiece template (.word w) = .ok w := by
  have hcounted : (x.operands names).counted? w = none := by
    rw [Option.eq_none_iff_forall_ne_some]
    intro family hfamily
    cases w with
    | nil => cases hfamily
    | cons c digits =>
      rw [Operands.counted?] at hfamily
      split at hfamily
      · next hdigits =>
        obtain ⟨list, rfl⟩ := exists_letter_of_family? hfamily
        exact hw list _ (isPlaceholder_iff.mpr ⟨digits, rfl, hdigits, rfl⟩)
      · cases hfamily
  rw [Operands.expandPiece, hcounted]

theorem expandPiece_placeholder {w : Text} {list : OperandList} {n : Nat} (hw : IsPlaceholder w list n) :
    (x.operands names).expandPiece template (.word w) =
      match (x.printed names list)[n]? with
      | none => .error (.noOperand w template)
      | some t => .ok t := by
  obtain ⟨digits, rfl, hdigits, rfl⟩ := isPlaceholder_iff.mp hw
  rw [Operands.expandPiece, Operands.counted?, if_pos hdigits, family?_letter]
  rfl

theorem expandPiece_eq_ok_iff {p : Piece} {t : Text} :
    (x.operands names).expandPiece template p = .ok t ↔ Replaced names x p t := by
  constructor
  · intro h
    cases p with
    | byte b =>
      cases h
      exact .byte b
    | word w =>
      by_cases hw : ∃ list n, IsPlaceholder w list n
      · obtain ⟨list, n, hw⟩ := hw
        rw [expandPiece_placeholder hw] at h
        split at h
        · cases h
        · next ht =>
          cases h
          exact .operand hw ht
      · simp only [not_exists] at hw
        rw [expandPiece_plain hw] at h
        cases h
        exact .word hw
  · intro h
    cases h with
    | byte b => rfl
    | word hplain => exact expandPiece_plain hplain
    | operand hw ht => rw [expandPiece_placeholder hw, ht]

theorem expandPiece_eq_error_iff {p : Piece} {f : Fault} :
    (x.operands names).expandPiece template p = .error f ↔
      ∃ w, p = .word w ∧ Dangling x w ∧ f = .noOperand w template := by
  constructor
  · intro h
    cases p with
    | byte b => cases h
    | word w =>
      by_cases hw : ∃ list n, IsPlaceholder w list n
      · obtain ⟨list, n, hw⟩ := hw
        rw [expandPiece_placeholder hw] at h
        split at h
        · next hnone =>
          cases h
          rw [List.getElem?_eq_none_iff, x.length_printed] at hnone
          exact ⟨w, rfl, ⟨list, n, hw, hnone⟩, rfl⟩
        · cases h
      · simp only [not_exists] at hw
        rw [expandPiece_plain hw] at h
        cases h
  · rintro ⟨w, rfl, ⟨list, n, hw, hn⟩, rfl⟩
    rw [← x.length_printed names] at hn
    rw [expandPiece_placeholder hw, List.getElem?_eq_none hn]

theorem exists_expandPiece_eq_ok_iff {p : Piece} :
    (∃ t, (x.operands names).expandPiece template p = .ok t) ↔ ∀ v, p = .word v → ¬ Dangling x v := by
  constructor
  · rintro ⟨t, ht⟩ v rfl hv
    rw [expandPiece_eq_error_iff.mpr ⟨v, rfl, hv, rfl⟩] at ht
    cases ht
  · intro hp
    cases h : (x.operands names).expandPiece template p with
    | ok t => exact ⟨t, rfl⟩
    | error f =>
      obtain ⟨w, rfl, hw, -⟩ := expandPiece_eq_error_iff.mp h
      exact absurd hw (hp w rfl)

/-! ### Expansion of a template -/

theorem expandPieces_cons_eq_ok_iff {x : Operands} {p : Piece} {ps : List Piece} {t : Text} :
    x.expandPieces template (p :: ps) = .ok t ↔
      ∃ first tail, x.expandPiece template p = .ok first ∧ x.expandPieces template ps = .ok tail ∧
        t = first ++ tail := by
  rw [Operands.expandPieces]
  cases x.expandPiece template p <;> cases x.expandPieces template ps <;> simp [bind, Except.bind, eq_comm]

theorem expandPieces_cons_eq_error_iff {x : Operands} {p : Piece} {ps : List Piece} {f : Fault} :
    x.expandPieces template (p :: ps) = .error f ↔ x.expandPiece template p = .error f ∨
      (∃ first, x.expandPiece template p = .ok first) ∧ x.expandPieces template ps = .error f := by
  rw [Operands.expandPieces]
  cases x.expandPiece template p <;> cases x.expandPieces template ps <;> simp [bind, Except.bind]

theorem expandPieces_eq_ok_iff {ps : List Piece} {t : Text} :
    (x.operands names).expandPieces template ps = .ok t ↔
      ∃ parts, List.Forall₂ (Replaced names x) ps parts ∧ t = parts.flatten := by
  induction ps generalizing t with
  | nil => simp [Operands.expandPieces, eq_comm]
  | cons p ps ih =>
    simp only [expandPieces_cons_eq_ok_iff, expandPiece_eq_ok_iff, ih, List.forall₂_cons_left_iff]
    constructor
    · rintro ⟨first, _, hfirst, ⟨parts, hparts, rfl⟩, rfl⟩
      exact ⟨first :: parts, ⟨first, parts, hfirst, hparts, rfl⟩, rfl⟩
    · rintro ⟨_, ⟨first, parts, hfirst, hparts, rfl⟩, rfl⟩
      exact ⟨first, parts.flatten, hfirst, ⟨parts, hparts, rfl⟩, rfl⟩

/-- Expansion stops at the first placeholder without an operand. -/
theorem expandPieces_eq_error_iff {ps : List Piece} {f : Fault} :
    (x.operands names).expandPieces template ps = .error f ↔
      ∃ before w after, ps = before ++ .word w :: after ∧ (∀ v, .word v ∈ before → ¬ Dangling x v) ∧ Dangling x w ∧
        f = .noOperand w template := by
  induction ps with
  | nil => simp [Operands.expandPieces]
  | cons p ps ih =>
    rw [expandPieces_cons_eq_error_iff, exists_expandPiece_eq_ok_iff, ih, expandPiece_eq_error_iff]
    constructor
    · rintro (⟨w, rfl, hw, rfl⟩ | ⟨hp, before, w, after, rfl, hbefore, hw, rfl⟩)
      · exact ⟨[], w, ps, rfl, fun v hv => absurd hv List.not_mem_nil, hw, rfl⟩
      · refine ⟨p :: before, w, after, rfl, fun v hv => ?_, hw, rfl⟩
        obtain rfl | hv := List.mem_cons.mp hv
        · exact hp v rfl
        · exact hbefore v hv
    · rintro ⟨before, w, after, hps, hbefore, hw, rfl⟩
      cases before with
      | nil =>
        cases hps
        exact .inl ⟨w, rfl, hw, rfl⟩
      | cons q before =>
        cases hps
        refine .inr ⟨fun v hv => hbefore v (hv ▸ List.mem_cons_self ..), before, w, after, rfl, fun v hv => ?_, hw, rfl⟩
        exact hbefore v (List.mem_cons_of_mem _ hv)

theorem exists_expandPieces_eq_error_iff {ps : List Piece} :
    (∃ f, (x.operands names).expandPieces template ps = .error f) ↔ ∃ w, .word w ∈ ps ∧ Dangling x w := by
  induction ps with
  | nil => simp [Operands.expandPieces]
  | cons p ps ih =>
    simp only [expandPieces_cons_eq_error_iff, expandPiece_eq_error_iff, exists_or, exists_and_left, ih,
      exists_expandPiece_eq_ok_iff, List.mem_cons]
    constructor
    · rintro (⟨_, w, rfl, hw, -⟩ | ⟨-, w, hmem, hw⟩)
      · exact ⟨w, .inl rfl, hw⟩
      · exact ⟨w, .inr hmem, hw⟩
    · rintro ⟨w, hmem, hw⟩
      by_cases hp : ∀ v, p = .word v → ¬ Dangling x v
      · obtain rfl | hmem := hmem
        · exact absurd hw (hp w rfl)
        · exact .inr ⟨hp, w, hmem, hw⟩
      · simp only [not_forall, not_not] at hp
        obtain ⟨v, rfl, hv⟩ := hp
        exact .inl ⟨_, v, rfl, hv, rfl⟩

theorem expand_eq : (x.operands names).expand template = (x.operands names).expandPieces template (pieces template) :=
  Operands.expandFrom_eq_expandPieces ..

end Expansion

/-- For every template, all operands and every way of naming registers: there is exactly one way to cut the template
into longest runs of word bytes and the single bytes between them. The text of the instruction is what these pieces are
replaced by, in order, and there is none exactly if some run asks for an operand past the end of its list; the fault
then names the first such run. -/
theorem expansion_is_substitution (asm : Text) (dst src : List Temp) (jumps syms : List Label) (names : Temp → Text) :
    let x := Instr.oper asm dst src jumps syms
    ∃ ps, (∀ qs, IsCut qs asm ↔ qs = ps) ∧
      (∀ t, x.text names = .ok t ↔ ∃ parts, List.Forall₂ (Replaced names x) ps parts ∧ t = parts.flatten) ∧
      ((∃ f, x.text names = .error f) ↔ ∃ w, .word w ∈ ps ∧ Dangling x w) ∧
      ∀ f, x.text names = .error f → ∃ before w after, ps = before ++ .word w :: after ∧
        (∀ v, .word v ∈ before → ¬ Dangling x v) ∧ Dangling x w ∧ f = .noOperand w asm := by
  intro x
  have htext : x.text names = (x.operands names).expandPieces asm (pieces asm) := expand_eq
  refine ⟨pieces asm, fun qs => ⟨IsCut.eq_pieces, fun h => h ▸ isCut_pieces asm⟩, fun t => ?_, ?_, fun f hf => ?_⟩
  · rw [htext, expandPieces_eq_ok_iff]
  · rw [htext, exists_expandPieces_eq_error_iff]
  · exact expandPieces_eq_error_iff.mp (htext ▸ hf)

end Lowering
