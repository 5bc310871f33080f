import Lowering.Proofs.Template.Substitution
import Lowering.Proofs.Template.Tokens

/-!
# Layouts of the target's templates

A layout says where the operands of a template stand between its fixed text. Its template is the text with placeholders
for the operands, and its print has the operands themselves. If placeholders stand apart from words and no fixed word
reads like one, then expanding the template gives the print. `Form.layout` has the layouts of all forms; that they are
of this kind is checked by computation, since numbers and displacements behave alike whatever they are.
-/

namespace Lowering

/-! ### Texts without placeholders -/

/-- No word of the text is a placeholder. -/
def Plain (t : Text) : Prop := ∀ w, .word w ∈ pieces t → ∀ list n, ¬ IsPlaceholder w list n

/-- Is it clear from its tail that the piece is no placeholder? -/
def Piece.isPlain : Piece → Bool
  | .byte _ => true
  | .word w => !(!w.tail.isEmpty && w.tail.all Text.isDigit)

theorem plain_of_isPlain {t : Text} (h : (pieces t).all Piece.isPlain = true) : Plain t := by
  intro w hw list n hplaceholder
  have htail : (!w.tail.isEmpty && w.tail.all Text.isDigit) = false :=
    (Bool.not_eq_true' _).mp (List.all_eq_true.mp h _ hw)
  obtain ⟨digits, rfl, hdigits, -⟩ := isPlaceholder_iff.mp hplaceholder
  exact Bool.noConfusion (hdigits.symm.trans htail)

theorem Plain.cons_byte {b : UInt8} (hb : isTemplateWord b = false) {t : Text} (ht : Plain t) : Plain (b :: t) := by
  intro w hw
  rw [pieces_byte hb] at hw
  obtain hw | hw := List.mem_cons.mp hw
  · cases hw
  · exact ht w hw

theorem plain_ofNat (n : Nat) : Plain (Text.ofNat n) := by
  have hpieces : pieces (Text.ofNat n ++ []) = [.word (Text.ofNat n)] := pieces_ofNat n rfl
  rw [List.append_nil] at hpieces
  intro w hw list k hplaceholder
  rw [hpieces, List.mem_singleton] at hw
  cases hw
  obtain ⟨digits, hcons, -⟩ := hplaceholder
  have hletter : Text.isDigit list.letter = false := by cases list <;> rfl
  exact Text.ofNat_ne_cons hletter n digits hcons

theorem plain_ofInt (v : Int) : Plain (Text.ofInt v) := by
  cases v with
  | ofNat n => exact plain_ofNat n
  | negSucc n => exact (plain_ofNat (n + 1)).cons_byte rfl

theorem plain_dispText (i : Word) : Plain (X86.dispText i) := by
  have hsigned {b : UInt8} (hb : isTemplateWord b = false) (v : Int) : Plain (32 :: b :: 32 :: Text.ofInt v) :=
    (((plain_ofInt v).cons_byte rfl).cons_byte hb).cons_byte rfl
  rw [X86.dispText]
  split
  · exact hsigned rfl _
  · split
    · exact hsigned rfl _
    · intro w hw
      cases hw

/-- A text without placeholders expands to itself. -/
theorem Plain.expandPieces {t : Text} (ht : Plain t) (names : Temp → Text) (x : Instr) (template : Text) :
    (x.operands names).expandPieces template (pieces t) = .ok t := by
  have hreplaced : ∀ p ∈ pieces t, Replaced names x p p.text := by
    intro p hp
    cases p with
    | byte b => exact .byte b
    | word w => exact .word (ht w hp)
  refine expandPieces_eq_ok_iff.mpr ⟨(pieces t).map Piece.text, ?_, ?_⟩
  · rw [List.forall₂_map_right_iff, List.forall₂_same]
    exact hreplaced
  · rw [← List.flatMap_def, (isCut_pieces t).text]

/-! ### Texts side by side -/

/-- Does the text end with a byte of a word? -/
def endsWithWord : Text → Bool
  | [] => false
  | [b] => isTemplateWord b
  | _ :: c :: rest => endsWithWord (c :: rest)

theorem consWord_append (b : UInt8) {ps : List Piece} (hps : ps ≠ []) (qs : List Piece) :
    Piece.consWord b (ps ++ qs) = Piece.consWord b ps ++ qs := by
  cases ps with
  | nil => exact absurd rfl hps
  | cons p ps => cases p <;> rfl

theorem pieces_ne_nil (b : UInt8) (t : Text) : pieces (b :: t) ≠ [] := by
  intro h
  have := (isCut_pieces (b :: t)).text
  rw [h] at this
  cases this

/-- No word reaches across the border between two texts if there is no word on one side of it. -/
theorem pieces_append {t u : Text} (h : endsWithWord t = false ∨ goesOnWithWord u = false) :
    pieces (t ++ u) = pieces t ++ pieces u := by
  induction t with
  | nil => rfl
  | cons b t ih =>
    cases t with
    | nil =>
      by_cases hb : isTemplateWord b = true
      · have hu : goesOnWithWord u = false := h.resolve_left (by rw [endsWithWord, hb]; exact Bool.noConfusion)
        have hone : pieces [b] = [.word [b]] := if_pos hb
        rw [hone]
        exact pieces_word (List.cons_ne_nil b []) (List.forall_mem_singleton.mpr hb) hu
      · have hbyte := pieces_byte (Bool.eq_false_iff.mpr hb)
        exact (hbyte u).trans (congrArg (· ++ pieces u) (hbyte []).symm)
    | cons c t =>
      rw [List.cons_append, pieces, pieces, ih h]
      split
      · exact consWord_append b (pieces_ne_nil c t) _
      · rfl

theorem expandPieces_append {names : Temp → Text} {x : Instr} {template : Text} {ps qs : List Piece} {t u : Text}
    (ht : (x.operands names).expandPieces template ps = .ok t)
    (hu : (x.operands names).expandPieces template qs = .ok u) :
    (x.operands names).expandPieces template (ps ++ qs) = .ok (t ++ u) := by
  rw [expandPieces_eq_ok_iff] at ht hu ⊢
  obtain ⟨parts, hparts, rfl⟩ := ht
  obtain ⟨parts', hparts', rfl⟩ := hu
  exact ⟨parts ++ parts', List.rel_append hparts hparts', List.flatten_append.symm⟩

namespace X86

/-! ### Layouts -/

/-- A part of a layout. -/
inductive Fragment where
  | fixed (t : Text)
  /-- A constant, signed. -/
  | number (v : Int)
  /-- What is added to the address in a register. -/
  | displacement (i : Word)
  | operand (list : OperandList) (n : Nat)

namespace Fragment

/-- The part as it stands in the template. -/
def template : Fragment → Text
  | .fixed t => t
  | .number v => Text.ofInt v
  | .displacement i => dispText i
  | .operand list n => list.letter :: Text.ofNat n

/-- The part in print. -/
def print (names : Temp → Text) (x : Instr) : Fragment → Text
  | .fixed t => t
  | .number v => Text.ofInt v
  | .displacement i => dispText i
  | .operand list n => (x.printed names list).getD n []

def isOperand : Fragment → Bool
  | .operand .. => true
  | _ => false

/-- Is there an operand for the part, if it asks for one? -/
def fits (x : Instr) : Fragment → Bool
  | .operand list n => n < x.count list
  | _ => true

/-- Has the fixed text no words that read like placeholders? -/
def isPlain : Fragment → Bool
  | .fixed t => (pieces t).all Piece.isPlain
  | _ => true

/-- Is the part some fixed text? -/
def isText : Fragment → Bool
  | .fixed (_ :: _) => true
  | _ => false

/-- May the layout begin with a byte of a word? -/
def beginWithWord : List Fragment → Bool
  | [] => false
  | .fixed [] :: rest => beginWithWord rest
  | .fixed (b :: _) :: _ => isTemplateWord b
  | .displacement _ :: rest => beginWithWord rest
  | .number _ :: _ => true
  | .operand .. :: _ => true

/-- May a word follow the part? -/
def mayTouch : Fragment → Bool
  | .fixed t => !endsWithWord t
  | _ => false

/-- Does no word reach from one part into the next? -/
def apart : List Fragment → Bool
  | [] => true
  | s :: rest => (s.mayTouch || !beginWithWord rest) && apart rest

/-- The placeholders of the layout's template are its operands, and not all of its text is operands. -/
structure Sound (layout : List Fragment) : Prop where
  plain : layout.all isPlain = true
  apart : apart layout = true
  text : layout.any isText = true

theorem goesOnWithWord_template {layout : List Fragment} (h : beginWithWord layout = false) :
    goesOnWithWord (layout.flatMap template) = false := by
  fun_induction beginWithWord layout with
  | case1 => rfl
  | case2 rest ih => exact ih h
  | case3 b t rest => exact h
  | case4 i rest ih => exact goesOnWithWord_dispText i (ih h)
  | case5 => cases h
  | case6 => cases h

theorem plain_template {s : Fragment} (hplain : s.isPlain = true) (hoperand : s.isOperand = false) :
    Plain s.template := by
  cases s with
  | fixed t => exact plain_of_isPlain hplain
  | number v => exact plain_ofInt v
  | displacement i => exact plain_dispText i
  | operand list n => cases hoperand

theorem isPlaceholder_ofNat (list : OperandList) (n : Nat) : IsPlaceholder (list.letter :: Text.ofNat n) list n := by
  refine isPlaceholder_iff.mpr ⟨Text.ofNat n, rfl, ?_, (Text.digitsValue_ofNat n).symm⟩
  simpa using ⟨Text.ofNat_ne_nil n, Text.isDigit_of_mem_ofNat n⟩

theorem pieces_placeholder (list : OperandList) (n : Nat) :
    pieces (list.letter :: Text.ofNat n) = [.word (list.letter :: Text.ofNat n)] := by
  have hletter : isTemplateWord list.letter = true := by cases list <;> rfl
  have hword : ∀ b ∈ list.letter :: Text.ofNat n, isTemplateWord b = true :=
    List.forall_mem_cons.mpr
      ⟨hletter, fun b hb => Text.isTemplateWord_of_isDigit (Text.isDigit_of_mem_ofNat n b hb)⟩
  have h : pieces (list.letter :: Text.ofNat n ++ []) = [.word (list.letter :: Text.ofNat n)] :=
    pieces_word (List.cons_ne_nil _ _) hword rfl
  rwa [List.append_nil] at h

theorem expandPieces_template {s : Fragment} {x : Instr} (hplain : s.isPlain = true) (hfits : s.fits x = true)
    (names : Temp → Text) (template : Text) :
    (x.operands names).expandPieces template (pieces s.template) = .ok (s.print names x) := by
  by_cases hoperand : s.isOperand = false
  · have hprint : s.print names x = s.template := by
      cases s with
      | operand list n => cases hoperand
      | _ => rfl
    rw [hprint]
    exact (plain_template hplain hoperand).expandPieces names x template
  · cases s with
    | operand list n =>
      have hn : n < (x.printed names list).length := by
        rw [x.length_printed]
        exact of_decide_eq_true hfits
      have hget : (x.printed names list)[n]? = some ((x.printed names list).getD n []) := by
        rw [List.getD_eq_getElem?_getD, List.getElem?_eq_getElem hn, Option.getD_some]
      refine expandPieces_eq_ok_iff.mpr ⟨[_], ?_, (List.flatten_singleton).symm⟩
      rw [Fragment.template, pieces_placeholder]
      exact .cons (.operand (isPlaceholder_ofNat list n) hget) .nil
    | _ => exact absurd rfl hoperand

/-- Expanding the template of a layout gives its print. -/
theorem expandPieces_layout {layout : List Fragment} {x : Instr} (hplain : layout.all isPlain = true)
    (hapart : apart layout = true) (hfits : layout.all (fits x) = true) (names : Temp → Text) (t : Text) :
    (x.operands names).expandPieces t (pieces (layout.flatMap template)) = .ok (layout.flatMap (print names x)) := by
  induction layout with
  | nil => rfl
  | cons s rest ih =>
    rw [List.all_cons, Bool.and_eq_true] at hplain hfits
    rw [apart, Bool.and_eq_true, Bool.or_eq_true] at hapart
    have hborder : endsWithWord s.template = false ∨ goesOnWithWord (rest.flatMap template) = false := by
      obtain hs | hrest := hapart.1
      · cases s with
        | fixed t => exact .inl (Bool.not_eq_true' _ ▸ hs)
        | _ => cases hs
      · exact .inr (goesOnWithWord_template (Bool.not_eq_true' _ ▸ hrest))
    rw [List.flatMap_cons, List.flatMap_cons, pieces_append hborder]
    exact expandPieces_append (expandPieces_template hplain.1 hfits.1 names t) (ih hplain.2 hapart.2 hfits.2)

theorem print_ne_nil {layout : List Fragment} (htext : layout.any isText = true) (names : Temp → Text) (x : Instr) :
    layout.flatMap (print names x) ≠ [] := by
  intro hnil
  obtain ⟨part, hpart, hpartText⟩ := List.any_eq_true.mp htext
  have hempty := List.flatMap_eq_nil_iff.mp hnil part hpart
  cases part with
  | fixed t =>
    cases t with
    | nil => cases hpartText
    | cons b t => cases hempty
  | _ => cases hpartText

end Fragment

/-! ### Forms -/

/-- The layout of a form. -/
def Form.layout : Form → List Fragment
  | .loadConst i => [.fixed "mov ", .operand .defs 0, .fixed ", ", .number i.toInt]
  | .loadSymbol => [.fixed "mov ", .operand .defs 0, .fixed ", ", .operand .syms 0]
  | .load disp => [.fixed "mov ", .operand .defs 0, .fixed ", [", .operand .uses 0, .displacement disp, .fixed "]"]
  | .loadAt addr => [.fixed "mov ", .operand .defs 0, .fixed ", [", .number addr.toInt, .fixed "]"]
  | .store disp => [.fixed "mov [", .operand .uses 0, .displacement disp, .fixed "], ", .operand .uses 1]
  | .storeConst disp value =>
    [.fixed "mov dword [", .operand .uses 0, .displacement disp, .fixed "], ", .number value.toInt]
  | .storeAt addr => [.fixed "mov [", .number addr.toInt, .fixed "], ", .operand .uses 0]
  | .arith op => [.fixed op.mnemonic, .fixed " ", .operand .defs 0, .fixed ", ", .operand .uses 1]
  | .arithConst op i => [.fixed op.mnemonic, .fixed " ", .operand .defs 0, .fixed ", ", .number i.toInt]
  | .mul => [.fixed "imul ", .operand .defs 0, .fixed ", ", .operand .uses 1]
  | .mulConst i => [.fixed "imul ", .operand .defs 0, .fixed ", ", .operand .uses 0, .fixed ", ", .number i.toInt]
  | .signExtend => [.fixed "cdq"]
  | .div => [.fixed "idiv ", .operand .uses 0]
  | .shift op => [.fixed op.mnemonic, .fixed " ", .operand .defs 0, .fixed ", cl"]
  | .shiftConst op count => [.fixed op.mnemonic, .fixed " ", .operand .defs 0, .fixed ", ", .number count.toInt]
  | .cmp => [.fixed "cmp ", .operand .uses 0, .fixed ", ", .operand .uses 1]
  | .cmpConst i => [.fixed "cmp ", .operand .uses 0, .fixed ", ", .number i.toInt]
  | .branch rel => [.fixed (branchMnemonic rel), .fixed " ", .operand .jumps 0]
  | .jump => [.fixed "jmp ", .operand .jumps 0]
  | .jumpReg => [.fixed "jmp ", .operand .uses 0]
  | .push => [.fixed "push ", .operand .uses 0]
  | .pushConst i => [.fixed "push dword ", .number i.toInt]
  | .call => [.fixed "call ", .operand .syms 0]
  | .callReg => [.fixed "call ", .operand .uses 0]
  | .pop bytes => [.fixed "add esp, ", .number bytes]

theorem layout_sound (f : Form) : Fragment.Sound f.layout := by
  cases f with
  | arith op => cases op <;> exact ⟨rfl, rfl, rfl⟩
  | arithConst op i => cases op <;> exact ⟨rfl, rfl, rfl⟩
  | shift op => cases op <;> exact ⟨rfl, rfl, rfl⟩
  | shiftConst op count => cases op <;> exact ⟨rfl, rfl, rfl⟩
  | branch rel => cases rel <;> exact ⟨rfl, rfl, rfl⟩
  | _ => exact ⟨rfl, rfl, rfl⟩

theorem ofNat_of_lt {n : Nat} (hn : n < 10) : Text.ofNat n = [Text.digit n] := by
  rw [Text.ofNat, if_pos hn]

theorem layout_template (f : Form) : f.layout.flatMap Fragment.template = f.asm := by
  have hzero := ofNat_of_lt (n := 0) (by decide)
  have hone := ofNat_of_lt (n := 1) (by decide)
  cases f <;>
    simp only [Form.layout, List.flatMap_cons, List.flatMap_nil, Fragment.template, hzero, hone, List.append_nil,
      Form.asm, List.append_assoc] <;>
    rfl

end X86

end Lowering
