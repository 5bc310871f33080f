import Lowering.Proofs.Operands.Writes
import Lowering.Proofs.Reading.Data
import Lowering.Proofs.Tiling.Refusals

/-!
# Trees as data

The text of a tree is the text of a datum. The datum can be read back if labels are names, operators and relations are
listed and registers have numbers that fit their names; different registers then have different names.
-/

namespace Lowering

open SExpr

mutual

/-- A tree as a datum. -/
def Stm.datum : Stm → Datum
  | .hole => .atom "<nil>"
  | .move dst src => .list [.atom "move", dst.datum, src.datum]
  | .exp e => .list [.atom "exp", e.datum]
  | .label l => .list [.atom "label", .atom l]
  | .seq first second => .list [.atom "seq", first.datum, second.datum]
  | .jump target labels => .list (.atom "jump" :: target.datum :: labels.map .atom)
  | .cjump rel left right t f => .list [.atom "cjump", .atom rel.text, left.datum, right.datum, .atom t, .atom f]

@[inherit_doc Stm.datum]
def Exp.datum : Exp → Datum
  | .hole => .atom "<nil>"
  | .const v => .list [.atom "const", .int v.toInt]
  | .temp t => .list [.atom "temp", .atom t.text]
  | .bin op left right => .list [.atom op.text, left.datum, right.datum]
  | .mem addr => .list [.atom "mem", addr.datum]
  | .call func args => .list (.atom "call" :: func.datum :: Exp.data args)
  | .name l => .list [.atom "name", .atom l]
  | .eseq s e => .list [.atom "eseq", s.datum, e.datum]

@[inherit_doc Stm.datum]
def Exp.data : List Exp → List Datum
  | [] => []
  | e :: es => e.datum :: Exp.data es

end

theorem Datum.texts_atoms (ls : List Text) : Datum.texts (ls.map .atom) = ls := by
  induction ls with
  | nil => rfl
  | cons l rest ih => rw [List.map_cons, Datum.texts, ih, Datum.text]

mutual

theorem Stm.text_datum : (s : Stm) → s.datum.text = s.text
  | .hole => by rw [Stm.datum, Stm.text, Datum.text]
  | .move dst src => by
    simp only [Stm.datum, Stm.text, Datum.text, Datum.texts, formText, Exp.text_datum dst, Exp.text_datum src]
  | .exp e => by simp only [Stm.datum, Stm.text, Datum.text, Datum.texts, formText, Exp.text_datum e]
  | .label l => by simp only [Stm.datum, Stm.text, Datum.text, Datum.texts, formText]
  | .seq first second => by
    simp only [Stm.datum, Stm.text, Datum.text, Datum.texts, formText, Stm.text_datum first, Stm.text_datum second]
  | .jump target labels => by
    simp only [Stm.datum, Stm.text, Datum.text, Datum.texts, formText, Exp.text_datum target, Datum.texts_atoms]
  | .cjump rel left right t f => by
    simp only [Stm.datum, Stm.text, Datum.text, Datum.texts, formText, Exp.text_datum left, Exp.text_datum right]

theorem Exp.text_datum : (e : Exp) → e.datum.text = e.text
  | .hole => by rw [Exp.datum, Exp.text, Datum.text]
  | .const v => by simp only [Exp.datum, Exp.text, Datum.text, Datum.texts, formText]
  | .temp t => by simp only [Exp.datum, Exp.text, Datum.text, Datum.texts, formText]
  | .bin op left right => by
    simp only [Exp.datum, Exp.text, Datum.text, Datum.texts, formText, Exp.text_datum left, Exp.text_datum right]
  | .mem addr => by simp only [Exp.datum, Exp.text, Datum.text, Datum.texts, formText, Exp.text_datum addr]
  | .call func args => by
    simp only [Exp.datum, Exp.text, Datum.text, Datum.texts, formText, Exp.text_datum func, Exp.texts_data args]
  | .name l => by simp only [Exp.datum, Exp.text, Datum.text, Datum.texts, formText]
  | .eseq s e => by
    simp only [Exp.datum, Exp.text, Datum.text, Datum.texts, formText, Stm.text_datum s, Exp.text_datum e]

theorem Exp.texts_data : (es : List Exp) → Datum.texts (Exp.data es) = Exp.texts es
  | [] => rfl
  | e :: es => by rw [Exp.data, Datum.texts, Exp.texts, Exp.text_datum e, Exp.texts_data es]

end

/-! ### Registers -/

/-- Does the number of the register fit its name? -/
def Temp.Named (t : Temp) : Prop := -256 < t.id

namespace Temp

theorem isName_of_digits {b : UInt8} (hb : isWordByte b = true) (hint : b ≠ 45) (hdigit : Text.isDigit b = false)
    (n : Nat) : isName (b :: Text.ofNat n) = true := by
  have hword : (b :: Text.ofNat n).all isWordByte = true := by
    rw [List.all_cons, hb, Bool.true_and]
    exact (ofInt_word n).2.1
  refine isName_iff.mpr ⟨List.cons_ne_nil _ _, hword, ?_⟩
  rw [startsLikeInt_cons, if_neg hint, hdigit]
  intro h
  cases h

theorem text_of_fixed {t : Temp} (ht : t.id < 0) (hnamed : t.Named) : t.text = 114 :: Text.ofNat (-t.id).toNat := by
  have hnumber : (UInt8.ofInt (-t.id)).toNat = (-t.id).toNat := by
    rw [Named] at hnamed
    show (UInt8.ofNat (-t.id % 256).toNat).toNat = _
    rw [Int.emod_eq_of_lt (by omega) (by omega)]
    exact Nat.mod_eq_of_lt (show (-t.id).toNat < 256 by omega)
  rw [text, reg?, isFixed, decide_eq_true ht, if_pos rfl]
  show 114 :: Text.ofNat (UInt8.ofInt (-t.id)).toNat = _
  rw [hnumber]

theorem text_of_virtual {t : Temp} (ht : 0 ≤ t.id) : t.text = 116 :: Text.ofNat t.id.toNat := by
  obtain ⟨n, hn⟩ := Int.eq_ofNat_of_zero_le ht
  rw [text, reg?, isFixed, decide_eq_false (by omega), if_neg Bool.false_ne_true, hn]
  rfl

theorem isName_text {t : Temp} (ht : t.Named) : isName t.text = true := by
  by_cases hfixed : t.id < 0
  · rw [text_of_fixed hfixed ht]
    exact isName_of_digits (by decide) (by decide) (by decide) _
  · rw [text_of_virtual (by omega)]
    exact isName_of_digits (by decide) (by decide) (by decide) _

/-- Registers go by different names. -/
theorem eq_of_text_eq {t u : Temp} (ht : t.Named) (hu : u.Named) (h : t.text = u.text) : t = u := by
  have hnumber {a b : Nat} (hab : Text.ofNat a = Text.ofNat b) : a = b := by
    rw [← Text.digitsValue_ofNat a, hab, Text.digitsValue_ofNat]
  obtain ⟨a⟩ := t
  obtain ⟨b⟩ := u
  by_cases ha : a < 0
  · rw [text_of_fixed ha ht] at h
    by_cases hb : b < 0
    · rw [text_of_fixed hb hu] at h
      have := hnumber (List.cons.inj h).2
      exact congrArg Temp.mk (by dsimp only at this; omega)
    · rw [text_of_virtual (show 0 ≤ b by omega)] at h
      exact absurd (List.cons.inj h).1 (by decide)
  · rw [text_of_virtual (show 0 ≤ a by omega)] at h
    by_cases hb : b < 0
    · rw [text_of_fixed hb hu] at h
      exact absurd (List.cons.inj h).1 (by decide)
    · rw [text_of_virtual (show 0 ≤ b by omega)] at h
      have := hnumber (List.cons.inj h).2
      exact congrArg Temp.mk (by dsimp only at this; omega)

end Temp

/-! ### Trees that can be read back -/

mutual

/-- Can the tree be told from its text? Nothing is missing from it but, at most, all of it or statements of sequence
expressions. -/
def Stm.Printable : Stm → Prop
  | .hole => True
  | .move dst src => dst.isPlace = true ∧ dst.Printable ∧ src.Printable
  | .exp e => e.Printable
  | .label l => isName l = true
  | .seq first second => first ≠ .hole ∧ second ≠ .hole ∧ first.Printable ∧ second.Printable
  | .jump target labels => target.Printable ∧ labels ≠ [] ∧ ∀ l ∈ labels, isName l = true
  | .cjump rel left right t f =>
    rel ∈ Rel.listed ∧ left.Printable ∧ right.Printable ∧ isName t = true ∧ isName f = true

@[inherit_doc Stm.Printable]
def Exp.Printable : Exp → Prop
  | .hole => False
  | .const _ => True
  | .temp t => t.Named
  | .bin op left right => op ∈ Op.listed ∧ left.Printable ∧ right.Printable
  | .mem addr => addr.Printable
  | .call func args => func.Printable ∧ Exp.PrintableAll args
  | .name l => isName l = true
  | .eseq s e => s.Printable ∧ e.Printable

@[inherit_doc Stm.Printable]
def Exp.PrintableAll : List Exp → Prop
  | [] => True
  | e :: es => e.Printable ∧ Exp.PrintableAll es

end

theorem isName_op {op : Op} (hop : op ∈ Op.listed) : isName op.text = true := by
  revert op
  decide

theorem isName_rel {rel : Rel} (hrel : rel ∈ Rel.listed) : isName rel.text = true := by
  revert rel
  decide

theorem Datum.readableAll_atoms {ls : List Text} (hls : ∀ l ∈ ls, isName l = true) :
    Datum.readableAll (ls.map .atom) = true := by
  induction ls with
  | nil => rfl
  | cons l rest ih =>
    obtain ⟨hl, hrest⟩ := List.forall_mem_cons.mp hls
    exact Bool.and_eq_true_iff.mpr ⟨hl, ih hrest⟩

theorem Datum.readable_form {head : Text} (hhead : isName head = true) {parts : List Datum}
    (hparts : Datum.readableAll parts = true) : (Datum.list (.atom head :: parts)).readable = true :=
  Bool.and_eq_true_iff.mpr ⟨hhead, hparts⟩

theorem Datum.readableAll_pair {a b : Datum} (ha : a.readable = true) (hb : b.readable = true) :
    Datum.readableAll [a, b] = true := by
  rw [Datum.readableAll, Datum.readableAll, Datum.readableAll, ha, hb]
  rfl

theorem Datum.readableAll_one {a : Datum} (ha : a.readable = true) : Datum.readableAll [a] = true := by
  rw [Datum.readableAll, Datum.readableAll, ha]
  rfl

mutual

theorem Stm.readable_datum : (s : Stm) → s.Printable → s.datum.readable = true
  | .hole, _ => by decide
  | .move dst src, ⟨_, hdst, hsrc⟩ => by
    rw [Stm.datum]
    exact Datum.readable_form (by decide)
      (Datum.readableAll_pair (Exp.readable_datum dst hdst) (Exp.readable_datum src hsrc))
  | .exp e, he => by
    rw [Stm.datum]
    exact Datum.readable_form (by decide) (Datum.readableAll_one (Exp.readable_datum e he))
  | .label l, hl => by
    rw [Stm.datum]
    exact Datum.readable_form (by decide) (Datum.readableAll_one hl)
  | .seq first second, ⟨_, _, hfirst, hsecond⟩ => by
    rw [Stm.datum]
    exact Datum.readable_form (by decide)
      (Datum.readableAll_pair (Stm.readable_datum first hfirst) (Stm.readable_datum second hsecond))
  | .jump target labels, ⟨htarget, _, hlabels⟩ => by
    rw [Stm.datum]
    refine Datum.readable_form (by decide) ?_
    rw [Datum.readableAll, Exp.readable_datum target htarget]
    exact Datum.readableAll_atoms hlabels
  | .cjump rel left right t f, ⟨hrel, hleft, hright, ht, hf⟩ => by
    rw [Stm.datum]
    refine Datum.readable_form (by decide) ?_
    rw [Datum.readableAll, Datum.readableAll, Datum.readableAll, Exp.readable_datum left hleft,
      Exp.readable_datum right hright]
    rw [show (Datum.atom rel.text).readable = true from isName_rel hrel]
    exact Datum.readableAll_pair ht hf

theorem Exp.readable_datum : (e : Exp) → e.Printable → e.datum.readable = true
  | .const v, _ => by
    have hlow := BitVec.le_toInt v
    have hhigh := BitVec.toInt_lt (x := v)
    have hint : (Datum.int v.toInt).readable = true := by
      refine Bool.and_eq_true_iff.mpr ⟨decide_eq_true ?_, decide_eq_true ?_⟩
      · exact Int.le_trans (by decide) hlow
      · exact Int.lt_trans hhigh (by decide)
    rw [Exp.datum]
    exact Datum.readable_form (by decide) (Datum.readableAll_one hint)
  | .temp t, ht => by
    rw [Exp.datum]
    exact Datum.readable_form (by decide) (Datum.readableAll_one (Temp.isName_text ht))
  | .bin op left right, ⟨hop, hleft, hright⟩ => by
    rw [Exp.datum]
    exact Datum.readable_form (isName_op hop)
      (Datum.readableAll_pair (Exp.readable_datum left hleft) (Exp.readable_datum right hright))
  | .mem addr, haddr => by
    rw [Exp.datum]
    exact Datum.readable_form (by decide) (Datum.readableAll_one (Exp.readable_datum addr haddr))
  | .call func args, ⟨hfunc, hargs⟩ => by
    rw [Exp.datum]
    refine Datum.readable_form (by decide) ?_
    rw [Datum.readableAll, Exp.readable_datum func hfunc]
    exact Exp.readable_data args hargs
  | .name l, hl => by
    rw [Exp.datum]
    exact Datum.readable_form (by decide) (Datum.readableAll_one hl)
  | .eseq s e, ⟨hs, he⟩ => by
    rw [Exp.datum]
    exact Datum.readable_form (by decide) (Datum.readableAll_pair (Stm.readable_datum s hs) (Exp.readable_datum e he))

theorem Exp.readable_data : (es : List Exp) → Exp.PrintableAll es → Datum.readableAll (Exp.data es) = true
  | [], _ => rfl
  | e :: es, ⟨he, hes⟩ => by
    rw [Exp.data, Datum.readableAll, Exp.readable_datum e he]
    exact Exp.readable_data es hes

end

end Lowering
