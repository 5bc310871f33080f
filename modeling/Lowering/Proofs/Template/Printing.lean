import Lowering.Proofs.Template.Layout
import Lowering.Proofs.Tiling.Derivation
import Lowering.Listing

/-!
# Emitted instructions can be printed

Every emitted instruction is a label or is written as a layout says, and there are operands for all placeholders of its
layout. So no emitted instruction meets a fault when it is printed, whatever its labels and constants are and however
registers are named.
-/

namespace Lowering

/-- The instruction has a text, however registers are named. -/
def Instr.Prints (x : Instr) : Prop := ∀ names, ∃ t, x.text names = .ok t

namespace X86

/-! ### Instructions with a layout -/

/-- The instruction is written as the layout says: its template has placeholders where the layout has operands and
nowhere else, there is an operand for each of them, and in print the operands stand there as they are. -/
structure WrittenAs (x : Instr) (layout : List Fragment) : Prop where
  template : layout.flatMap Fragment.template = x.asm
  plain : ∀ part ∈ layout, part.isOperand = false → Plain part.template
  operands : ∀ list n, .operand list n ∈ layout → n < x.count list
  text : ∀ names, x.text names = .ok (layout.flatMap (Fragment.print names x))
  visible : ∀ names, layout.flatMap (Fragment.print names x) ≠ []

theorem WrittenAs.of_sound {x : Instr} {layout : List Fragment}
    (hexpand : ∀ names, x.text names = (x.operands names).expand x.asm)
    (htemplate : layout.flatMap Fragment.template = x.asm) (hsound : Fragment.Sound layout)
    (hfits : layout.all (Fragment.fits x) = true) : WrittenAs x layout where
  template := htemplate
  plain := fun part hpart hoperand => Fragment.plain_template (List.all_eq_true.mp hsound.plain part hpart) hoperand
  operands := fun list n hmem => of_decide_eq_true (List.all_eq_true.mp hfits _ hmem)
  text := by
    intro names
    have h := Fragment.expandPieces_layout hsound.plain hsound.apart hfits names x.asm
    rwa [htemplate, ← expand_eq, ← hexpand] at h
  visible := fun names => Fragment.print_ne_nil hsound.text names x

theorem WrittenAs.prints {x : Instr} {layout : List Fragment} (h : WrittenAs x layout) : x.Prints :=
  fun names => ⟨_, h.text names⟩

/-- A form is written as its layout says if there are operands for the layout. -/
theorem writtenAs_form {f : Form} {dst src : List Temp} {jumps syms : List Label}
    (hfits : f.layout.all (Fragment.fits (.oper f.asm dst src jumps syms)) = true) :
    WrittenAs (.oper f.asm dst src jumps syms) f.layout :=
  .of_sound (fun _ => rfl) (layout_template f) (layout_sound f) hfits

/-- The layout of a copy. -/
def copyLayout : List Fragment := [.fixed "mov ", .operand .defs 0, .fixed ", ", .operand .uses 0]

theorem writtenAs_copy (d s : Temp) : WrittenAs (copy d s) copyLayout := by
  refine .of_sound (fun _ => rfl) ?_ ⟨rfl, rfl, rfl⟩ rfl
  simp only [copyLayout, List.flatMap_cons, List.flatMap_nil, Fragment.template, ofNat_of_lt (by decide : 0 < 10)]
  rfl

/-- A note has no text, so it can name any registers. -/
theorem prints_note (dst src : List Temp) (jumps syms : List Label) : (Instr.oper [] dst src jumps syms).Prints := by
  intro names
  refine ⟨[], ?_⟩
  rw [Instr.text, Operands.expand, Instr.asm, Operands.expandFrom]
  exact fun _ _ => Instr.noConfusion

/-! ### Blocks -/

/-- An instruction as blocks hold it: of some form, with operands that fit it, a copy or a label. -/
inductive Composed : Instr → Prop
  | form {f : Form} {dst src : List Temp} {jumps syms : List Label}
      (hfits : f.layout.all (Fragment.fits (.oper f.asm dst src jumps syms)) = true) :
      Composed (.oper f.asm dst src jumps syms)
  | copy (d s : Temp) : Composed (copy d s)
  | label (l : Label) : Composed (.label (l ++ ":") l)

theorem Composed.prints {x : Instr} (h : Composed x) : x.Prints := by
  cases h with
  | form hfits => exact (writtenAs_form hfits).prints
  | copy d s => exact (writtenAs_copy d s).prints
  | label l => exact fun _ => ⟨_, rfl⟩

theorem composed_push (v : Word ⊕ Temp) : Composed (push v) := by
  cases v with
  | inl i => exact .form rfl
  | inr t => exact .form rfl

theorem composed_callBlock {call : Instr} (hcall : Composed call) (args : List (Word ⊕ Temp)) (fresh : Temp) :
    ∀ x ∈ callBlock call args fresh, Composed x := by
  intro x hx
  simp only [callBlock, List.mem_append, List.mem_map, List.mem_singleton] at hx
  obtain ((⟨v, -, rfl⟩ | rfl) | hpop) | rfl := hx
  · exact composed_push v
  · exact hcall
  · split at hpop
    · obtain rfl := List.mem_singleton.mp hpop
      exact .form rfl
    · cases hpop
  · exact .copy fresh resultRegister

theorem Tile.composed (tile : Tile) (regs : List Temp) (fresh : Temp) : ∀ x ∈ tile.block regs fresh, Composed x := by
  have hnil : ∀ x ∈ ([] : List Instr), Composed x := List.forall_mem_nil _
  have hone {x : Instr} (hx : Composed x) : ∀ y ∈ [x], Composed y := List.forall_mem_singleton.mpr hx
  have htwo {x y : Instr} (hx : Composed x) (hy : Composed y) : ∀ z ∈ [x, y], Composed z :=
    List.forall_mem_cons.mpr ⟨hx, hone hy⟩
  cases tile with
  | setCopy dst src => exact hone (.copy dst _)
  | drop e => exact hnil
  | label l => exact hone (.label l)
  | seq first second => exact hnil
  | branchConst rel left i t f => exact htwo (.form rfl) (.form rfl)
  | branch rel left right t f => exact htwo (.form rfl) (.form rfl)
  | arithConst op left i => exact htwo (.copy _ _) (.form rfl)
  | arith op left right => exact htwo (.copy _ _) (.form rfl)
  | mul left right => exact htwo (.copy _ _) (.form rfl)
  | div left right =>
    refine List.forall_mem_cons.mpr ⟨.copy _ _, List.forall_mem_cons.mpr ⟨.form rfl, ?_⟩⟩
    exact htwo (.form rfl) (.copy _ _)
  | shiftConst op left i => exact htwo (.copy _ _) (.form rfl)
  | shift op left count => exact List.forall_mem_cons.mpr ⟨.copy _ _, htwo (.copy _ _) (.form rfl)⟩
  | temp reg => exact hnil
  | eseq s e => exact hnil
  | call func args => exact composed_callBlock (.form rfl) _ _
  | callReg func args => exact composed_callBlock (.form rfl) _ _
  | _ => exact hone (.form rfl)

/-- All emitted code is made of such instructions. -/
theorem Lowers.composed {n n' : Nat} {xs : List Subtree} {code : List Instr} {regs : List Temp}
    (h : Lowers n xs code regs n') : ∀ x ∈ code, Composed x := by
  induction h with
  | nil n => exact List.forall_mem_nil _
  | @cons n n₁ n₂ y rest tile code code' regs regs' _ _ _ ihparts ihrest =>
    intro x hx
    rw [List.mem_append, List.mem_append] at hx
    obtain (hx | hx) | hx := hx
    · exact ihparts x hx
    · exact tile.composed _ _ x hx
    · exact ihrest x hx

theorem Lowers.prints {n n' : Nat} {xs : List Subtree} {code : List Instr} {regs : List Temp}
    (h : Lowers n xs code regs n') : ∀ x ∈ code, x.Prints := fun x hx => (h.composed x hx).prints

end X86

/-! ### Listings -/

namespace Listing

/-- The entry of an instruction whose text is `t`. -/
def entry (x : Instr) (t : Text) : Text :=
  if t.isEmpty then []
  else
    match x with
    | .label .. => t ++ "\n"
    | _ => "\t" ++ t ++ "\n"

theorem line_eq {names : Temp → Text} {x : Instr} {t : Text} (ht : x.text names = .ok t) :
    x.line names = .ok (entry x t) := by
  rw [Instr.line, ht]
  unfold entry
  dsimp only [bind, Except.bind]
  split
  · rfl
  · cases x <;> rfl

theorem lines_eq {names : Temp → Text} {code : List Instr} {texts : List Text}
    (htexts : List.Forall₂ (fun x t => x.text names = .ok t) code texts) :
    lines names code = .ok (List.zipWith entry code texts).flatten := by
  induction htexts with
  | nil => rfl
  | cons ht _ ih =>
    rw [lines, line_eq ht, ih]
    rfl

theorem exists_texts {code : List Instr} (hcode : ∀ x ∈ code, x.Prints) (names : Temp → Text) :
    ∃ texts, List.Forall₂ (fun x t => x.text names = .ok t) code texts := by
  induction code with
  | nil => exact ⟨[], .nil⟩
  | cons x rest ih =>
    obtain ⟨hx, hrest⟩ := List.forall_mem_cons.mp hcode
    obtain ⟨t, ht⟩ := hx names
    obtain ⟨texts, htexts⟩ := ih hrest
    exact ⟨t :: texts, .cons ht htexts⟩

theorem lines_ok {code : List Instr} (hcode : ∀ x ∈ code, x.Prints) (names : Temp → Text) :
    ∃ t, lines names code = .ok t := by
  obtain ⟨texts, htexts⟩ := exists_texts hcode names
  exact ⟨_, lines_eq htexts⟩

theorem procedures_ok {ps : List X86.Procedure} (hps : ∀ p ∈ ps, ∀ x ∈ p.body, x.Prints) :
    ∃ t, procedures ps = .ok t := by
  have hone {p : X86.Procedure} (hp : ∀ x ∈ p.body, x.Prints) : ∃ t, procedure p = .ok t := by
    obtain ⟨body, hbody⟩ := lines_ok hp X86.tempName
    exact ⟨p.prolog ++ body ++ p.epilog, by rw [procedure, between, hbody]; rfl⟩
  induction ps with
  | nil => exact ⟨[], rfl⟩
  | cons p rest ih =>
    obtain ⟨hp, hrest⟩ := List.forall_mem_cons.mp hps
    obtain ⟨t, ht⟩ := hone hp
    cases rest with
    | nil => exact ⟨t, ht⟩
    | cons q rest =>
      obtain ⟨tail, htail⟩ := ih hrest
      exact ⟨t ++ "\n" ++ tail, by rw [procedures, ht, htail]; rfl; exact List.cons_ne_nil q rest⟩

end Listing

end Lowering
