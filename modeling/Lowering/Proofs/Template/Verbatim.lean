import Lowering.Proofs.Template.Printing
import Lowering.Proofs.Tiling.Refusals

/-!
# Emitted instructions are printed as they are laid out

Symbols never become part of a template. So whatever they are called, they come out as they are, the fixed text of the
template comes out around them, and nothing that is put in is taken for a placeholder. A listing of emitted code has one
entry for each instruction.
-/

namespace Lowering

namespace X86

/-- What an emitted instruction looks like in print, whatever its registers are called: a label with a colon behind it,
or as some layout says. -/
def Verbatim (x : Instr) : Prop :=
  (∃ l, x = .label (l ++ ":") l ∧ ∀ names, x.text names = .ok (l ++ ":")) ∨ ∃ layout, WrittenAs x layout

theorem Composed.verbatim {x : Instr} (h : Composed x) : Verbatim x := by
  cases h with
  | @form f dst src jumps syms hfits => exact .inr ⟨f.layout, writtenAs_form hfits⟩
  | copy d s => exact .inr ⟨copyLayout, writtenAs_copy d s⟩
  | label l => exact .inl ⟨l, rfl, fun _ => rfl⟩

end X86

/-! ### Emitted code -/

/-- Whatever frame the code is put into, the listing of the procedure is the prolog, the entries of all instructions in
order and the epilog. -/
def ListedInOrder (code : List Instr) : Prop :=
  ∀ frame : X86.Frame, ∃ texts,
    List.Forall₂ (fun x t => x.text X86.tempName = .ok t) (X86.Frame.withExit code) texts ∧
    Listing.procedure (frame.procedure (X86.Frame.withExit code)) =
      .ok (frame.prolog ++ (List.zipWith Listing.entry (X86.Frame.withExit code) texts).flatten ++ X86.Frame.epilog)

theorem listedInOrder {code : List Instr} (hcode : ∀ x ∈ code, x.Prints) : ListedInOrder code := by
  intro frame
  have hbody : ∀ x ∈ X86.Frame.withExit code, x.Prints :=
    List.forall_mem_append.mpr ⟨hcode, List.forall_mem_singleton.mpr (X86.prints_note _ _ _ _)⟩
  obtain ⟨texts, htexts⟩ := Listing.exists_texts hbody X86.tempName
  refine ⟨texts, htexts, ?_⟩
  rw [Listing.procedure, Listing.between]
  exact congrArg (· >>= _) (Listing.lines_eq htexts)

/-- Whenever a tree without holes is lowered, every instruction that is appended is printed as it is laid out, and the
code is listed in order. Labels and constants are arbitrary, and so is the relation of a branch. -/
theorem emitted_code_prints_verbatim :
    (∀ (s : Stm) (log log' : Log), s.whole = true → (X86.rules.tileStm s).run.run log = (.ok (), log') →
      ∃ code, log'.code = log.code ++ code ∧ (∀ x ∈ code, X86.Verbatim x) ∧ ListedInOrder code) ∧
    ∀ (e : Exp) (t : Temp) (log log' : Log), e.whole = true → (X86.rules.tileExp e).run.run log = (.ok t, log') →
      ∃ code, log'.code = log.code ++ code ∧ (∀ x ∈ code, X86.Verbatim x) ∧ ListedInOrder code := by
  constructor
  · intro s log log' hs hrun
    obtain ⟨code, hlowers, hcode⟩ := X86.lowers_of_tileStm hs hrun
    exact ⟨code, hcode, fun x hx => (hlowers.composed x hx).verbatim, listedInOrder hlowers.prints⟩
  · intro e t log log' he hrun
    obtain ⟨code, hlowers, hcode⟩ := X86.lowers_of_tileExp he hrun
    exact ⟨code, hcode, fun x hx => (hlowers.composed x hx).verbatim, listedInOrder hlowers.prints⟩

/-- Labels that read like placeholders, one without any bytes, and a relation outside the list. -/
theorem oddLabels_print_verbatim :
    let e : Exp := .call (.name "d1") [.name ""]
    let s : Stm := .seq (.label "s0") (.cjump (.other 99) e (.const (-5)) "j0" "l7")
    let log : Log := { session := { temps := 2 } }
    let frame : X86.Frame := { name := "l0" }
    let listing (code : List Instr) := (Listing.procedure (frame.procedure (X86.Frame.withExit code))).toOption
    let entries : Text := "\tmov t3, \n\tpush t3\n\tcall d1\n\tadd esp, 4\n\tmov t4, eax\n"
    let allEntries : Text := "s0:\n" ++ entries ++ "\tcmp t4, -5\n\t j0\n"
    (s.whole = true ∧ ∃ log', (X86.rules.tileStm s).run.run log = (.ok (), log') ∧
      (∀ x ∈ log'.code, X86.Verbatim x) ∧ ListedInOrder log'.code ∧
      listing log'.code = some (frame.prolog ++ allEntries ++ X86.Frame.epilog)) ∧
    e.whole = true ∧ ∃ t log', (X86.rules.tileExp e).run.run log = (.ok t, log') ∧
      (∀ x ∈ log'.code, X86.Verbatim x) ∧ ListedInOrder log'.code ∧
      listing log'.code = some (frame.prolog ++ entries ++ X86.Frame.epilog) := by
  intro e s log frame listing entries allEntries
  have hcall : X86.Lowers 2 [.exp e] _ _ 4 := .cons rfl (.cons rfl (.nil _) (.nil _)) (.nil _)
  constructor
  · obtain ⟨c, _, hlowers, hlisting⟩ : ∃ c regs, X86.Lowers 2 [.stm s] c regs 4 ∧
        listing c = some (frame.prolog ++ allEntries ++ X86.Frame.epilog) :=
      ⟨_, _, .cons rfl (.cons rfl (.nil _) (.cons rfl hcall (.nil _))) (.nil _), by decide +kernel⟩
    obtain ⟨journal, hrun⟩ := X86.tileStm_run hlowers log rfl
    obtain ⟨code, hcode, hverbatim, hlisted⟩ := emitted_code_prints_verbatim.1 s log _ (by decide) hrun
    obtain rfl : c = code := hcode
    exact ⟨by decide, _, hrun, hverbatim, hlisted, hlisting⟩
  · obtain ⟨c, _, hlowers, hlisting⟩ : ∃ c regs, X86.Lowers 2 [.exp e] c regs 4 ∧
        listing c = some (frame.prolog ++ entries ++ X86.Frame.epilog) := ⟨_, _, hcall, by decide +kernel⟩
    obtain ⟨t, -, hyields⟩ := X86.tileExp_run hlowers
    obtain ⟨journal, hrun⟩ := hyields log rfl
    obtain ⟨code, hcode, hverbatim, hlisted⟩ := emitted_code_prints_verbatim.2 e t log _ (by decide) hrun
    obtain rfl : c = code := hcode
    exact ⟨by decide, t, _, hrun, hverbatim, hlisted, hlisting⟩

end Lowering
