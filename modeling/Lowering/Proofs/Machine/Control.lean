import Lowering.Proofs.Machine.Execution

/-!
# Control

Code with labels runs by positions. An instruction hands control to the next position or to a definition of the
label it jumps to. A path is a run from one position to another; it carries a condition on the positions whose
instructions it executes, so that one can speak of runs that stay inside a piece of code.
-/

namespace Lowering.X86

/-- A position of the code and the machine there. -/
abbrev Config := Nat × Machine

/-- The label is defined at a position. -/
def DefinedAt (code : List Instr) (l : Label) (pc : Nat) : Prop := ∃ asm, code[pc]? = some (.label asm l)

/-- One instruction is executed. -/
inductive Step (w : World) (code : List Instr) : Config → Config → Prop where
  | next {pc : Nat} {m m' : Machine} {x : Instr} (hx : code[pc]? = some x) (hexec : exec? w x m = some (.next m')) :
    Step w code (pc, m) (pc + 1, m')
  | goto {pc k : Nat} {m : Machine} {x : Instr} {l : Label} (hx : code[pc]? = some x)
    (hexec : exec? w x m = some (.goto l)) (hk : DefinedAt code l k) : Step w code (pc, m) (k, m)

/-- A run all of whose instructions stand where `inside` holds. -/
inductive Path (w : World) (code : List Instr) (inside : Nat → Prop) : Config → Config → Prop where
  | refl (c : Config) : Path w code inside c c
  | step {c c' c'' : Config} (hinside : inside c.1) (hstep : Step w code c c') (hpath : Path w code inside c' c'') :
    Path w code inside c c''

namespace Path

variable {w : World} {code : List Instr} {inside inside' : Nat → Prop} {c c' c'' : Config}

theorem trans (h : Path w code inside c c') (h' : Path w code inside c' c'') : Path w code inside c c'' := by
  induction h with
  | refl c => exact h'
  | step hinside hstep _ ih => exact .step hinside hstep (ih h')

theorem mono (himp : ∀ pc, inside pc → inside' pc) (h : Path w code inside c c') : Path w code inside' c c' := by
  induction h with
  | refl c => exact .refl c
  | step hinside hstep _ ih => exact .step (himp _ hinside) hstep ih

/-- A relation that every step inside keeps is kept by the path. -/
theorem invariant {P : Machine → Prop} (hstep : ∀ c c', inside c.1 → Step w code c c' → P c.2 → P c'.2)
    (h : Path w code inside c c') (hc : P c.2) : P c'.2 := by
  induction h with
  | refl c => exact hc
  | step hinside hone _ ih => exact ih (hstep _ _ hinside hone hc)

end Path

/-- The positions of a piece of code. -/
def Within (start stop pc : Nat) : Prop := start ≤ pc ∧ pc < stop

/-- A piece of code that runs from its first instruction to its end is a path through its positions. -/
theorem path_of_run {w : World} {piece : List Instr} {m m' : Machine} (hrun : run w piece m = .ok m')
    (pre post : List Instr) :
    Path w (pre ++ piece ++ post) (Within pre.length (pre ++ piece).length) (pre.length, m)
      ((pre ++ piece).length, m') := by
  induction piece generalizing pre m with
  | nil =>
    cases hrun
    rw [List.append_nil]
    exact .refl _
  | cons x rest ih =>
    rw [run] at hrun
    cases hexec : exec? w x m with
    | none => simp [hexec] at hrun
    | some effect =>
      cases effect with
      | trap => simp [hexec] at hrun
      | goto l => simp [hexec] at hrun
      | next m₁ =>
        simp only [hexec] at hrun
        have hsame : pre ++ [x] ++ rest = pre ++ x :: rest := by simp
        have hlength : (pre ++ [x]).length = pre.length + 1 := by simp
        have hpath := ih hrun (pre ++ [x])
        rw [hsame, hlength] at hpath
        have hx : (pre ++ x :: rest ++ post)[pre.length]? = some x := by simp
        refine .step ⟨Nat.le_refl _, ?_⟩ (.next hx hexec) (hpath.mono fun pc hpc => ⟨?_, hpc.2⟩)
        · simp
        · exact Nat.le_trans (Nat.le_succ _) hpc.1

/-! ### Registers along a path -/

/-- The instruction changes no register but those it says it defines. -/
def ChangesOnlyDefs (x : Instr) : Prop :=
  ∀ w m m', exec? w x m = some (.next m') → ∀ t, t ∉ x.defs → m'.regs t = m.regs t

/-- A register that no instruction inside defines keeps its word along the path. -/
theorem Path.regs_eq {w : World} {code : List Instr} {inside : Nat → Prop} {c c' : Config} {t : Temp}
    (h : Path w code inside c c') (hcode : ∀ x ∈ code, ChangesOnlyDefs x)
    (hdefs : ∀ pc x, inside pc → code[pc]? = some x → t ∉ x.defs) : c'.2.regs t = c.2.regs t := by
  refine h.invariant (P := fun m => m.regs t = c.2.regs t) ?_ rfl
  intro a b hinside hstep ha
  cases hstep with
  | next hx hexec =>
    have hkept := hcode _ (List.mem_of_getElem? hx) w _ _ hexec t (hdefs _ _ hinside hx)
    exact hkept.trans ha
  | goto => exact ha

end Lowering.X86
