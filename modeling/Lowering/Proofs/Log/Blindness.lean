import Lowering.Proofs.Log.Emission
import Lowering.Rule.Script
import Lowering.X86.Rules
import Mathlib.Data.List.Forall2

/-!
# Actions that are blind to register numbers

An action gets registers from its requests and can put them into instructions. One that does nothing else with them,
and in particular never looks at a number, is blind: handed other registers it makes the same requests and emits the
same code, with the other registers in place. The module states this through relations between registers, as a free
theorem would, and draws the conclusion for the machine. Two runs of a blind book from counters `n` and `m` go step by
step together, and what they emit differs in fresh registers alone. Scripts are blind, and so are the rules of the
target.
-/

namespace Lowering

/-- The same instruction, with related registers. -/
inductive Instr.Alike (R : Temp → Temp → Prop) : Instr → Instr → Prop where
  | oper {dst dst' src src' : List Temp} (asm : Text) (jumps syms : List Label) (hdst : List.Forall₂ R dst dst')
    (hsrc : List.Forall₂ R src src') : Alike R (.oper asm dst src jumps syms) (.oper asm dst' src' jumps syms)
  | move {dst dst' src src' : Temp} (asm : Text) (hdst : R dst dst') (hsrc : R src src') :
    Alike R (.move asm dst src) (.move asm dst' src')
  | label (asm : Text) (name : Label) : Alike R (.label asm name) (.label asm name)

/-- The same code, with related registers. -/
abbrev CodeAlike (R : Temp → Temp → Prop) : List Instr → List Instr → Prop := List.Forall₂ (Instr.Alike R)

/-- Actions that make the same requests for as long as they are handed related registers, and end in related values. -/
inductive Action.Alike (R : Temp → Temp → Prop) {α β : Type} (A : α → β → Prop) : Action α → Action β → Prop where
  | done {a : α} {b : β} (h : A a b) : Alike R A (.done a) (.done b)
  | stm {x : Action α} {y : Action β} (s : Stm) (h : Alike R A x y) : Alike R A (.stm s x) (.stm s y)
  | exp {x : Temp → Action α} {y : Temp → Action β} (e : Exp) (h : ∀ t t', R t t' → Alike R A (x t) (y t')) :
    Alike R A (.exp e x) (.exp e y)
  | fresh {x : Temp → Action α} {y : Temp → Action β} (h : ∀ t t', R t t' → Alike R A (x t) (y t')) :
    Alike R A (.fresh x) (.fresh y)
  | emit {x : Action α} {y : Action β} {code code' : List Instr} (hcode : CodeAlike R code code') (h : Alike R A x y) :
    Alike R A (.emit code x) (.emit code' y)
  | refuse (why : Refusal) : Alike R A (.refuse why) (.refuse why)
  | fault (f : Fault) : Alike R A (.fault f) (.fault f)

/-- No action of the book looks at the number of a register. -/
structure RuleBook.Blind (book : RuleBook) : Prop where
  stm : ∀ rule ∈ book.stm.rules, ∀ captures, ∀ R : Temp → Temp → Prop, (∀ t, R t t) →
    Action.Alike R Eq (rule.action captures) (rule.action captures)
  exp : ∀ rule ∈ book.exp.rules, ∀ captures, ∀ R : Temp → Temp → Prop, (∀ t, R t t) →
    Action.Alike R R (rule.action captures) (rule.action captures)

/-! ### Scripts -/

section

variable {R : Temp → Temp → Prop} {α β γ δ : Type} {A : α → β → Prop} {B : γ → δ → Prop}

theorem Action.Alike.bind {x : Action α} {y : Action β} {f : α → Action γ} {g : β → Action δ} (hxy : Alike R A x y)
    (hfg : ∀ a b, A a b → Alike R B (f a) (g b)) : Alike R B (x >>= f) (y >>= g) := by
  induction hxy with
  | done h => exact hfg _ _ h
  | stm s _ ih => exact .stm s ih
  | exp e _ ih => exact .exp e ih
  | fresh _ ih => exact .fresh ih
  | emit hcode _ ih => exact .emit hcode ih
  | refuse why => exact .refuse why
  | fault f => exact .fault f

theorem Action.Alike.orFault (x : Except Fault α) : Alike R Eq (Action.orFault x) (Action.orFault x) := by
  cases x with
  | ok a => exact .done rfl
  | error f => exact .fault f

end

namespace Script

variable {R : Temp → Temp → Prop}

/-- Registers of the same names are related. -/
def Registers.Alike (R : Temp → Temp → Prop) (regs regs' : Registers) : Prop :=
  ∀ name, R (regs.get name) (regs'.get name)

theorem Registers.Alike.cons {regs regs' : Registers} {t t' : Temp} (h : Registers.Alike R regs regs') (reg : Text)
    (ht : R t t') : Registers.Alike R ((reg, t) :: regs) ((reg, t') :: regs') := by
  intro name
  rw [Registers.get, Registers.get, List.lookup_cons, List.lookup_cons]
  split
  · exact ht
  · exact h name

theorem Registers.Alike.map {regs regs' : Registers} (h : Registers.Alike R regs regs') (names : List Text) :
    List.Forall₂ R (names.map regs.get) (names.map regs'.get) := by
  rw [List.forall₂_map_left_iff, List.forall₂_map_right_iff]
  exact List.forall₂_same.mpr fun name _ => h name

/-- The book whose rules are these scripts, each with its name and its pattern. -/
def book (reserved : Reserved) (stmName expName : Text) (stms : List (Text × Pattern .stm × List Step))
    (exps : List (Text × Pattern .exp × List Step)) : RuleBook where
  stm := ⟨stmName, stms.map fun (name, pattern, steps) => stmRule reserved name pattern steps⟩
  exp := ⟨expName, exps.map fun (name, pattern, steps) => expRule reserved name pattern steps⟩

end Script

/-! ### The rules of the target -/

section Requests

open Lowering.Action

variable {R : Temp → Temp → Prop} {α β γ : Type} {A : α → β → Prop}

@[simp] theorem alike_oper {asm : Text} {dst dst' src src' : List Temp} {jumps syms : List Label} :
    Instr.Alike R (.oper asm dst src jumps syms) (.oper asm dst' src' jumps syms) ↔
      List.Forall₂ R dst dst' ∧ List.Forall₂ R src src' := by
  refine ⟨fun h => ?_, fun h => .oper asm jumps syms h.1 h.2⟩
  cases h with
  | oper _ _ _ hdst hsrc => exact ⟨hdst, hsrc⟩

@[simp] theorem alike_move {asm : Text} {dst dst' src src' : Temp} :
    Instr.Alike R (.move asm dst src) (.move asm dst' src') ↔ R dst dst' ∧ R src src' := by
  refine ⟨fun h => ?_, fun h => .move asm h.1 h.2⟩
  cases h with
  | move _ hdst hsrc => exact ⟨hdst, hsrc⟩

@[simp] theorem alike_label (asm : Text) (name : Label) : Instr.Alike R (.label asm name) (.label asm name) :=
  .label asm name

@[simp] theorem alike_pure {a : α} {b : β} : Alike R A (pure a) (pure b) ↔ A a b := by
  refine ⟨fun h => ?_, .done⟩
  cases h with
  | done h => exact h

@[simp] theorem alike_orFault_bind (x : Except Fault γ) (f : γ → Action α) (g : γ → Action β) :
    Alike R A (orFault x >>= f) (orFault x >>= g) ↔ ∀ a, x = .ok a → Alike R A (f a) (g a) := by
  cases x with
  | ok a =>
    refine ⟨?_, fun h => h a rfl⟩
    rintro h _ ⟨⟩
    exact h
  | error e =>
    refine ⟨?_, fun _ => .fault e⟩
    rintro - a ⟨⟩

@[simp] theorem alike_lowerStm (s : Stm) : Alike R Eq (lowerStm s) (lowerStm s) := .stm s (.done rfl)

@[simp] theorem alike_lowerStm_bind (s : Stm) (f : Unit → Action α) (g : Unit → Action β) :
    Alike R A (lowerStm s >>= f) (lowerStm s >>= g) ↔ Alike R A (f ()) (g ()) := by
  refine ⟨fun h => ?_, .stm s⟩
  cases h with
  | stm _ h => exact h

@[simp] theorem alike_freshTemp_bind (f : Temp → Action α) (g : Temp → Action β) :
    Alike R A (freshTemp >>= f) (freshTemp >>= g) ↔ ∀ t t', R t t' → Alike R A (f t) (g t') := by
  refine ⟨fun h => ?_, .fresh⟩
  cases h with
  | fresh h => exact h

@[simp] theorem alike_append {code code' : List Instr} :
    Alike R Eq (append code) (append code') ↔ CodeAlike R code code' := by
  refine ⟨fun h => ?_, fun h => .emit h (.done rfl)⟩
  cases h with
  | emit hcode _ => exact hcode

@[simp] theorem alike_append_bind {code code' : List Instr} (f : Unit → Action α) (g : Unit → Action β) :
    Alike R A (append code >>= f) (append code' >>= g) ↔ CodeAlike R code code' ∧ Alike R A (f ()) (g ()) := by
  refine ⟨fun h => ?_, fun h => .emit h.1 h.2⟩
  cases h with
  | emit hcode h => exact ⟨hcode, h⟩

end Requests

namespace X86

section Requests

variable {R : Temp → Temp → Prop} {α β : Type} {A : α → β → Prop} {c : Captures}

@[simp] theorem alike_lowered_bind (w : Wildcard .exp) (f : Temp → Action α) (g : Temp → Action β) :
    Action.Alike R A (lowered w c >>= f) (lowered w c >>= g) ↔
      ∀ e, c.read w = .ok e → ∀ t t', R t t' → Action.Alike R A (f t) (g t') := by
  have hbind {γ : Type} (f : Temp → Action γ) :
      (lowered w c >>= f) = Action.orFault (c.read w) >>= fun e => .exp e f := by
    rw [lowered, read]
    cases c.read w with
    | ok e => rfl
    | error g => rfl
  rw [hbind, hbind, alike_orFault_bind]
  refine forall₂_congr fun e he => ⟨fun h => ?_, .exp e⟩
  cases h with
  | exp _ h => exact h

@[simp] theorem alike_lowered (w : Wildcard .exp) : Action.Alike R R (lowered w c) (lowered w c) :=
  (Action.Alike.orFault _).bind fun e _ he => he ▸ .exp e fun _ _ => .done

@[simp] theorem alike_copied {src src' : Temp} (h : R src src') : Action.Alike R R (copied src) (copied src') := by
  simp +contextual [copied, emit, copy, h]

@[simp] theorem alike_copied_bind {src src' : Temp} (h : R src src') (f : Temp → Action α) (g : Temp → Action β) :
    Action.Alike R A (copied src >>= f) (copied src' >>= g) ↔ ∀ t t', R t t' → Action.Alike R A (f t) (g t') := by
  refine ⟨fun hbind t t' ht => ?_, (alike_copied h).bind⟩
  cases hbind with
  | fresh hbind =>
    cases hbind t t' ht with
    | emit _ hbind => exact hbind

theorem alike_lowerArgs (args : List Exp) :
    Action.Alike R (List.Forall₂ (Sum.LiftRel Eq R)) (lowerArgs args) (lowerArgs args) := by
  induction args with
  | nil => exact .done .nil
  | cons e rest ih =>
    cases e with
    | const i => exact ih.bind fun _ _ hvs => .done (.cons (.inl rfl) hvs)
    | _ => exact .exp _ fun t t' ht => ih.bind fun _ _ hvs => .done (.cons (.inr ht) hvs)

theorem alike_push (hR : ∀ t, R t t) {v v' : Word ⊕ Temp} (h : Sum.LiftRel Eq R v v') :
    Instr.Alike R (push v) (push v') := by
  cases h with
  | inl h =>
    subst h
    simp [push, oper, hR]
  | inr h => simp [push, oper, hR, h]

theorem alike_pushArgs (hR : ∀ t, R t t) (args : List Exp) : Action.Alike R Eq (pushArgs args) (pushArgs args) := by
  refine (alike_lowerArgs args).bind fun vs vs' hvs => .emit ?_ (.done rfl)
  rw [CodeAlike, List.forall₂_map_left_iff, List.forall₂_map_right_iff, List.forall₂_reverse_iff]
  exact hvs.imp fun _ _ => alike_push hR

theorem alike_afterCall (hR : ∀ t, R t t) (n : Nat) : Action.Alike R R (afterCall n) (afterCall n) := by
  rw [afterCall]
  split <;> simp [emit, oper, hR]

end Requests

/-- Whatever was captured, the action does not look at the number of a register. -/
def Blind {k : Kind} {α : Type} (R : Temp → Temp → Prop) (A : α → α → Prop) (rule : Rule k α) : Prop :=
  ∀ c, Action.Alike R A (rule.action c) (rule.action c)

section Blindness

variable {R : Temp → Temp → Prop}

theorem storeRules_blind : ∀ rule ∈ storeRules, Blind R Eq rule := by
  simp +contextual [storeRules, Blind, read, emit, oper]

theorem moveRules_blind (hR : ∀ t, R t t) : ∀ rule ∈ moveRules, Blind R Eq rule := by
  simp +contextual [moveRules, Blind, read, emit, oper, copy, hR]

theorem controlRules_blind : ∀ rule ∈ controlRules, Blind R Eq rule := by
  simp +contextual [controlRules, Blind, read, emit, oper, branch]

theorem stmRules_blind (hR : ∀ t, R t t) : ∀ rule ∈ stmRules.rules, Blind R Eq rule := by
  intro rule hrule
  simp only [stmRules, List.mem_append] at hrule
  obtain (hrule | hrule) | hrule := hrule
  · exact storeRules_blind rule hrule
  · exact moveRules_blind hR rule hrule
  · exact controlRules_blind rule hrule

theorem loadRules_blind : ∀ rule ∈ loadRules, Blind R R rule := by
  simp +contextual [loadRules, Blind, read, emit, oper, define]

theorem arithRules_blind (o : Arith) : ∀ rule ∈ arithRules o, Blind R R rule := by
  cases o <;> simp +contextual [arithRules, Blind, Arith.commutes, updateConst, update, read, emit, oper]

theorem mulDivRules_blind (hR : ∀ t, R t t) : ∀ rule ∈ mulDivRules, Blind R R rule := by
  simp +contextual [mulDivRules, Blind, update, read, define, emit, oper, copy, hR]

theorem shiftRules_blind (hR : ∀ t, R t t) (o : Shift) : ∀ rule ∈ shiftRules o, Blind R R rule := by
  simp +contextual [shiftRules, Blind, updateConst, read, emit, oper, copy, hR]

theorem leafRules_blind (hR : ∀ t, R t t) : ∀ rule ∈ leafRules, Blind R R rule := by
  have htemp (c : Captures) : Action.Alike R R (Action.orFault (c.read Wild.d)) (Action.orFault (c.read Wild.d)) := by
    cases c.read Wild.d with
    | ok t => exact .done (hR t)
    | error f => exact .fault f
  simp +contextual [leafRules, Blind, define, read, emit, oper, hR, htemp]

theorem callRules_blind (hR : ∀ t, R t t) : ∀ rule ∈ callRules, Blind R R rule := by
  simp only [callRules, List.forall_mem_cons]
  refine ⟨fun c => ?_, fun c => ?_, List.forall_mem_nil _⟩
  · refine (alike_orFault_bind _ _ _).mpr fun args _ => (alike_pushArgs hR args).bind fun n _ hn => ?_
    subst hn
    simp [read, emit, hR, alike_afterCall hR]
  · refine (alike_lowered Wild.f).bind fun a a' ha => ?_
    refine (alike_orFault_bind _ _ _).mpr fun args _ => (alike_pushArgs hR args).bind fun n _ hn => ?_
    subst hn
    simp [emit, oper, hR, ha, alike_afterCall hR]

theorem expRules_blind (hR : ∀ t, R t t) : ∀ rule ∈ expRules.rules, Blind R R rule := by
  intro rule hrule
  simp only [expRules, List.mem_append, List.mem_flatMap] at hrule
  obtain ((((hrule | ⟨o, -, hrule⟩) | hrule) | ⟨o, -, hrule⟩) | hrule) | hrule := hrule
  · exact loadRules_blind rule hrule
  · exact arithRules_blind o rule hrule
  · exact mulDivRules_blind hR rule hrule
  · exact shiftRules_blind hR o rule hrule
  · exact leafRules_blind hR rule hrule
  · exact callRules_blind hR rule hrule

end Blindness

/-- The rules of the target are blind. -/
theorem rules_blind : X86.rules.Blind where
  stm := fun rule hrule c _ hR => stmRules_blind hR rule hrule c
  exp := fun rule hrule c _ hR => expRules_blind hR rule hrule c

end X86

/-! ### Two runs -/

/-- Registers of two runs that began with their counters at `n` and `m`: the same one, or two that were handed out at
the same moment since. -/
inductive Shifted (n m : Nat) : Temp → Temp → Prop where
  | same (t : Temp) : Shifted n m t t
  | fresh (i : Nat) : Shifted n m ⟨((n + i : Nat) : Int) + 1⟩ ⟨((m + i : Nat) : Int) + 1⟩

/-- Related values, or the same error. -/
inductive AnswerAlike {α β : Type} (A : α → β → Prop) : Except (Stop Refusal) α → Except (Stop Refusal) β → Prop where
  | ok {a : α} {b : β} (h : A a b) : AnswerAlike A (.ok a) (.ok b)
  | error (why : Stop Refusal) : AnswerAlike A (.error why) (.error why)

namespace Selecting

variable {n m : Nat} {α β γ δ : Type} {A : α → β → Prop} {B : γ → δ → Prop}

/-- From logs whose counters have gone equally far from `n` and `m`, the two steps end alike: with related answers, with
counters that are again equally far on, and with related code appended. -/
def Together (n m : Nat) (A : α → β → Prop) (x : Selecting α) (y : Selecting β) : Prop :=
  ∀ (log log' : Log) (i : Nat), log.session.temps = n + i → log'.session.temps = m + i →
    log.session.journaling = log'.session.journaling →
    ∃ r r' j journal journal' code code', x.run.run log = (r, log.grown (n + j) journal code) ∧
      y.run.run log' = (r', log'.grown (m + j) journal' code') ∧ AnswerAlike A r r' ∧
      CodeAlike (Shifted n m) code code'

namespace Together

variable {x : Selecting α} {y : Selecting β} {f : α → Selecting γ} {g : β → Selecting δ}

theorem of_yields {r : Except (Stop Refusal) α} {r' : Except (Stop Refusal) β} {code code' : List Instr}
    (hx : ∀ k, Yields x k code r k) (hy : ∀ k, Yields y k code' r' k) (hr : AnswerAlike A r r')
    (hcode : CodeAlike (Shifted n m) code code') : Together n m A x y := by
  intro log log' i hlog hlog' _
  obtain ⟨journal, hrun⟩ := hx _ log hlog
  obtain ⟨journal', hrun'⟩ := hy _ log' hlog'
  exact ⟨r, r', i, journal, journal', code, code', hrun, hrun', hr, hcode⟩

theorem pure {a : α} {b : β} (h : A a b) : Together n m A (Pure.pure a) (Pure.pure b) :=
  of_yields (fun _ => .pure a _) (fun _ => .pure b _) (.ok h) .nil

theorem throw (why : Stop Refusal) : Together n m A (MonadExcept.throw why) (MonadExcept.throw why) :=
  of_yields (fun _ => .throw why _) (fun _ => .throw why _) (.error why) .nil

theorem emit {code code' : List Instr} (h : CodeAlike (Shifted n m) code code') :
    Together n m Eq (Selecting.emit code) (Selecting.emit code') :=
  of_yields (fun _ => .emit code _) (fun _ => .emit code' _) (.ok rfl) h

theorem fresh : Together n m (Shifted n m) (session Session.freshTemp) (session Session.freshTemp) := by
  intro log log' i hlog hlog' _
  obtain ⟨journal, hrun⟩ := Yields.fresh (n + i) log hlog
  obtain ⟨journal', hrun'⟩ := Yields.fresh (m + i) log' hlog'
  exact ⟨_, _, i + 1, journal, journal', [], [], hrun, hrun', .ok (.fresh i), .nil⟩

theorem bind (hxy : Together n m A x y) (hfg : ∀ a b, A a b → Together n m B (f a) (g b)) :
    Together n m B (x >>= f) (y >>= g) := by
  intro log log' i hlog hlog' hjournaling
  obtain ⟨r, r', j, journal, journal', code, code', hrun, hrun', hr, hcode⟩ := hxy log log' i hlog hlog' hjournaling
  cases hr with
  | error why =>
    exact ⟨_, _, j, journal, journal', code, code', bind_run_error hrun, bind_run_error hrun', .error why, hcode⟩
  | ok h =>
    obtain ⟨r, r', k, journal₂, journal₂', code₂, code₂', hrun₂, hrun₂', hr, hcode₂⟩ :=
      hfg _ _ h (log.grown (n + j) journal code) (log'.grown (m + j) journal' code') j rfl rfl hjournaling
    refine ⟨r, r', k, journal₂, journal₂', code ++ code₂, code' ++ code₂', ?_, ?_, hr, List.rel_append hcode hcode₂⟩
    · rw [bind_run_ok hrun, hrun₂]
      simp only [Log.grown, List.append_assoc]
    · rw [bind_run_ok hrun', hrun₂']
      simp only [Log.grown, List.append_assoc]

theorem whenJournaling {step step' : Selecting Unit} (h : Together n m Eq step step') :
    Together n m Eq (Selecting.whenJournaling step) (Selecting.whenJournaling step') := by
  intro log log' i hlog hlog' hjournaling
  have hrun (step : Selecting Unit) (log : Log) : (Selecting.whenJournaling step).run.run log =
      (if log.session.journaling = true then step else Pure.pure ()).run.run log := rfl
  rw [hrun step log, hrun step' log', ← hjournaling]
  split
  · exact h log log' i hlog hlog' hjournaling
  · exact pure rfl log log' i hlog hlog' hjournaling

theorem noteStm (rule : Text) (s : Stm) :
    Together n m Eq (Selecting.noteStm rule s) (Selecting.noteStm rule s) := by
  by_cases hs : s = .hole
  · subst hs
    exact whenJournaling (.throw _)
  · exact of_yields (fun _ => .noteStm rule hs _) (fun _ => .noteStm rule hs _) (.ok rfl) .nil

theorem noteExp (rule : Text) (e : Exp) (t t' : Temp) :
    Together n m Eq (Selecting.noteExp rule e t) (Selecting.noteExp rule e t') := by
  by_cases he : e = .hole
  · subst he
    exact whenJournaling (.throw _)
  · exact of_yields (fun _ => .noteExp rule he t _) (fun _ => .noteExp rule he t' _) (.ok rfl) .nil

/-- Attempts stay together: they keep related code, or none. -/
theorem attempt {unset : α} {unset' : β} (h : Together n m A x y) (hunset : A unset unset') :
    Together n m A (Selecting.attempt unset x) (Selecting.attempt unset' y) := by
  intro log log' i hlog hlog' hjournaling
  obtain ⟨r, r', j, journal, journal', code, code', hrun, hrun', hr, hcode⟩ := h log log' i hlog hlog' hjournaling
  refine ⟨_, _, j, journal, journal', _, _, attempt_run hrun, attempt_run hrun', ?_, ?_⟩
  · cases hr with
    | ok h => exact .ok h
    | error why =>
      cases why with
      | fault f => exact .error _
      | failed why =>
        rw [passedOn, passedOn, answerTo, answerTo]
        split
        · exact .error _
        · exact .ok hunset
  · cases hr with
    | ok h => exact hcode
    | error why =>
      cases why with
      | failed why => exact .nil
      | fault f => exact hcode

end Together

/-- Steps that may be cut off go together: they are cut off together, or end as steps that go together do. -/
def OpenTogether (n m : Nat) (A : α → β → Prop) (x : OptionT Selecting α) (y : OptionT Selecting β) : Prop :=
  Together n m (Option.Rel A) x.run y.run

namespace OpenTogether

variable {x : OptionT Selecting α} {y : OptionT Selecting β} {f : α → OptionT Selecting γ} {g : β → OptionT Selecting δ}

theorem pure {a : α} {b : β} (h : A a b) : OpenTogether n m A (Pure.pure a) (Pure.pure b) := Together.pure (.some h)

theorem cutOff : OpenTogether n m A failure failure := Together.pure .none

theorem lift {step : Selecting α} {step' : Selecting β} (h : Together n m A step step') :
    OpenTogether n m A (OptionT.lift step) (OptionT.lift step') := by
  rw [OpenTogether, OptionT.run_lift, OptionT.run_lift]
  exact h.bind fun _ _ hab => .pure (.some hab)

theorem bind (hxy : OpenTogether n m A x y) (hfg : ∀ a b, A a b → OpenTogether n m B (f a) (g b)) :
    OpenTogether n m B (x >>= f) (y >>= g) := by
  rw [OpenTogether, OptionT.run_bind, OptionT.run_bind]
  refine Together.bind hxy fun a b hab => ?_
  cases hab with
  | none => exact .pure .none
  | some hab => exact hfg _ _ hab

/-- Alike actions run together, if the parts they ask for are lowered together. -/
theorem run {stm : Stm → OptionT Selecting Unit} {exp : Exp → OptionT Selecting Temp} {x : Action α} {y : Action β}
    (hstm : ∀ s, OpenTogether n m Eq (stm s) (stm s)) (hexp : ∀ e, OpenTogether n m (Shifted n m) (exp e) (exp e))
    (hxy : Action.Alike (Shifted n m) A x y) :
    OpenTogether n m A (x.run (openHandler stm exp)) (y.run (openHandler stm exp)) := by
  induction hxy with
  | done h => exact .pure h
  | stm s _ ih => exact (hstm s).bind fun _ _ _ => ih
  | exp e _ ih => exact (hexp e).bind ih
  | fresh _ ih => exact (lift .fresh).bind ih
  | emit hcode _ ih => exact (lift (.emit hcode)).bind fun _ _ _ => ih
  | refuse why => exact lift (.throw _)
  | fault f => exact lift (.throw _)

end OpenTogether

end Selecting

namespace RuleBook

open Selecting

end RuleBook

end Lowering
