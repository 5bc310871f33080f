import Lowering.Proofs.Depth

/-!
# Emissions

What an action emits, told without a log. An emission follows the requests of an action one by one: it hands each
subtree to the rule chosen for it and collects the code on the way, and it ends where the action ends or at the first
refusal. Nothing is taken back in an emission and no tree has to be smaller than another. The module compares the
machine with this account: running an action appends its emission to the log unless it is cut off, and an attempt keeps
all of the emission if it is done and none of it if it is refused.
-/

namespace Lowering

namespace RuleBook

/-- What a choice among rules asks to be done: the action of the rule, or a refusal where no rule fits. -/
def planOf {k : Kind} {α : Type} : Except (Stop Refusal) (Rule k α × Captures) → Action α
  | .ok (rule, captures) => rule.action captures
  | .error (.failed why) => .refuse why
  | .error (.fault f) => .fault f

def planStm (book : RuleBook) (s : Stm) : Action Unit := planOf (book.selectStm s)

def planExp (book : RuleBook) (e : Exp) : Action Temp := planOf (book.selectExp e)

end RuleBook

/-- From counter `n` the action emits `code` and ends in `r` with counter `n'`. A fault is no emission. -/
inductive Emission (book : RuleBook) :
    {α : Type} → Action α → Nat → List Instr → Except Refusal α → Nat → Prop where
  | done {α : Type} (a : α) (n : Nat) : Emission book (.done a) n [] (.ok a) n
  | refuse {α : Type} (why : Refusal) (n : Nat) : Emission book (.refuse why : Action α) n [] (.error why) n
  | emit {α : Type} {next : Action α} {n n' : Nat} {code : List Instr} {r : Except Refusal α} (c : List Instr)
    (hnext : Emission book next n code r n') : Emission book (.emit c next) n (c ++ code) r n'
  | fresh {α : Type} {next : Temp → Action α} {n n' : Nat} {code : List Instr} {r : Except Refusal α}
    (hnext : Emission book (next ⟨(n : Int) + 1⟩) (n + 1) code r n') : Emission book (.fresh next) n code r n'
  | stm {α : Type} {s : Stm} {next : Action α} {n n₁ n₂ : Nat} {code₁ code₂ : List Instr} {r : Except Refusal α}
    (hs : Emission book (book.planStm s) n code₁ (.ok ()) n₁) (hnext : Emission book next n₁ code₂ r n₂) :
    Emission book (.stm s next) n (code₁ ++ code₂) r n₂
  | stm_refused {α : Type} {s : Stm} {next : Action α} {n n₁ : Nat} {code : List Instr} {why : Refusal}
    (hs : Emission book (book.planStm s) n code (.error why) n₁) : Emission book (.stm s next) n code (.error why) n₁
  | exp {α : Type} {e : Exp} {next : Temp → Action α} {n n₁ n₂ : Nat} {code₁ code₂ : List Instr} {t : Temp}
    {r : Except Refusal α} (he : Emission book (book.planExp e) n code₁ (.ok t) n₁)
    (hnext : Emission book (next t) n₁ code₂ r n₂) : Emission book (.exp e next) n (code₁ ++ code₂) r n₂
  | exp_refused {α : Type} {e : Exp} {next : Temp → Action α} {n n₁ : Nat} {code : List Instr} {why : Refusal}
    (he : Emission book (book.planExp e) n code (.error why) n₁) : Emission book (.exp e next) n code (.error why) n₁

namespace Emission

variable {book : RuleBook} {α β : Type} {x : Action α} {f : α → Action β} {n n₁ n₂ : Nat} {code code' : List Instr}

/-- An action and what follows it emit one after the other. -/
theorem bind {a : α} {r : Except Refusal β} (hx : Emission book x n code (.ok a) n₁)
    (hf : Emission book (f a) n₁ code' r n₂) : Emission book (x.bind f) n (code ++ code') r n₂ := by
  generalize hr : Except.ok a = r₁ at hx
  induction hx with
  | done b n =>
    cases hr
    exact hf
  | refuse | stm_refused | exp_refused => cases hr
  | emit c _ ih =>
    rw [List.append_assoc]
    exact .emit c (ih hf hr)
  | fresh _ ih => exact .fresh (ih hf hr)
  | stm hs _ _ ih =>
    rw [List.append_assoc]
    exact .stm hs (ih hf hr)
  | exp he _ _ ih =>
    rw [List.append_assoc]
    exact .exp he (ih hf hr)

theorem bind_refused {why : Refusal} (hx : Emission book x n code (.error why) n₁) :
    Emission book (x.bind f) n code (.error why) n₁ := by
  generalize hr : Except.error why = r₁ at hx
  induction hx with
  | done => cases hr
  | refuse why n =>
    cases hr
    exact .refuse why n
  | emit c _ ih => exact .emit c (ih hr)
  | fresh _ ih => exact .fresh (ih hr)
  | stm hs _ _ ih => exact .stm hs (ih hr)
  | stm_refused hs =>
    cases hr
    exact .stm_refused hs
  | exp he _ _ ih => exact .exp he (ih hr)
  | exp_refused he =>
    cases hr
    exact .exp_refused he

/-- A statement emits what is planned for it. -/
theorem lowerStm {s : Stm} {r : Except Refusal Unit} (h : Emission book (book.planStm s) n code r n₁) :
    Emission book (.lowerStm s) n code r n₁ := by
  cases r with
  | ok u =>
    rw [← List.append_nil code]
    exact .stm h (.done () n₁)
  | error why => exact .stm_refused h

theorem lowerExp {e : Exp} {r : Except Refusal Temp} (h : Emission book (book.planExp e) n code r n₁) :
    Emission book (.lowerExp e) n code r n₁ := by
  cases r with
  | ok t =>
    rw [← List.append_nil code]
    exact .exp h (.done t n₁)
  | error why => exact .exp_refused h

/-- An action has one emission from each counter. -/
theorem unique {r r' : Except Refusal α} (h : Emission book x n code r n₁) (h' : Emission book x n code' r' n₂) :
    code = code' ∧ r = r' ∧ n₁ = n₂ := by
  induction h generalizing code' n₂ with
  | done | refuse =>
    cases h'
    exact ⟨rfl, rfl, rfl⟩
  | emit c _ ih =>
    cases h' with
    | emit _ hnext =>
      obtain ⟨rfl, rfl, rfl⟩ := ih hnext
      exact ⟨rfl, rfl, rfl⟩
  | fresh _ ih =>
    cases h' with
    | fresh hnext => exact ih hnext
  | stm _ _ ihs ih =>
    cases h' with
    | stm hs hnext =>
      obtain ⟨rfl, -, rfl⟩ := ihs hs
      obtain ⟨rfl, rfl, rfl⟩ := ih hnext
      exact ⟨rfl, rfl, rfl⟩
    | stm_refused hs => cases (ihs hs).2.1
  | stm_refused _ ihs =>
    cases h' with
    | stm hs hnext => cases (ihs hs).2.1
    | stm_refused hs =>
      obtain ⟨rfl, hwhy, rfl⟩ := ihs hs
      cases hwhy
      exact ⟨rfl, rfl, rfl⟩
  | exp _ _ ihe ih =>
    cases h' with
    | exp he hnext =>
      obtain ⟨rfl, ht, rfl⟩ := ihe he
      cases ht
      obtain ⟨rfl, rfl, rfl⟩ := ih hnext
      exact ⟨rfl, rfl, rfl⟩
    | exp_refused he => cases (ihe he).2.1
  | exp_refused _ ihe =>
    cases h' with
    | exp he hnext => cases (ihe he).2.1
    | exp_refused he =>
      obtain ⟨rfl, hwhy, rfl⟩ := ihe he
      cases hwhy
      exact ⟨rfl, rfl, rfl⟩

end Emission

theorem Action.bind_done {α : Type} (x : Action α) : x.bind .done = x := by
  induction x with
  | done a => rfl
  | stm s next ih => exact congrArg (Action.stm s) ih
  | exp e next ih => exact congrArg (Action.exp e) (funext ih)
  | fresh next ih => exact congrArg Action.fresh (funext ih)
  | emit code next ih => exact congrArg (Action.emit code) ih
  | refuse why => rfl
  | fault f => rfl

/-! ### Refusals without an error -/

namespace RuleBook

theorem planStm_outspoken {book : RuleBook} (hbook : book.Outspoken) (s : Stm) : (book.planStm s).Outspoken := by
  rw [planStm]
  cases hselect : book.selectStm s with
  | ok chosen => exact hbook.stm chosen.1 (of_select hselect).1 chosen.2
  | error why =>
    rw [selectStm] at hselect
    cases hmisfit : book.stm.select s with
    | ok chosen =>
      rw [hmisfit] at hselect
      cases hselect
    | error misfit =>
      rw [hmisfit] at hselect
      cases hselect
      cases misfit with
      | failed => exact rfl
      | fault f => trivial

theorem planExp_outspoken {book : RuleBook} (hbook : book.Outspoken) (e : Exp) : (book.planExp e).Outspoken := by
  rw [planExp]
  cases hselect : book.selectExp e with
  | ok chosen => exact hbook.exp chosen.1 (of_select hselect).1 chosen.2
  | error why =>
    rw [selectExp] at hselect
    cases hmisfit : book.exp.select e with
    | ok chosen =>
      rw [hmisfit] at hselect
      cases hselect
    | error misfit =>
      rw [hmisfit] at hselect
      cases hselect
      cases misfit with
      | failed => exact rfl
      | fault f => trivial

end RuleBook

/-- By an outspoken book a tree is refused with an error, if at all. -/
theorem Emission.isError {book : RuleBook} (hbook : book.Outspoken) {α : Type} {x : Action α} (hx : x.Outspoken)
    {n n₁ : Nat} {code : List Instr} {why : Refusal} (h : Emission book x n code (.error why) n₁) :
    why.isError = true := by
  generalize hr : Except.error why = r at h
  induction h with
  | done => cases hr
  | refuse why n =>
    cases hr
    exact hx
  | emit c _ ih => exact ih hx hr
  | fresh _ ih => exact ih (hx _) hr
  | stm _ _ _ ih => exact ih hx.2 hr
  | stm_refused _ ih =>
    cases hr
    exact ih (RuleBook.planStm_outspoken hbook _) rfl
  | exp _ _ _ ih => exact ih (hx.2 _) hr
  | exp_refused _ ih =>
    cases hr
    exact ih (RuleBook.planExp_outspoken hbook _) rfl

/-! ### The machine -/

/-- The log with the counter at `n`, another journal and more code. -/
def Log.grown (log : Log) (n : Nat) (journal : List Event) (code : List Instr) : Log :=
  { session := { log.session with temps := n, journal }, code := log.code ++ code }

namespace Selecting

theorem Yields.lift {α : Type} {step : Selecting α} {n n' : Nat} {code : List Instr} {r : Except (Stop Refusal) α}
    (h : Yields step n code r n') : Yields (OptionT.lift step).run n code (r.map some) n' := by
  intro log hlog
  obtain ⟨journal, hrun⟩ := h log hlog
  exact ⟨journal, by rw [lift_run, hrun]⟩

/-- What a step answers that ends as an emission does. -/
def ended {α : Type} (r : Except Refusal α) : Except (Stop Refusal) (Option α) := (r.map some).mapError .failed

/-- Unless it meets a fault or is cut off, the step ends as an emission of the action and appends what the emission
holds. -/
def Performs (book : RuleBook) {α : Type} (x : Action α) (step : OptionT Selecting α) : Prop :=
  ∀ log : Log, (∃ f log', step.run.run.run log = (.error (.fault f), log')) ∨
    (∃ log', step.run.run.run log = (.ok none, log')) ∨
    ∃ code r n journal, Emission book x log.session.temps code r n ∧
      step.run.run.run log = (ended r, log.grown n journal code)

namespace Performs

variable {book : RuleBook} {α β : Type} {x : Action α} {f : α → Action β} {step : OptionT Selecting α}
  {next : α → OptionT Selecting β}

theorem of_yields {r : Nat → Except Refusal α} {code : List Instr} {n' : Nat → Nat}
    (hx : ∀ n, Emission book x n code (r n) (n' n)) (hstep : ∀ n, Yields step.run n code (ended (r n)) (n' n)) :
    Performs book x step := by
  intro log
  obtain ⟨journal, hrun⟩ := hstep log.session.temps log rfl
  exact .inr (.inr ⟨code, r _, _, journal, hx _, hrun⟩)

theorem done (a : α) : Performs book (.done a) (pure a) :=
  of_yields (r := fun _ => .ok a) (fun n => .done a n) fun n => .pure (some a) n

theorem refuse (why : Refusal) : Performs book (.refuse why : Action α) (.lift (throw (.failed why))) :=
  of_yields (r := fun _ => .error why) (fun n => .refuse why n) fun n => (Yields.throw (.failed why) n).lift

theorem fault (x : Action α) (g : Fault) : Performs book x (.lift (throw (.fault g))) :=
  fun log => .inl ⟨g, log, rfl⟩

theorem cutOff (x : Action α) : Performs book x failure :=
  fun log => .inr (.inl ⟨log, rfl⟩)

theorem fresh : Performs book .freshTemp (.lift (session Session.freshTemp)) :=
  of_yields (r := fun n => .ok ⟨(n : Int) + 1⟩) (fun n => .fresh (.done _ (n + 1))) fun n => (Yields.fresh n).lift

theorem emit (code : List Instr) : Performs book (.append code) (.lift (Selecting.emit code)) := by
  have hemits (n : Nat) : Emission book (.append code) n code (.ok ()) n := by
    have hnothing : Emission book (.append code) n (code ++ []) (.ok ()) n := .emit code (.done () n)
    rwa [List.append_nil] at hnothing
  exact of_yields hemits fun n => (Yields.emit code n).lift

theorem bind (hx : Performs book x step) (hf : ∀ a, Performs book (f a) (next a)) :
    Performs book (x.bind f) (step >>= next) := by
  intro log
  obtain ⟨g, log', hrun⟩ | ⟨log', hrun⟩ | ⟨code, r, n, journal, hemission, hrun⟩ := hx log
  · exact .inl ⟨g, log', bind_run_stop hrun⟩
  · exact .inr (.inl ⟨log', bind_run_none hrun⟩)
  · cases r with
    | error why => exact .inr (.inr ⟨code, .error why, n, journal, hemission.bind_refused, bind_run_stop hrun⟩)
    | ok a =>
      rw [bind_run_some hrun]
      obtain hfault | hcut | ⟨code', r, n', journal', hemission', hrun'⟩ := hf a (log.grown n journal code)
      · exact .inl hfault
      · exact .inr (.inl hcut)
      · refine .inr (.inr ⟨code ++ code', r, n', journal', hemission.bind hemission', ?_⟩)
        rw [hrun']
        simp only [Log.grown, List.append_assoc]

/-- Running an action performs it, if its parts are lowered as planned. -/
theorem run {stm : Stm → OptionT Selecting Unit} {exp : Exp → OptionT Selecting Temp}
    (hstm : ∀ s, Performs book (.lowerStm s) (stm s)) (hexp : ∀ e, Performs book (.lowerExp e) (exp e)) (x : Action α) :
    Performs book x (x.run (openHandler stm exp)) := by
  induction x with
  | done a => exact .done a
  | stm s next ih => exact (hstm s).bind fun _ => ih
  | exp e next ih => exact (hexp e).bind ih
  | fresh next ih => exact fresh.bind ih
  | emit code next ih => exact (emit code).bind fun _ => ih
  | refuse why => exact .refuse why
  | fault f => exact .fault _ f

theorem whenJournaling {step : Selecting Unit} (hstep : Performs book (.done ()) (.lift step)) :
    Performs book (.done ()) (.lift (Selecting.whenJournaling step)) := by
  intro log
  have hrun : (Selecting.whenJournaling step).run.run log =
      (if log.session.journaling = true then step else Pure.pure ()).run.run log := rfl
  rw [lift_run, hrun, ← lift_run]
  split
  · exact hstep log
  · exact of_yields (r := fun _ => .ok ()) (fun n => .done () n) (fun n => (Yields.pure () n).lift) log

theorem noteStm (rule : Text) (s : Stm) : Performs book (.done ()) (.lift (Selecting.noteStm rule s)) := by
  by_cases hs : s = .hole
  · subst hs
    exact whenJournaling (.fault _ _)
  · exact of_yields (r := fun _ => .ok ()) (fun n => .done () n) fun n => (Yields.noteStm rule hs n).lift

theorem noteExp (rule : Text) (e : Exp) (t : Temp) : Performs book (.done ()) (.lift (Selecting.noteExp rule e t)) := by
  by_cases he : e = .hole
  · subst he
    exact whenJournaling (.fault _ _)
  · exact of_yields (r := fun _ => .ok ()) (fun n => .done () n) fun n => (Yields.noteExp rule he t n).lift

/-- What is planned may be performed for a request. -/
theorem of_planStm {s : Stm} {step : OptionT Selecting Unit} (h : Performs book (book.planStm s) step) :
    Performs book (.lowerStm s) step := by
  intro log
  obtain hfault | hcut | ⟨code, r, n, journal, hemission, hrun⟩ := h log
  · exact .inl hfault
  · exact .inr (.inl hcut)
  · exact .inr (.inr ⟨code, r, n, journal, hemission.lowerStm, hrun⟩)

theorem of_planExp {e : Exp} {step : OptionT Selecting Temp} (h : Performs book (book.planExp e) step) :
    Performs book (.lowerExp e) step := by
  intro log
  obtain hfault | hcut | ⟨code, r, n, journal, hemission, hrun⟩ := h log
  · exact .inl hfault
  · exact .inr (.inl hcut)
  · exact .inr (.inr ⟨code, r, n, journal, hemission.lowerExp, hrun⟩)

end Performs

/-! ### Attempts -/

/-- What an attempt answers whose steps ended in `r`. -/
def passedOn {α : Type} (unset : α) : Except (Stop Refusal) α → Except (Stop Refusal) α
  | .error (.failed why) => answerTo unset why
  | r => r

/-- What an attempt whose steps ended in `r` leaves in the log of the code they emitted. -/
def kept {α : Type} (code : List Instr) : Except (Stop Refusal) α → List Instr
  | .error (.failed _) => []
  | _ => code

/-- A refused attempt takes back what it emitted, and nothing else. -/
theorem attempt_run {α : Type} {unset : α} {step : Selecting α} {log : Log} {r : Except (Stop Refusal) α} {n : Nat}
    {journal : List Event} {code : List Instr} (hrun : step.run.run log = (r, log.grown n journal code)) :
    (attempt unset step).run.run log = (passedOn unset r, log.grown n journal (kept code r)) := by
  have hattempt : (attempt unset step).run.run log = attempt unset step log := rfl
  have hrun : step log = _ := hrun
  rw [hattempt, attempt, hrun]
  split
  · next why log' heq =>
    obtain ⟨rfl, rfl⟩ := Prod.mk.inj heq
    simp only [Log.grown, passedOn, kept, List.take_left, List.append_nil]
  · next hkept =>
    have hcalm (why : Refusal) : r ≠ .error (.failed why) := by
      rintro rfl
      exact hkept why _ rfl
    rw [kept, passedOn]
    · exact hcalm
    · exact hcalm

/-- With an error the refusal is passed on. -/
theorem attempt_run_refused {α : Type} {unset : α} {step : Selecting α} {log : Log} {why : Refusal} {n : Nat}
    {journal : List Event} {code : List Instr} (hwhy : why.isError = true)
    (hrun : step.run.run log = (.error (.failed why), log.grown n journal code)) :
    (attempt unset step).run.run log = (.error (.failed why), log.grown n journal []) := by
  rw [attempt_run hrun, passedOn, answerTo, if_pos hwhy, kept]

theorem Performs.attempt_outcome {book : RuleBook} {α : Type} {x : Action α} {step : OptionT Selecting α}
    (h : Performs book x step) (unset : α) (log : Log) :
    (∃ f log', (attempt (some unset) step.run).run.run log = (.error (.fault f), log')) ∨
      (∃ log', (attempt (some unset) step.run).run.run log = (.ok none, log')) ∨
      ∃ code r n journal, Emission book x log.session.temps code r n ∧
        (attempt (some unset) step.run).run.run log =
          (passedOn (some unset) (ended r), log.grown n journal (kept code (ended r))) := by
  have hattempt : (attempt (some unset) step.run).run.run log = attempt (some unset) step.run log := rfl
  obtain ⟨f, log', hrun⟩ | ⟨log', hrun⟩ | ⟨code, r, n, journal, hemission, hrun⟩ := h log
  · have hrun : step.run log = _ := hrun
    exact .inl ⟨f, log', by rw [hattempt, attempt, hrun]⟩
  · have hrun : step.run log = _ := hrun
    exact .inr (.inl ⟨log', by rw [hattempt, attempt, hrun]⟩)
  · exact .inr (.inr ⟨code, r, n, journal, hemission, attempt_run hrun⟩)

/-- The step does not refuse without an error. -/
def Speaks {α : Type} (step : Selecting α) : Prop :=
  ∀ log log' why, step.run.run log = (.error (.failed why), log') → why.isError = true

theorem Speaks.of_performs {book : RuleBook} {α : Type} {x : Action α} {step : Selecting α}
    {step' : OptionT Selecting α} (hfollows : Follows step step') (hperforms : Performs book x step')
    (hbook : book.Outspoken) (hx : x.Outspoken) : Speaks step := by
  intro log log' why hrun
  obtain ⟨log₁, hendless⟩ | hfollows := hfollows log
  · rw [hrun] at hendless
    cases hendless
  · rw [hrun] at hfollows
    obtain ⟨f, log₁, hfault⟩ | ⟨log₁, hcut⟩ | ⟨code, r, n, journal, hemission, hrun'⟩ := hperforms log
    · rw [hfault] at hfollows
      cases hfollows
    · rw [hcut] at hfollows
      cases hfollows
    · rw [hrun'] at hfollows
      cases r with
      | ok a => cases hfollows
      | error why' =>
        cases hfollows
        exact hemission.isError hbook hx

end Selecting

namespace RuleBook

open Selecting

/-- Lowering to a depth performs the request. -/
theorem lowerWithin_performs (book : RuleBook) (depth : Nat) :
    (∀ s, Performs book (.lowerStm s) (book.lowerStmWithin depth s)) ∧
      ∀ e, Performs book (.lowerExp e) (book.lowerExpWithin depth e) := by
  induction depth with
  | zero => exact ⟨fun s => .cutOff _, fun e => .cutOff _⟩
  | succ depth ih =>
    refine ⟨fun s => .of_planStm ?_, fun e => .of_planExp ?_⟩
    · rw [lowerStmWithin, planStm]
      cases book.selectStm s with
      | error why =>
        cases why with
        | failed why => exact .refuse why
        | fault f => exact .fault _ f
      | ok chosen => exact (Performs.noteStm chosen.1.name s).bind fun _ => .run ih.1 ih.2 _
    · rw [lowerExpWithin, planExp]
      cases book.selectExp e with
      | error why =>
        cases why with
        | failed why => exact .refuse why
        | fault f => exact .fault _ f
      | ok chosen =>
        rw [← Action.bind_done (planOf _)]
        refine Performs.bind (.run ih.1 ih.2 _) fun t => ?_
        exact (Performs.noteExp chosen.1.name e t).bind fun _ => .done t

/-- Whatever is refused when an outspoken book lowers a tree, the refusal comes with an error. -/
theorem lowerStm_speaks {book : RuleBook} (hbook : book.Outspoken) (s : Stm) : Speaks (book.lowerStm s) :=
  .of_performs ((lowerWithin_follows book s.size).1 s (Nat.le_refl _)) ((lowerWithin_performs book s.size).1 s) hbook
    ⟨trivial, trivial⟩

theorem lowerExp_speaks {book : RuleBook} (hbook : book.Outspoken) (e : Exp) : Speaks (book.lowerExp e) :=
  .of_performs ((lowerWithin_follows book e.size).2 e (Nat.le_refl _)) ((lowerWithin_performs book e.size).2 e) hbook
    ⟨trivial, fun _ => trivial⟩

end RuleBook

end Lowering
