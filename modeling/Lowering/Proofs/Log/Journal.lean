import Lowering.Proofs.Log.Emission

/-!
# Selection does not read the journal

Two steps of selection agree if nothing but the journal can tell them apart: from logs that differ in the journal alone
they give the same answer, move the counters equally far and, unless they are refused, append the same code. The code of
a refused step is left open, since it depends on where the attempt began that takes it back. Agreement is kept by
everything that lowering is made of, so what happened before a tree is lowered matters through the counters and the code
only.
-/

namespace Lowering

/-- The session without its journal. -/
def Session.bare (session : Session) : Session := { session with journal := [] }

/-- The log without its journal. -/
def Log.bare (log : Log) : Log := { log with session := log.session.bare }

theorem Log.bare_eq_iff {log log' : Log} :
    log.bare = log'.bare ↔ log.session.bare = log'.session.bare ∧ log.code = log'.code := by
  rw [bare, bare, Log.mk.injEq]

theorem Log.bare_grown {log log' : Log} (hlog : log.bare = log'.bare) (n : Nat) (journal journal' : List Event)
    (code : List Instr) : (log.grown n journal code).bare = (log'.grown n journal' code).bare := by
  simp only [bare, Session.bare, grown, Log.mk.injEq, Session.mk.injEq, and_true, true_and] at hlog ⊢
  obtain ⟨⟨-, hlabels, hjournaling⟩, hcode⟩ := hlog
  exact ⟨⟨hlabels, hjournaling⟩, by rw [hcode]⟩

namespace Selecting

variable {α β : Type}

/-- The same answer and the same counters and, unless it is a refusal, the same code. -/
structure EndsAlike (o o' : Except (Stop Refusal) α × Log) : Prop where
  answer : o.1 = o'.1
  session : o.2.session.bare = o'.2.session.bare
  code : (∀ why, o.1 ≠ .error (.failed why)) → o.2.code = o'.2.code

namespace EndsAlike

variable {o o' o'' : Except (Stop Refusal) α × Log}

theorem symm (h : EndsAlike o o') : EndsAlike o' o :=
  ⟨h.answer.symm, h.session.symm, fun hcalm => (h.code (h.answer ▸ hcalm)).symm⟩

theorem trans (h : EndsAlike o o') (h' : EndsAlike o' o'') : EndsAlike o o'' :=
  ⟨h.answer.trans h'.answer, h.session.trans h'.session,
    fun hcalm => (h.code hcalm).trans (h'.code (h.answer ▸ hcalm))⟩

theorem bare_eq (h : EndsAlike o o') (hcalm : ∀ why, o.1 ≠ .error (.failed why)) : o.2.bare = o'.2.bare :=
  Log.bare_eq_iff.mpr ⟨h.session, h.code hcalm⟩

end EndsAlike

/-- Only the journal can tell the steps apart. -/
def Agree (x y : Selecting α) : Prop :=
  ∀ log log' : Log, log.bare = log'.bare → EndsAlike (x.run.run log) (y.run.run log')

namespace Agree

variable {x y z : Selecting α} {f g : α → Selecting β}

theorem symm (h : Agree x y) : Agree y x := fun log log' hlog => (h log' log hlog.symm).symm

theorem trans (h : Agree x y) (h' : Agree y z) : Agree x z :=
  fun log log' hlog => (h log log rfl).trans (h' log log' hlog)

theorem of_yields {code : Nat → List Instr} {r : Nat → Except (Stop Refusal) α} {next : Nat → Nat}
    (hx : ∀ n, Yields x n (code n) (r n) (next n)) (hy : ∀ n, Yields y n (code n) (r n) (next n)) : Agree x y := by
  intro log log' hlog
  have htemps : log'.session.temps = log.session.temps := congrArg (·.session.temps) hlog.symm
  obtain ⟨journal, hrun⟩ := hx _ log rfl
  obtain ⟨journal', hrun'⟩ := hy _ log' htemps
  rw [hrun, hrun']
  obtain ⟨hsession, hcode⟩ := Log.bare_eq_iff.mp (Log.bare_grown hlog _ journal journal' _)
  exact ⟨rfl, hsession, fun _ => hcode⟩

theorem pure (a : α) : Agree (Pure.pure a) (Pure.pure a) := of_yields (Yields.pure a) (Yields.pure a)

theorem throw (why : Stop Refusal) : Agree (MonadExcept.throw why : Selecting α) (MonadExcept.throw why) :=
  of_yields (Yields.throw why) (Yields.throw why)

theorem bind (hxy : Agree x y) (hfg : ∀ a, Agree (f a) (g a)) : Agree (x >>= f) (y >>= g) := by
  intro log log' hlog
  have h := hxy log log' hlog
  cases hx : x.run.run log with
  | mk r l =>
    cases hy : y.run.run log' with
    | mk r' l' =>
      rw [hx, hy] at h
      obtain rfl : r = r' := h.answer
      cases r with
      | ok a =>
        -- With an answer the code is the same as well, so the next steps start from logs that only journals tell apart.
        rw [bind_run_ok hx, bind_run_ok hy]
        exact hfg a l l' (h.bare_eq fun why hrefused => by cases hrefused)
      | error why =>
        rw [bind_run_error hx, bind_run_error hy]
        exact ⟨rfl, h.session, fun hcalm => h.code fun why heq =>
          hcalm why (congrArg Except.error (Except.error.inj heq))⟩

/-- Running an action agrees with itself, if lowering its parts does. -/
theorem run {stm : Stm → Selecting Unit} {exp : Exp → Selecting Temp} (hstm : ∀ s, Agree (stm s) (stm s))
    (hexp : ∀ e, Agree (exp e) (exp e)) (x : Action α) :
    Agree (x.run (handler stm exp)) (x.run (handler stm exp)) := by
  induction x with
  | done a => exact pure a
  | stm s next ih => exact (hstm s).bind fun _ => ih
  | exp e next ih => exact (hexp e).bind ih
  | fresh next ih => exact (of_yields Yields.fresh Yields.fresh).bind ih
  | emit code next ih => exact (of_yields (Yields.emit code) (Yields.emit code)).bind fun _ => ih
  | refuse why => exact throw _
  | fault f => exact throw _

theorem whenJournaling {step : Selecting Unit} (hstep : Agree step step) :
    Agree (Selecting.whenJournaling step) (Selecting.whenJournaling step) := by
  intro log log' hlog
  have hjournaling : log.session.journaling = log'.session.journaling := congrArg (·.session.journaling) hlog
  have hrun (log : Log) : (Selecting.whenJournaling step).run.run log =
      (if log.session.journaling = true then step else Pure.pure ()).run.run log := rfl
  rw [hrun, hrun, ← hjournaling]
  split
  · exact hstep log log' hlog
  · exact pure () log log' hlog

/-- A note that can be taken is as good as nothing. -/
theorem noteStm_pure (rule : Text) {s : Stm} (hs : s ≠ .hole) : Agree (Selecting.noteStm rule s) (Pure.pure ()) :=
  of_yields (Yields.noteStm rule hs) (Yields.pure ())

theorem noteStm (rule : Text) (s : Stm) : Agree (Selecting.noteStm rule s) (Selecting.noteStm rule s) := by
  by_cases hs : s = .hole
  · subst hs
    exact whenJournaling (throw _)
  · exact (noteStm_pure rule hs).trans (noteStm_pure rule hs).symm

theorem noteExp (rule : Text) (e : Exp) (t : Temp) :
    Agree (Selecting.noteExp rule e t) (Selecting.noteExp rule e t) := by
  by_cases he : e = .hole
  · subst he
    exact whenJournaling (throw _)
  · exact of_yields (Yields.noteExp rule he t) (Yields.noteExp rule he t)

/-- An attempt gives the answer of its steps, unless they refuse without an error. -/
theorem attempt (hxy : Agree x y) (hx : Speaks x) (unset : α) : Agree (Selecting.attempt unset x) y := by
  intro log log' hlog
  refine EndsAlike.trans ?_ (hxy log log' hlog)
  change EndsAlike (Selecting.attempt unset x log) (x log)
  rw [Selecting.attempt]
  split
  · next why log₁ hrun =>
    rw [hrun, answerTo, if_pos (hx log log₁ why hrun)]
    exact ⟨rfl, rfl, fun hcalm => absurd rfl (hcalm why)⟩
  · exact ⟨rfl, rfl, fun _ => rfl⟩

end Agree

end Selecting

namespace RuleBook

open Selecting

variable (book : RuleBook)

mutual

/-- Lowering a statement does not depend on the journal. -/
theorem lowerStm_agree (s : Stm) : Agree (book.lowerStm s) (book.lowerStm s) := by
  rw [RuleBook.lowerStm]
  cases book.selectStm s with
  | error why => exact .throw why
  | ok chosen =>
    refine (Agree.noteStm chosen.1.name s).bind fun _ => .run (fun s' => ?_) (fun e' => ?_) _
    · split
      · exact lowerStm_agree s'
      · exact .throw _
    · split
      · exact lowerExp_agree e'
      · exact .throw _
termination_by s.size

theorem lowerExp_agree (e : Exp) : Agree (book.lowerExp e) (book.lowerExp e) := by
  rw [RuleBook.lowerExp]
  cases book.selectExp e with
  | error why => exact .throw why
  | ok chosen =>
    refine Agree.bind (.run (fun s' => ?_) (fun e' => ?_) _) fun t => ?_
    · split
      · exact lowerStm_agree s'
      · exact .throw _
    · split
      · exact lowerExp_agree e'
      · exact .throw _
    · exact (Agree.noteExp chosen.1.name e t).bind fun _ => .pure t
termination_by e.size

end

end RuleBook

end Lowering
