import Lowering.Selection

/-!
# Steps of selection

What the rest of the theory knows of selection as a computation. Running an action follows its requests,
code that is appended in two goes is code that is appended in one, and appending code does not disturb the
next fresh register. `Yields` says what a step does to the counter and to the log whatever the journal holds;
steps are put together through its lemmas and are not opened again.
-/

namespace Lowering

/-! ### Steps in a row -/

section

variable {ε σ α β : Type} {x : ExceptT ε (StateM σ) α} {f : α → ExceptT ε (StateM σ) β} {s s' : σ}

theorem bind_run_ok {a : α} (hx : x.run.run s = (.ok a, s')) : (x >>= f).run.run s = (f a).run.run s' := by
  change (match x.run.run s with | (r, s') => (ExceptT.bindCont f r).run s') = _
  rw [hx]
  rfl

theorem bind_run_error {why : ε} (hx : x.run.run s = (.error why, s')) : (x >>= f).run.run s = (.error why, s') := by
  change (match x.run.run s with | (r, s') => (ExceptT.bindCont f r).run s') = _
  rw [hx]
  rfl

/-- If what follows cannot fail, the first step did. -/
theorem run_error_of_bind {why : ε} (hf : ∀ a s, ∃ b s', (f a).run.run s = (.ok b, s'))
    (hrun : (x >>= f).run.run s = (.error why, s')) : x.run.run s = (.error why, s') := by
  cases hx : x.run.run s with
  | mk r s₁ =>
    cases r with
    | ok a =>
      obtain ⟨b, s₂, hok⟩ := hf a s₁
      rw [bind_run_ok hx, hok] at hrun
      cases hrun
    | error why' =>
      rw [bind_run_error hx] at hrun
      cases hrun
      rfl

end

/-! ### Actions and the log -/

namespace Selecting

variable {α β : Type} (stm : Stm → Selecting Unit) (exp : Exp → Selecting Temp)

theorem run_bind [S : Supply] (x : Action α) (f : α → Action β) :
    (x >>= f).run (handler stm exp) = x.run (handler stm exp) >>= fun a => (f a).run (handler stm exp) := by
  induction x with
  | done a => rfl
  | stm s next ih =>
    change (stm s >>= fun _ => (next >>= f).run _) = (stm s >>= fun _ => next.run _) >>= _
    rw [ih, bind_assoc]
  | exp e next ih =>
    change (exp e >>= fun t => (next t >>= f).run _) = (exp e >>= fun t => (next t).run _) >>= _
    rw [bind_assoc]
    exact bind_congr ih
  | fresh next ih =>
    change (session Session.freshTemp >>= fun t => (next t >>= f).run _) =
      (session Session.freshTemp >>= fun t => (next t).run _) >>= _
    rw [bind_assoc]
    exact bind_congr ih
  | emit code next ih =>
    change (emit code >>= fun _ => (next >>= f).run _) = (emit code >>= fun _ => next.run _) >>= _
    rw [ih, bind_assoc]
  | refuse why => rfl
  | fault g => rfl

theorem emit_emit (a b : List Instr) (k : Unit → Selecting α) :
    (emit a >>= fun _ => emit b >>= k) = emit (a ++ b) >>= k := by
  funext log
  change k () ⟨log.session, log.code ++ a ++ b⟩ = k () ⟨log.session, log.code ++ (a ++ b)⟩
  rw [List.append_assoc]

theorem emit_nil (k : Unit → Selecting α) : (emit [] >>= k) = k () := by
  funext log
  change k () ⟨log.session, log.code ++ []⟩ = k () log
  rw [List.append_nil]

/-- Appending code leaves the next fresh register alone. -/
theorem emit_fresh [S : Supply] (a : List Instr) (k : Temp → Selecting α) :
    (emit a >>= fun _ => session Session.freshTemp >>= k) =
      (session Session.freshTemp >>= fun t => emit a >>= fun _ => k t) := rfl

/-! ### What a step yields -/

/-- From counter `n` the step ends with `r` and counter `n'`, having appended `code` to the log. Nothing is
said of the journal. -/
def Yields (x : Selecting α) (n : Nat) (code : List Instr) (r : Except (Stop Refusal) α) (n' : Nat) : Prop :=
  ∀ log : Log, log.session.temps = n →
    ∃ journal, x.run.run log =
      (r, { session := { log.session with temps := n', journal }, code := log.code ++ code })

namespace Yields

variable {x : Selecting α} {f : α → Selecting β} {a : α} {code code' : List Instr} {n n₁ n₂ : Nat}

theorem pure (a : α) (n : Nat) : Yields (Pure.pure a) n [] (.ok a) n := by
  rintro log rfl
  exact ⟨log.session.journal, by rw [List.append_nil]; rfl⟩

theorem throw (why : Stop Refusal) (n : Nat) : Yields (MonadExcept.throw why : Selecting α) n [] (.error why) n := by
  rintro log rfl
  exact ⟨log.session.journal, by rw [List.append_nil]; rfl⟩

theorem emit (code : List Instr) (n : Nat) : Yields (Selecting.emit code) n code (.ok ()) n := by
  rintro log rfl
  exact ⟨log.session.journal, rfl⟩

theorem fresh [S : Supply] (n : Nat) : Yields (session Session.freshTemp) n [] (.ok (S.register n)) (n + 1) := by
  rintro log rfl
  exact ⟨log.session.journal, by rw [List.append_nil]; rfl⟩

theorem bind {r : Except (Stop Refusal) β} (hx : Yields x n code (.ok a) n₁) (hf : Yields (f a) n₁ code' r n₂) :
    Yields (x >>= f) n (code ++ code') r n₂ := by
  intro log hlog
  obtain ⟨journal, hrun⟩ := hx log hlog
  obtain ⟨journal', hrun'⟩ :=
    hf { session := { log.session with temps := n₁, journal }, code := log.code ++ code } rfl
  refine ⟨journal', ?_⟩
  rw [bind_run_ok hrun, hrun', List.append_assoc]

theorem bind_error {why : Stop Refusal} (hx : Yields x n code (.error why) n₁) :
    Yields (x >>= f) n code (.error why) n₁ := by
  intro log hlog
  obtain ⟨journal, hrun⟩ := hx log hlog
  exact ⟨journal, bind_run_error hrun⟩

theorem record (e : Event) (n : Nat) : Yields (session (Session.record e)) n [] (.ok ()) n := by
  rintro log rfl
  rw [List.append_nil]
  cases hjournaling : log.session.journaling with
  | true =>
    refine ⟨log.session.journal ++ [e], ?_⟩
    change (Except.ok (), Log.mk (if log.session.journaling = true then _ else _) log.code) = _
    rw [if_pos hjournaling]
  | false =>
    refine ⟨log.session.journal, ?_⟩
    change (Except.ok (), Log.mk (if log.session.journaling = true then _ else _) log.code) = _
    rw [if_neg (by rw [hjournaling]; exact Bool.false_ne_true)]

theorem whenJournaling {step : Selecting Unit} (hstep : Yields step n [] (.ok ()) n) :
    Yields (Selecting.whenJournaling step) n [] (.ok ()) n := by
  intro log hlog
  cases hjournaling : log.session.journaling with
  | true =>
    obtain ⟨journal, hrun⟩ := hstep log hlog
    refine ⟨journal, ?_⟩
    rw [← hrun]
    change (if log.session.journaling = true then step else Pure.pure ()).run.run log = _
    rw [if_pos hjournaling]
  | false =>
    refine ⟨log.session.journal, ?_⟩
    change (if log.session.journaling = true then step else Pure.pure ()).run.run log = _
    rw [if_neg (by rw [hjournaling]; exact Bool.false_ne_true), List.append_nil, ← hlog]
    rfl

theorem noteStm (rule : Text) {s : Stm} (hs : s ≠ .hole) (n : Nat) :
    Yields (Selecting.noteStm rule s) n [] (.ok ()) n := by
  cases s with
  | hole => exact absurd rfl hs
  | _ => exact whenJournaling (record _ n)

theorem noteExp (rule : Text) {e : Exp} (he : e ≠ .hole) (reg : Temp) (n : Nat) :
    Yields (Selecting.noteExp rule e reg) n [] (.ok ()) n := by
  cases e with
  | hole => exact absurd rfl he
  | _ => exact whenJournaling (record _ n)

/-- An attempt changes nothing unless it is refused. -/
theorem attempt {unset : α} {r : Except (Stop Refusal) α} (hx : Yields x n code r n₁)
    (hr : ∀ why, r ≠ .error (.failed why)) : Yields (Selecting.attempt unset x) n code r n₁ := by
  intro log hlog
  obtain ⟨journal, hrun⟩ := hx log hlog
  refine ⟨journal, ?_⟩
  have hrun : x log = _ := hrun
  change Selecting.attempt unset x log = _
  rw [Selecting.attempt, hrun]
  split
  · next why _ heq => exact absurd (Prod.mk.inj heq).1 (hr why)
  · rfl

end Yields

end Selecting

end Lowering
