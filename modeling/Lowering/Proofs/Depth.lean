import Lowering.Proofs.Selecting
import Lowering.Proofs.Tiling.Tile

/-!
# Lowering to a depth

Lowering hands a tree to the action of a rule, and the action may have other trees lowered. Nothing in a rule keeps it
from asking for its own node again, or for a tree that it made up, so lowering as such need not end. It is stated here
without any look at the size of trees, cut off at a given depth of requests within requests. What an action asks for is
told by `Action.Obeys`, apart from what becomes of its requests.
-/

namespace Lowering

/-! ### Requests of an action -/

namespace Action

variable {α β : Type} {P P' : Subtree → Prop} {Q Q' : Refusal → Prop}

/-- Whatever registers the action is handed, the trees that it asks to be lowered have the one property, and its
refusals have the other. -/
def Obeys (P : Subtree → Prop) (Q : Refusal → Prop) : Action α → Prop
  | .done _ => True
  | .stm s next => P (.stm s) ∧ next.Obeys P Q
  | .exp e next => P (.exp e) ∧ ∀ t, (next t).Obeys P Q
  | .fresh next => ∀ t, (next t).Obeys P Q
  | .emit _ next => next.Obeys P Q
  | .refuse why => Q why
  | .fault _ => True

/-- The trees that the action asks to be lowered have the property. -/
def LowersOnly (P : Subtree → Prop) (x : Action α) : Prop := x.Obeys P fun _ => True

/-- The action does not refuse without an error. -/
def Outspoken (x : Action α) : Prop := x.Obeys (fun _ => True) fun why => why.isError = true

namespace Obeys

theorem mono {x : Action α} (h : x.Obeys P Q) (hP : ∀ y, P y → P' y) (hQ : ∀ why, Q why → Q' why) : x.Obeys P' Q' := by
  induction x with
  | done a => trivial
  | stm s next ih => exact ⟨hP _ h.1, ih h.2⟩
  | exp e next ih => exact ⟨hP _ h.1, fun t => ih t (h.2 t)⟩
  | fresh next ih => exact fun t => ih t (h t)
  | emit code next ih => exact ih h
  | refuse why => exact hQ why h
  | fault f => trivial

theorem bind {x : Action α} {f : α → Action β} (hx : x.Obeys P Q) (hf : ∀ a, (f a).Obeys P Q) :
    (x >>= f).Obeys P Q := by
  induction x with
  | done a => exact hf a
  | stm s next ih => exact ⟨hx.1, ih hx.2⟩
  | exp e next ih => exact ⟨hx.1, fun t => ih t (hx.2 t)⟩
  | fresh next ih => exact fun t => ih t (hx t)
  | emit code next ih => exact ih hx
  | refuse why => exact hx
  | fault f => trivial

end Obeys

end Action

/-- No action of the book refuses without an error. -/
structure RuleBook.Outspoken (book : RuleBook) : Prop where
  stm : ∀ rule ∈ book.stm.rules, ∀ captures, (rule.action captures).Outspoken
  exp : ∀ rule ∈ book.exp.rules, ∀ captures, (rule.action captures).Outspoken

/-! ### Lowering to a depth -/

namespace Selecting

/-- The meaning of requests where lowering subtrees may be cut off. -/
def openHandler (stm : Stm → OptionT Selecting Unit) (exp : Exp → OptionT Selecting Temp) :
    Action.Handler (OptionT Selecting) where
  stm := stm
  exp := exp
  fresh := .lift (session Session.freshTemp)
  emit code := .lift (emit code)
  refuse why := .lift (throw (.failed why))
  fault f := .lift (throw (.fault f))

end Selecting

namespace RuleBook

mutual

/-- Lowers a statement by the rule chosen for it, whatever trees the rule asks for, and is cut off at a depth. -/
def lowerStmWithin (book : RuleBook) : Nat → Stm → OptionT Selecting Unit
  | 0, _ => failure
  | depth + 1, s =>
    match book.selectStm s with
    | .error why => .lift (throw why)
    | .ok (rule, captures) => do
      OptionT.lift (Selecting.noteStm rule.name s)
      (rule.action captures).run (Selecting.openHandler (book.lowerStmWithin depth) (book.lowerExpWithin depth))

@[inherit_doc lowerStmWithin]
def lowerExpWithin (book : RuleBook) : Nat → Exp → OptionT Selecting Temp
  | 0, _ => failure
  | depth + 1, e =>
    match book.selectExp e with
    | .error why => .lift (throw why)
    | .ok (rule, captures) => do
      let t ← (rule.action captures).run
        (Selecting.openHandler (book.lowerStmWithin depth) (book.lowerExpWithin depth))
      OptionT.lift (Selecting.noteExp rule.name e t)
      return t

end

/-- Lowers a whole statement; `none` if it is cut off. -/
def tileStmWithin (book : RuleBook) (depth : Nat) (s : Stm) : Selecting (Option Unit) :=
  Selecting.attempt (some ()) (book.lowerStmWithin depth s).run

/-- Lowers a whole expression; `none` if it is cut off. -/
def tileExpWithin (book : RuleBook) (depth : Nat) (e : Exp) : Selecting (Option Temp) :=
  Selecting.attempt (some ⟨0⟩) (book.lowerExpWithin depth e).run

/-! ### Chosen rules -/

variable {k : Kind} {α : Type} {node : k.Value} {rule : Rule k α} {captures : Captures}

theorem of_firstFit {rules : List (Rule k α)} (h : RuleSet.firstFit node rules = .ok (rule, captures)) :
    rule ∈ rules ∧ rule.pattern.fit node = .ok captures := by
  fun_induction RuleSet.firstFit node rules with
  | case1 | case4 => cases h
  | case2 rule rest captures hfit =>
    cases h
    exact ⟨List.mem_cons_self, hfit⟩
  | case3 rule rest why hfit ih => exact ⟨List.mem_cons_of_mem _ (ih h).1, (ih h).2⟩

/-- A rule that is chosen stands in its set and fits the node. -/
theorem of_select {set : RuleSet k α} {why : Stop Misfit → Stop Refusal}
    (h : (set.select node).mapError why = .ok (rule, captures)) :
    rule ∈ set.rules ∧ rule.pattern.fit node = .ok captures := by
  cases hselect : set.select node with
  | error misfit =>
    rw [hselect] at h
    cases h
  | ok chosen =>
    rw [hselect] at h
    cases h
    exact of_firstFit hselect

end RuleBook

/-! ### Steps in a row -/

section

variable {α β : Type} {x : OptionT Selecting α} {f : α → OptionT Selecting β} {log log' : Log}

theorem bind_run_some {a : α} (hx : x.run.run.run log = (.ok (some a), log')) :
    (x >>= f).run.run.run log = (f a).run.run.run log' := by
  rw [OptionT.run_bind]
  exact bind_run_ok hx

theorem bind_run_none (hx : x.run.run.run log = (.ok none, log')) : (x >>= f).run.run.run log = (.ok none, log') := by
  rw [OptionT.run_bind]
  exact bind_run_ok hx

theorem bind_run_stop {why : Stop Refusal} (hx : x.run.run.run log = (.error why, log')) :
    (x >>= f).run.run.run log = (.error why, log') := by
  rw [OptionT.run_bind]
  exact bind_run_error hx

end

namespace Selecting

variable {α β : Type} {x : Selecting α} {y : OptionT Selecting α} {f : α → Selecting β} {g : α → OptionT Selecting β}

theorem map_run (f : α → β) (x : Selecting α) (log : Log) :
    (f <$> x).run.run log = ((x.run.run log).1.map f, (x.run.run log).2) := by
  rw [ExceptT.run_map, StateT.run_map]
  rfl

theorem lift_run (x : Selecting α) (log : Log) :
    (OptionT.lift x).run.run.run log = ((x.run.run log).1.map some, (x.run.run log).2) := by
  rw [OptionT.run_lift, ← map_run, map_eq_pure_bind]

theorem attempt_map (f : α → β) (unset : α) (x : Selecting α) :
    attempt (f unset) (f <$> x) = f <$> attempt unset x := by
  funext log
  have hmap (y : Selecting α) : (f <$> y) log = ((y log).1.map f, (y log).2) := map_run f y log
  rw [hmap, attempt, attempt, hmap]
  cases x log with
  | mk r log' =>
    cases r with
    | ok a => rfl
    | error why =>
      cases why with
      | failed why =>
        dsimp only [Except.map]
        rw [answerTo, answerTo]
        split <;> rfl
      | fault g => rfl

/-! ### Selection and depth -/

/-- Unless the first step is stopped for want of a smaller tree, the second one ends as it does. -/
def Follows (x : Selecting α) (y : OptionT Selecting α) : Prop :=
  ∀ log, (∃ log', x.run.run log = (.error (.fault .endless), log')) ∨
    y.run.run.run log = ((x.run.run log).1.map some, (x.run.run log).2)

namespace Follows

theorem lift (x : Selecting α) : Follows x (.lift x) := fun log => .inr (lift_run x log)

theorem endless (y : OptionT Selecting α) : Follows (throw (.fault .endless)) y := fun log => .inl ⟨log, rfl⟩

theorem bind (hxy : Follows x y) (hfg : ∀ a, Follows (f a) (g a)) : Follows (x >>= f) (y >>= g) := by
  intro log
  obtain ⟨log', hrun⟩ | hrun := hxy log
  · exact .inl ⟨log', bind_run_error hrun⟩
  · cases hx : x.run.run log with
    | mk r log' =>
      rw [hx] at hrun
      cases r with
      | error why =>
        rw [bind_run_error hx]
        exact .inr (bind_run_stop hrun)
      | ok a =>
        rw [bind_run_ok hx, bind_run_some hrun]
        exact hfg a log'

/-- Running an action to a depth follows running it, if lowering its parts does. -/
theorem run {stm : Stm → Selecting Unit} {exp : Exp → Selecting Temp} {stm' : Stm → OptionT Selecting Unit}
    {exp' : Exp → OptionT Selecting Temp} (hstm : ∀ s, Follows (stm s) (stm' s)) (hexp : ∀ e, Follows (exp e) (exp' e))
    (x : Action α) : Follows (x.run (handler stm exp)) (x.run (openHandler stm' exp')) := by
  induction x with
  | done a => exact lift (pure a)
  | stm s next ih => exact (hstm s).bind fun _ => ih
  | exp e next ih => exact (hexp e).bind ih
  | fresh next ih => exact (lift _).bind ih
  | emit code next ih => exact (lift _).bind fun _ => ih
  | refuse why => exact lift _
  | fault f => exact lift _

theorem attempt (hxy : Follows x y) (unset : α) : Follows (attempt unset x) (attempt (some unset) y.run) := by
  intro log
  obtain ⟨log', hx⟩ | hy := hxy log
  · have hx : x log = _ := hx
    refine .inl ⟨log', ?_⟩
    change Selecting.attempt unset x log = _
    rw [Selecting.attempt, hx]
  · refine .inr ?_
    rw [← map_run] at hy ⊢
    rw [← attempt_map]
    change y.run log = (some <$> x) log at hy
    change Selecting.attempt (some unset) y.run log = Selecting.attempt (some unset) (some <$> x) log
    rw [Selecting.attempt, Selecting.attempt, hy]

end Follows

end Selecting

theorem Stm.size_pos (s : Stm) : 0 < s.size := by
  cases s <;> simp [Stm.size]

theorem Exp.size_pos (e : Exp) : 0 < e.size := by
  cases e <;> simp [Exp.size]

namespace RuleBook

open Selecting

/-- At a depth of as many requests as a tree has nodes, lowering follows selection. -/
theorem lowerWithin_follows (book : RuleBook) (depth : Nat) :
    (∀ s, s.size ≤ depth → Follows (book.lowerStm s) (book.lowerStmWithin depth s)) ∧
      ∀ e, e.size ≤ depth → Follows (book.lowerExp e) (book.lowerExpWithin depth e) := by
  induction depth with
  | zero => exact ⟨fun s hs => absurd hs (Nat.not_le.mpr s.size_pos), fun e he => absurd he (Nat.not_le.mpr e.size_pos)⟩
  | succ depth ih =>
    -- Selection has only trees smaller than the node lowered, and one level less is deep enough for them.
    have hrun {α : Type} (x : Action α) {n : Nat} (hn : n ≤ depth + 1) :
        Follows (x.run (handler (fun s' => if _h : s'.size < n then book.lowerStm s' else throw (.fault .endless))
            (fun e' => if _h : e'.size < n then book.lowerExp e' else throw (.fault .endless))))
          (x.run (openHandler (book.lowerStmWithin depth) (book.lowerExpWithin depth))) := by
      refine .run (fun s' => ?_) (fun e' => ?_) x
      · split
        · exact ih.1 s' (by omega)
        · exact .endless _
      · split
        · exact ih.2 e' (by omega)
        · exact .endless _
    constructor
    · intro s hs
      rw [lowerStm, lowerStmWithin]
      cases book.selectStm s with
      | error why => exact .lift _
      | ok chosen => exact (Follows.lift _).bind fun _ => hrun _ hs
    · intro e he
      rw [lowerExp, lowerExpWithin]
      cases book.selectExp e with
      | error why => exact .lift _
      | ok chosen => exact (hrun _ he).bind fun t => (Follows.lift _).bind fun _ => .lift (pure t)

end RuleBook

end Lowering
