import Lowering.Proofs.Log.Emission
import Lowering.Proofs.Matching.Subtrees

/-!
# Lowering ends

Lowering ends if from some depth of requests within requests on it is not cut off. A book consumes if no rule of it is
for a mere wildcard and its actions ask for captured trees only. Every request is then for a proper subtree, so no more
requests lie within each other than the tree has nodes. Selection comes to the same result, and the sizes that it
compares never stop it.
-/

namespace Lowering

/-! ### Books that consume -/

/-- The trees that captures hand out: captured ones, and the elements of captured lists. -/
def Captures.Offers (cs : Captures) (x : Subtree) : Prop := ∃ c ∈ cs, x ∈ c.trees

/-- The pattern is more than a wildcard, and the action has only captured trees lowered. -/
structure Rule.Consumes {k : Kind} {α : Type} (rule : Rule k α) : Prop where
  notBare : ∀ w, rule.pattern ≠ .wild w
  requests : ∀ node captures, rule.pattern.fit node = .ok captures → (rule.action captures).LowersOnly captures.Offers

/-- All rules of the book consume something of their nodes. -/
structure RuleBook.Consumes (book : RuleBook) : Prop where
  stm : ∀ rule ∈ book.stm.rules, rule.Consumes
  exp : ∀ rule ∈ book.exp.rules, rule.Consumes

/-! ### The depth is enough -/

namespace Selecting

variable {α : Type} {P : Subtree → Prop} {stm : Stm → Selecting Unit} {exp : Exp → Selecting Temp}
  {stm' : Stm → OptionT Selecting Unit} {exp' : Exp → OptionT Selecting Temp}

/-- An action is not cut off if none of its requests is. -/
theorem run_openHandler (hstm : ∀ s, P (.stm s) → stm' s = .lift (stm s))
    (hexp : ∀ e, P (.exp e) → exp' e = .lift (exp e))
    {x : Action α} (hx : x.LowersOnly P) : x.run (openHandler stm' exp') = .lift (x.run (handler stm exp)) := by
  induction x with
  | done a => rfl
  | stm s next ih =>
    change (stm' s >>= fun _ => next.run _) = .lift (stm s >>= fun _ => next.run _)
    rw [hstm s hx.1, OptionT.lift_bind]
    exact bind_congr fun _ => ih hx.2
  | exp e next ih =>
    change (exp' e >>= fun t => (next t).run _) = .lift (exp e >>= fun t => (next t).run _)
    rw [hexp e hx.1, OptionT.lift_bind]
    exact bind_congr fun t => ih t (hx.2 t)
  | fresh next ih =>
    change (.lift (session Session.freshTemp) >>= fun t => (next t).run _) =
      OptionT.lift (session Session.freshTemp >>= fun t => (next t).run _)
    rw [OptionT.lift_bind]
    exact bind_congr fun t => ih t (hx t)
  | emit code next ih =>
    change (.lift (emit code) >>= fun _ => next.run _) = OptionT.lift (emit code >>= fun _ => next.run _)
    rw [OptionT.lift_bind]
    exact bind_congr fun _ => ih hx
  | refuse why => rfl
  | fault f => rfl

theorem attempt_lift (unset : α) (x : Selecting α) :
    attempt (some unset) (OptionT.lift x).run = some <$> attempt unset x := by
  rw [OptionT.run_lift, ← attempt_map, map_eq_pure_bind]

end Selecting

/-- A rule that consumes has only smaller trees lowered. -/
theorem Rule.Consumes.requests_smaller {k : Kind} {α : Type} {rule : Rule k α} (h : rule.Consumes) {node : k.Value}
    {captures : Captures} (hfit : rule.pattern.fit node = .ok captures) {root : Subtree}
    (hroot : (Part.mk k node).trees = [root]) : (rule.action captures).LowersOnly fun x => x.size < root.size := by
  refine (h.requests node captures hfit).mono (fun x hx => ?_) fun _ h => h
  obtain ⟨c, hc, hx⟩ := hx
  obtain ⟨y, hy, hbelow⟩ := Pattern.beneath_of_fit h.notBare hfit hc hx
  rw [hroot, List.mem_singleton] at hy
  exact hy ▸ hbelow.size_lt

namespace RuleBook

open Selecting

variable {book : RuleBook}

/-- A book that consumes is never cut off at a depth of as many requests as a tree has nodes. -/
theorem Consumes.lowerWithin_eq (h : book.Consumes) (depth : Nat) :
    (∀ s, s.size ≤ depth → book.lowerStmWithin depth s = .lift (book.lowerStm s)) ∧
    ∀ e, e.size ≤ depth → book.lowerExpWithin depth e = .lift (book.lowerExp e) := by
  induction depth with
  | zero => exact ⟨fun s hs => absurd hs (Nat.not_le.mpr s.size_pos), fun e he => absurd he (Nat.not_le.mpr e.size_pos)⟩
  | succ depth ih =>
    -- Requests for trees smaller than the node pass the guard, and one level less is deep enough for them.
    have hrun {α : Type} {x : Action α} {n : Nat} (hn : n ≤ depth + 1) (hx : x.LowersOnly (Subtree.size · < n)) :
        x.run (openHandler (book.lowerStmWithin depth) (book.lowerExpWithin depth)) =
          .lift (x.run (handler (fun s' => if _h : s'.size < n then book.lowerStm s' else throw (.fault .endless))
            (fun e' => if _h : e'.size < n then book.lowerExp e' else throw (.fault .endless)))) := by
      refine run_openHandler (fun s' hs' => ?_) (fun e' he' => ?_) hx
      · have hs' : s'.size < n := hs'
        rw [ih.1 s' (by omega), dif_pos hs']
      · have he' : e'.size < n := he'
        rw [ih.2 e' (by omega), dif_pos he']
    constructor
    · intro s hs
      rw [lowerStmWithin, lowerStm]
      cases hselect : book.selectStm s with
      | error why => rfl
      | ok chosen =>
        have hroot : (Part.mk .stm s).trees = [.stm s] := rfl
        have hrequests :=
          (h.stm chosen.1 (of_select hselect).1).requests_smaller (of_select hselect).2 hroot
        rw [OptionT.lift_bind]
        exact bind_congr fun _ => hrun hs hrequests
    · intro e he
      rw [lowerExpWithin, lowerExp]
      cases hselect : book.selectExp e with
      | error why => rfl
      | ok chosen =>
        have hroot : (Part.mk .exp e).trees = [.exp e] := rfl
        have hrequests :=
          (h.exp chosen.1 (of_select hselect).1).requests_smaller (of_select hselect).2 hroot
        rw [OptionT.lift_bind]
        dsimp only
        rw [hrun he hrequests]
        refine bind_congr fun t => ?_
        rw [OptionT.lift_bind]
        rfl

end RuleBook

/-! ### The rules of the target -/

theorem Captures.mem_of_get? {k : Kind} {w : Wildcard k} {v : k.Value} {cs : Captures} (h : cs.get? w = some v) :
    ⟨w.slot, k, v⟩ ∈ cs := by
  fun_induction Captures.get? w cs with
  | case1 => cases h
  | case2 c rest hslot hkind =>
    obtain ⟨slot, kind, value⟩ := c
    obtain rfl : kind = _ := hkind
    obtain rfl : slot = w.slot := hslot
    obtain rfl : value = v := Option.some.inj h
    exact List.mem_cons_self
  | case3 => cases h
  | case4 c rest hslot ih => exact List.mem_cons_of_mem _ (ih h)

theorem Captures.offers_of_read {k : Kind} {w : Wildcard k} {v : k.Value} {cs : Captures} (h : cs.read w = .ok v)
    {x : Subtree} (hx : x ∈ (Part.mk k v).trees) : cs.Offers x := by
  rw [Captures.read] at h
  split at h
  · cases h
  · next u hget =>
    split at h
    · cases h
    · obtain rfl := Except.ok.inj h
      exact ⟨_, mem_of_get? hget, hx⟩

section Requests

open Lowering.Action

variable {α β : Type} {P : Subtree → Prop} {Q : Refusal → Prop}

@[simp] theorem obeys_pure (a : α) : (pure a : Action α).Obeys P Q := trivial

@[simp] theorem obeys_orFault (x : Except Fault α) : (orFault x).Obeys P Q := by
  cases x <;> trivial

@[simp] theorem obeys_orFault_bind (x : Except Fault α) (f : α → Action β) :
    (orFault x >>= f).Obeys P Q ↔ ∀ a, x = .ok a → (f a).Obeys P Q := by
  cases x with
  | ok a => exact ⟨fun h b hb => Except.ok.inj hb ▸ h, fun h => h a rfl⟩
  | error g => exact iff_of_true trivial fun _ ha => by cases ha

@[simp] theorem obeys_lowerStm (s : Stm) : (lowerStm s).Obeys P Q ↔ P (.stm s) := and_iff_left trivial

@[simp] theorem obeys_lowerStm_bind (s : Stm) (f : Unit → Action α) :
    (lowerStm s >>= f).Obeys P Q ↔ P (.stm s) ∧ (f ()).Obeys P Q := Iff.rfl

@[simp] theorem obeys_lowerExp (e : Exp) : (lowerExp e).Obeys P Q ↔ P (.exp e) :=
  and_iff_left fun _ => trivial

@[simp] theorem obeys_freshTemp_bind (f : Temp → Action α) :
    (freshTemp >>= f).Obeys P Q ↔ ∀ t, (f t).Obeys P Q := Iff.rfl

@[simp] theorem obeys_append (code : List Instr) : (append code).Obeys P Q := trivial

@[simp] theorem obeys_append_bind (code : List Instr) (f : Unit → Action α) :
    (append code >>= f).Obeys P Q ↔ (f ()).Obeys P Q := Iff.rfl

end Requests

namespace X86

section Requests

variable {α : Type} {P : Subtree → Prop} {Q : Refusal → Prop} {c : Captures}

theorem offers_stm (w : Wildcard .stm) {s : Stm} (h : c.read w = .ok s) : c.Offers (.stm s) :=
  Captures.offers_of_read h (List.mem_singleton_self _)

theorem offers_exp (w : Wildcard .exp) {e : Exp} (h : c.read w = .ok e) : c.Offers (.exp e) :=
  Captures.offers_of_read h (List.mem_singleton_self _)

@[simp] theorem obeys_lowered (w : Wildcard .exp) : (lowered w c).Obeys c.Offers Q :=
  (obeys_orFault_bind _ _).mpr fun _ he => (obeys_lowerExp _).mpr (offers_exp w he)

@[simp] theorem obeys_lowered_bind (w : Wildcard .exp) (f : Temp → Action α) :
    (lowered w c >>= f).Obeys c.Offers Q ↔ ∀ e, c.read w = .ok e → ∀ t, (f t).Obeys c.Offers Q := by
  have hbind : (lowered w c >>= f) = Action.orFault (c.read w) >>= fun e => .exp e f := by
    rw [lowered, read]
    cases c.read w with
    | ok e => rfl
    | error g => rfl
  rw [hbind, obeys_orFault_bind]
  exact ⟨fun h e he => (h e he).2, fun h e he => ⟨offers_exp w he, h e he⟩⟩

@[simp] theorem obeys_copied (src : Temp) : (copied src).Obeys P Q := fun _ => trivial

@[simp] theorem obeys_copied_bind (src : Temp) (f : Temp → Action α) :
    (copied src >>= f).Obeys P Q ↔ ∀ t, (f t).Obeys P Q := Iff.rfl

theorem obeys_lowerArgs {args : List Exp} (h : ∀ e ∈ args, P (.exp e)) : (lowerArgs args).Obeys P Q := by
  fun_induction lowerArgs args with
  | case1 => trivial
  | case2 i rest ih => exact (ih (List.forall_mem_cons.mp h).2).bind fun _ => trivial
  | case3 e rest _ ih =>
    obtain ⟨he, hrest⟩ := List.forall_mem_cons.mp h
    exact ⟨he, fun t => (ih hrest).bind fun _ => trivial⟩

/-- A call has its arguments lowered, which are elements of a captured list. -/
theorem obeys_args {f : Nat → Action Temp} (hf : ∀ n, (f n).Obeys c.Offers Q) :
    (read Wild.args c >>= fun args => pushArgs args >>= f).Obeys c.Offers Q := by
  refine (obeys_orFault_bind _ _).mpr fun args hargs => ?_
  have hoffers (e : Exp) (he : e ∈ args) : c.Offers (.exp e) := Captures.offers_of_read hargs (List.mem_map_of_mem he)
  have hpush : (pushArgs args).Obeys c.Offers Q := (obeys_lowerArgs hoffers).bind fun _ => trivial
  exact hpush.bind hf

@[simp] theorem obeys_afterCall (n : Nat) : (afterCall n).Obeys P Q := by
  rw [afterCall]
  split <;> simp [emit]

end Requests

/-- The pattern is more than a wildcard, and whatever was captured, the action has only captured trees lowered and does
not refuse without an error. -/
def Frugal {k : Kind} {α : Type} (rule : Rule k α) : Prop :=
  (∀ w, rule.pattern ≠ .wild w) ∧ ∀ c, (rule.action c).Obeys c.Offers fun why => why.isError = true

section Frugality

variable {k : Kind} {α : Type} {rule : Rule k α}

theorem Frugal.consumes (h : Frugal rule) : rule.Consumes :=
  ⟨h.1, fun _ c _ => (h.2 c).mono (fun _ hx => hx) fun _ _ => trivial⟩

theorem Frugal.outspoken (h : Frugal rule) (c : Captures) : (rule.action c).Outspoken :=
  (h.2 c).mono (fun _ _ => trivial) fun _ hwhy => hwhy

end Frugality

theorem storeRules_frugal : ∀ rule ∈ storeRules, Frugal rule := by
  simp [storeRules, Frugal, read, emit]

theorem moveRules_frugal : ∀ rule ∈ moveRules, Frugal rule := by
  simp [moveRules, Frugal, read, emit]

theorem controlRules_frugal : ∀ rule ∈ controlRules, Frugal rule := by
  simp +contextual [controlRules, Frugal, read, emit, offers_stm Wild.s, offers_stm Wild.r]

theorem loadRules_frugal : ∀ rule ∈ loadRules, Frugal rule := by
  simp [loadRules, Frugal, read, define, emit]

theorem arithRules_frugal (o : Arith) : ∀ rule ∈ arithRules o, Frugal rule := by
  cases o <;> simp [arithRules, Frugal, Pattern.binary, Arith.commutes, updateConst, update, read, emit]

theorem mulDivRules_frugal : ∀ rule ∈ mulDivRules, Frugal rule := by
  simp [mulDivRules, Frugal, Pattern.binary, update, read, define, emit]

theorem shiftRules_frugal (o : Shift) : ∀ rule ∈ shiftRules o, Frugal rule := by
  simp [shiftRules, Frugal, Pattern.binary, updateConst, read, emit]

theorem leafRules_frugal : ∀ rule ∈ leafRules, Frugal rule := by
  simp +contextual [leafRules, Frugal, read, define, emit, offers_stm Wild.s]

theorem callRules_frugal : ∀ rule ∈ callRules, Frugal rule := by
  simp only [callRules, List.forall_mem_cons]
  refine ⟨⟨fun w h => (by cases h), fun c => ?_⟩, ⟨fun w h => (by cases h), fun c => ?_⟩, List.forall_mem_nil _⟩
  · exact obeys_args fun n => by simp [read, emit]
  · exact (obeys_lowered Wild.f).bind fun a => obeys_args fun n => by simp [emit]

theorem stmRules_frugal : ∀ rule ∈ stmRules.rules, Frugal rule := by
  intro rule hrule
  simp only [stmRules, List.mem_append] at hrule
  obtain (hrule | hrule) | hrule := hrule
  · exact storeRules_frugal rule hrule
  · exact moveRules_frugal rule hrule
  · exact controlRules_frugal rule hrule

theorem expRules_frugal : ∀ rule ∈ expRules.rules, Frugal rule := by
  intro rule hrule
  simp only [expRules, List.mem_append, List.mem_flatMap] at hrule
  obtain ((((hrule | ⟨o, -, hrule⟩) | hrule) | ⟨o, -, hrule⟩) | hrule) | hrule := hrule
  · exact loadRules_frugal rule hrule
  · exact arithRules_frugal o rule hrule
  · exact mulDivRules_frugal rule hrule
  · exact shiftRules_frugal o rule hrule
  · exact leafRules_frugal rule hrule
  · exact callRules_frugal rule hrule

/-- The rules of the target consume. -/
theorem rules_consume : X86.rules.Consumes :=
  ⟨fun rule hrule => (stmRules_frugal rule hrule).consumes, fun rule hrule => (expRules_frugal rule hrule).consumes⟩

/-- The rules of the target refuse with an error, if at all. -/
theorem rules_outspoken : X86.rules.Outspoken :=
  ⟨fun rule hrule => (stmRules_frugal rule hrule).outspoken, fun rule hrule => (expRules_frugal rule hrule).outspoken⟩

end X86

/-- Lowering ends. The trees that a pattern captures, list elements included, are proper subtrees of the node, unless
the pattern is a mere wildcard. So a book that consumes, such as the one of the target, is never cut off at a depth of
as many requests as a tree has nodes, and ends as selection does. -/
theorem lowering_ends :
    ((∀ (p : Pattern .stm) (s : Stm) (cs : Captures), (∀ w, p ≠ .wild w) → p.fit s = .ok cs →
        ∀ c ∈ cs, ∀ x ∈ c.trees, x.Below (.stm s)) ∧
      ∀ (p : Pattern .exp) (e : Exp) (cs : Captures), (∀ w, p ≠ .wild w) → p.fit e = .ok cs →
        ∀ c ∈ cs, ∀ x ∈ c.trees, x.Below (.exp e)) ∧
    (∀ book : RuleBook, book.Consumes →
      (∀ s depth, s.size ≤ depth → book.tileStmWithin depth s = some <$> book.tileStm s) ∧
      ∀ e depth, e.size ≤ depth → book.tileExpWithin depth e = some <$> book.tileExp e) ∧
    X86.rules.Consumes := by
  refine ⟨⟨?_, ?_⟩, fun book hbook => ⟨fun s depth hdepth => ?_, fun e depth hdepth => ?_⟩, X86.rules_consume⟩
  · intro p s cs hp hfit c hc x hx
    obtain ⟨y, hy, hbelow⟩ := Pattern.beneath_of_fit hp hfit hc hx
    exact List.mem_singleton.mp hy ▸ hbelow
  · intro p e cs hp hfit c hc x hx
    obtain ⟨y, hy, hbelow⟩ := Pattern.beneath_of_fit hp hfit hc hx
    exact List.mem_singleton.mp hy ▸ hbelow
  · rw [RuleBook.tileStmWithin, (hbook.lowerWithin_eq depth).1 s hdepth, Selecting.attempt_lift, RuleBook.tileStm]
  · rw [RuleBook.tileExpWithin, (hbook.lowerWithin_eq depth).2 e hdepth, Selecting.attempt_lift, RuleBook.tileExp]

/-- One rule, for any statement, that has the statement lowered again. -/
def selfLowering : RuleBook where
  stm := ⟨"stm", [⟨"again", .wild ⟨0⟩, fun c => Action.orFault (c.read (⟨0⟩ : Wildcard .stm)) >>= Action.lowerStm⟩]⟩
  exp := ⟨"exp", []⟩

/-- Lowering by a mere wildcard is cut off at every depth. -/
theorem selfLowering_never_ends (l : Label) (depth n : Nat) :
    (selfLowering.tileStmWithin depth (.label l)).Yields n [] (.ok none) n := by
  refine Selecting.Yields.attempt ?_ fun _ h => by cases h
  induction depth with
  | zero => exact .pure none n
  | succ depth ih =>
    have hrun : (selfLowering.lowerStmWithin (depth + 1) (.label l)).run =
        Selecting.noteStm "again" (.label l) >>= fun _ => (selfLowering.lowerStmWithin depth (.label l)).run := by
      have hagain : selfLowering.lowerStmWithin (depth + 1) (.label l) =
          OptionT.lift (Selecting.noteStm "again" (.label l)) >>= fun _ =>
            selfLowering.lowerStmWithin depth (.label l) >>= pure := by
        rw [RuleBook.lowerStmWithin]
        rfl
      rw [hagain, OptionT.run_bind]
      simp
    rw [hrun]
    exact (Selecting.Yields.noteStm "again" Stm.noConfusion n).bind ih

/-- A captured argument is below its call, and a store that holds the call twice ends at a depth of its sixteen nodes. A
mere wildcard that lowers what it captured comes to no end. -/
theorem storedCall_lowering_ends :
    let p : Pattern .exp := .call (.name (.wild ⟨0⟩)) (.wild ⟨1⟩)
    let arg : Exp := .mem (.temp ⟨1⟩)
    let call : Exp := .call (.name "f") [.const 1, arg]
    let s : Stm := .move (.mem (.bin .plus call (.const 4))) (.eseq (.label "L") call)
    (∃ cs, p.fit call = .ok cs ∧ ∃ c ∈ cs, Subtree.exp arg ∈ c.trees ∧ (Subtree.exp arg).Below (.exp call)) ∧
    (X86.rules.Consumes ∧ s.size = 16 ∧
      ∀ depth, 16 ≤ depth → X86.rules.tileStmWithin depth s = some <$> X86.rules.tileStm s) ∧
    ¬ selfLowering.Consumes ∧
      ∀ depth log, ((selfLowering.tileStmWithin depth (.label "L")).run.run log).1 = .ok none := by
  intro p arg call s
  have hmem : Subtree.exp arg ∈ (Capture.mk 1 .exps [.const 1, arg]).trees := List.mem_cons_of_mem _ List.mem_cons_self
  refine ⟨⟨_, rfl, ⟨1, .exps, [.const 1, arg]⟩, List.mem_cons_of_mem _ List.mem_cons_self, hmem, ?_⟩,
    ⟨X86.rules_consume, rfl, fun depth hdepth => ?_⟩, fun h => ?_, fun depth log => ?_⟩
  · have hp (w : Wildcard .exp) : p ≠ .wild w := fun h : Pattern.call _ _ = .wild w => by cases h
    exact lowering_ends.1.2 p call _ hp rfl _ (List.mem_cons_of_mem _ List.mem_cons_self) _ hmem
  · exact (lowering_ends.2.1 X86.rules lowering_ends.2.2).1 s depth hdepth
  · exact (h.stm _ List.mem_cons_self).notBare ⟨0⟩ rfl
  · obtain ⟨journal, hrun⟩ := selfLowering_never_ends "L" depth _ log rfl
    rw [hrun]

end Lowering
