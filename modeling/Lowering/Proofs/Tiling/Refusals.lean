import Lowering.Proofs.Ending
import Lowering.Proofs.Tiling.Coverage
import Lowering.Proofs.Tiling.Places

/-!
# Trees without holes

A tree in which nothing is missing is either lowered as `Lowers` says or refused. It is refused at the first node that
lowering comes to and that has no tile: a move to something that is neither a register nor memory, or an operator
outside the list. So whenever selection of such a tree succeeds, its code has a derivation.
-/

namespace Lowering

mutual

/-- Is nothing missing from the tree? -/
def Stm.whole : Stm → Bool
  | .hole => false
  | .move dst src => dst.whole && src.whole
  | .exp e => e.whole
  | .label _ => true
  | .seq first second => first.whole && second.whole
  | .jump target _ => target.whole
  | .cjump _ left right _ _ => left.whole && right.whole

@[inherit_doc Stm.whole]
def Exp.whole : Exp → Bool
  | .hole => false
  | .const _ => true
  | .temp _ => true
  | .bin _ left right => left.whole && right.whole
  | .mem addr => addr.whole
  | .call func args => func.whole && Exp.wholeAll args
  | .name _ => true
  | .eseq s e => s.whole && e.whole

@[inherit_doc Stm.whole]
def Exp.wholeAll : List Exp → Bool
  | [] => true
  | e :: es => e.whole && Exp.wholeAll es

end

@[inherit_doc Stm.whole]
def Subtree.whole : Subtree → Bool
  | .stm s => s.whole
  | .exp e => e.whole

theorem Exp.wholeAll_iff {args : List Exp} : Exp.wholeAll args = true ↔ ∀ e ∈ args, e.whole = true := by
  induction args with
  | nil => simp [Exp.wholeAll]
  | cons e rest ih => simp [Exp.wholeAll, ih]

theorem Exp.hole_not_mem_of_wholeAll {args : List Exp} (hargs : Exp.wholeAll args = true) : Exp.hole ∉ args := by
  intro hmem
  exact Bool.noConfusion (Exp.wholeAll_iff.mp hargs _ hmem)

theorem Subtree.isHole_of_whole {x : Subtree} (hx : x.whole = true) : x.isHole = false := by
  rcases x with s | e
  · cases s <;> first | rfl | cases hx
  · cases e <;> first | rfl | cases hx

namespace X86

open Selecting

theorem Covers.whole_parts {x : Subtree} {tile : Tile} (hcovers : Covers x tile) (hx : x.whole = true) :
    ∀ y ∈ tile.parts, y.whole = true := by
  have hargs (args : List Exp) (h : Exp.wholeAll args = true) :
      ∀ y ∈ (registerArgs args).map Subtree.exp, y.whole = true := by
    intro y hy
    obtain ⟨e, he, rfl⟩ := List.mem_map.mp hy
    exact Exp.wholeAll_iff.mp h e (mem_of_mem_registerArgs he)
  cases hcovers with
  | call l args => exact hargs args hx
  | callReg func args =>
    obtain ⟨hfunc, hrest⟩ := Bool.and_eq_true_iff.mp hx
    exact List.forall_mem_cons.mpr ⟨hfunc, hargs args hrest⟩
  | _ => simp_all [Tile.parts, Subtree.whole, Stm.whole, Exp.whole]

/-! ### Refusals -/

/-- The complaint that no rule of the target fits a node. -/
def unmatched : Subtree → Refusal
  | .stm s => .unmatchedStm stmRules.name s
  | .exp e => .unmatchedExp expRules.name e

theorem selectStm_refused {s : Stm} (hs : s.whole = true) (htile : tile? (.stm s) = none) :
    X86.rules.selectStm s = .error (.failed (unmatched (.stm s))) := by
  cases s with
  | hole => cases hs
  | move dst src =>
    cases dst with
    | hole => cases hs
    | temp t => cases htile
    | mem addr => cases htile
    | _ => rfl
  | jump target labels => cases target <;> cases htile
  | _ => cases htile

theorem selectExp_refused {e : Exp} (he : e.whole = true) (htile : tile? (.exp e) = none) :
    X86.rules.selectExp e = .error (.failed (unmatched (.exp e))) := by
  cases e with
  | hole => cases he
  | bin op left right =>
    cases op with
    | other n => rfl
    | _ => cases htile
  | call func args => cases func <;> cases htile
  | _ => cases htile

theorem lowerStmPart_refused {s : Stm} (hs : s.whole = true) (htile : tile? (.stm s) = none) (n : Nat) :
    (lowerStmPart X86.rules.lowerStm s).Yields n [] (.error (.failed (unmatched (.stm s)))) n := by
  have hhole : Kind.stm.isHole s = false := @Subtree.isHole_of_whole (.stm s) hs
  rw [lowerStmPart, hhole, if_neg Bool.false_ne_true, RuleBook.lowerStm, selectStm_refused hs htile]
  exact Yields.throw _ n

theorem lowerExpPart_refused {e : Exp} (he : e.whole = true) (htile : tile? (.exp e) = none) (n : Nat) :
    (lowerExpPart X86.rules.lowerExp e).Yields n [] (.error (.failed (unmatched (.exp e)))) n := by
  have hhole : Kind.exp.isHole e = false := @Subtree.isHole_of_whole (.exp e) he
  rw [lowerExpPart, hhole, if_neg Bool.false_ne_true, RuleBook.lowerExp, selectExp_refused he htile]
  exact Yields.throw _ n

theorem hole_not_mem_of_whole {e : Exp} (he : e.whole = true) (func : Exp) (args : List Exp)
    (hcall : e = .call func args) : Exp.hole ∉ args := by
  subst hcall
  exact Exp.hole_not_mem_of_wholeAll (Bool.and_eq_true_iff.mp he).2

/-- Selection of trees without holes follows a derivation, or comes to a node that has no tile and is refused there. -/
theorem lowers_or_fails (xs : List Subtree) (hxs : ∀ x ∈ xs, x.whole = true) (n : Nat) :
    (∃ code regs n', Lowers n xs code regs n') ∨
    ∃ code x k, Visits n xs code x k ∧ x.whole = true ∧ tile? x = none ∧
      (lowerParts X86.rules.lowerStm X86.rules.lowerExp xs).Yields n code (.error (.failed (unmatched x))) k := by
  induction hsize : Subtree.sizeAll xs using Nat.strongRecOn generalizing xs n with
  | ind size ih =>
    cases xs with
    | nil => exact .inl ⟨[], [], n, .nil n⟩
    | cons x rest =>
      obtain ⟨hx, hrest⟩ := List.forall_mem_cons.mp hxs
      rw [Subtree.sizeAll] at hsize
      cases htile : tile? x with
      | none =>
        refine .inr ⟨[], x, n, .here n x rest, hx, htile, ?_⟩
        cases x with
        | stm s => exact (lowerStmPart_refused hx htile n).bind_error
        | exp e => exact (lowerExpPart_refused hx htile n).bind_error
      | some tile =>
        have hcovers := covers_of_tile? htile
        have hsmaller := hcovers.sizeAll_parts
        rcases ih _ (by omega) tile.parts (hcovers.whole_parts hx) n rfl with
          ⟨code, regs, n₁, hparts⟩ | ⟨code, y, k, hvisits, hy, hnone, hfails⟩
        · rcases ih (Subtree.sizeAll rest) (by omega) rest hrest (tile.next n₁) rfl with
            ⟨code', regs', n₂, hlowers⟩ | ⟨code', y, k, hvisits, hy, hnone, hfails⟩
          · exact .inl ⟨_, _, _, .cons htile hparts hlowers⟩
          · have hfirst := Lowers.cons htile hparts (.nil (tile.next n₁))
            rw [List.append_nil] at hfirst
            refine .inr ⟨code ++ tile.block regs (tile.fresh n₁) ++ code', y, k, .after hfirst hvisits, hy, hnone, ?_⟩
            cases x with
            | stm s => exact (lowerStm_yields hparts.sound htile).bind hfails
            | exp e =>
              exact (lowerExp_yields hparts.sound htile (hole_not_mem_of_whole hx)).bind hfails.bind_error
        · refine .inr ⟨code, y, k, .inside htile hvisits, hy, hnone, ?_⟩
          cases x with
          | stm s => exact (lowerStm_yields_error hfails htile).bind_error
          | exp e => exact (lowerExp_yields_error hfails htile (hole_not_mem_of_whole hx)).bind_error

/-! ### Success -/

/-- If selection of trees without holes succeeds, it followed a derivation. -/
theorem lowers_of_run {xs : List Subtree} (hxs : ∀ x ∈ xs, x.whole = true) {log log' : Log} {regs : List Temp}
    (hrun : (lowerParts X86.rules.lowerStm X86.rules.lowerExp xs).run.run log = (.ok regs, log')) :
    ∃ code, Lowers log.session.temps xs code regs log'.session.temps ∧ log'.code = log.code ++ code := by
  rcases lowers_or_fails xs hxs log.session.temps with ⟨code, regs', n', hlowers⟩ | ⟨code, x, k, -, -, -, hfails⟩
  · obtain ⟨journal, hyields⟩ := hlowers.sound log rfl
    rw [hrun] at hyields
    obtain ⟨hregs, rfl⟩ := Prod.mk.inj hyields
    obtain rfl := Except.ok.inj hregs
    exact ⟨code, hlowers, rfl⟩
  · obtain ⟨journal, hyields⟩ := hfails log rfl
    rw [hrun] at hyields
    cases (Prod.mk.inj hyields).1

theorem run_of_attempt {α : Type} {unset : α} {x : Selecting α} (hx : Speaks x) {log log' : Log} {a : α}
    (hrun : (attempt unset x).run.run log = (.ok a, log')) : x.run.run log = (.ok a, log') := by
  change attempt unset x log = _ at hrun
  rw [attempt] at hrun
  split at hrun
  · next why log₁ hx' =>
    rw [answerTo, if_pos (hx log log₁ why hx')] at hrun
    cases (Prod.mk.inj hrun).1
  · exact hrun

theorem lowers_of_tileStm {s : Stm} (hs : s.whole = true) {log log' : Log}
    (hrun : (X86.rules.tileStm s).run.run log = (.ok (), log')) :
    ∃ code, Lowers log.session.temps [.stm s] code [] log'.session.temps ∧ log'.code = log.code ++ code := by
  have hhole : Kind.stm.isHole s = false := @Subtree.isHole_of_whole (.stm s) hs
  have hall : ∀ x ∈ [Subtree.stm s], x.whole = true := List.forall_mem_singleton.mpr hs
  refine lowers_of_run hall ?_
  have hlower := run_of_attempt (RuleBook.lowerStm_speaks rules_outspoken s) hrun
  rw [lowerParts, lowerStmPart, hhole, if_neg Bool.false_ne_true, bind_run_ok hlower]
  rfl

theorem lowers_of_tileExp {e : Exp} (he : e.whole = true) {log log' : Log} {t : Temp}
    (hrun : (X86.rules.tileExp e).run.run log = (.ok t, log')) :
    ∃ code, Lowers log.session.temps [.exp e] code [t] log'.session.temps ∧ log'.code = log.code ++ code := by
  have hhole : Kind.exp.isHole e = false := @Subtree.isHole_of_whole (.exp e) he
  have hall : ∀ x ∈ [Subtree.exp e], x.whole = true := List.forall_mem_singleton.mpr he
  refine lowers_of_run hall ?_
  have hlower := run_of_attempt (RuleBook.lowerExp_speaks rules_outspoken e) hrun
  rw [lowerParts, lowerExpPart, hhole, if_neg Bool.false_ne_true, bind_run_ok hlower]
  rfl

end X86

end Lowering
