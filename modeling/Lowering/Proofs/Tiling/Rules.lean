import Lowering.Proofs.Selecting
import Lowering.Proofs.Tiling.Tile

/-!
# Rules as tiles

The rule that is chosen for a tree does what the tile of the tree says. This is the only place where the rules
are opened: one lemma for each helper that actions are written with, then one for each family of rules.
-/

namespace Lowering.X86

open Selecting

variable (stm : Stm → Selecting Unit) (exp : Exp → Selecting Temp)

/-! ### Lowering a tile -/

/-- Lowers a statement that a wildcard stood for; a missing one is a fault. -/
def lowerStmPart (s : Stm) : Selecting Unit := if Kind.stm.isHole s then throw (.fault .holeRead) else stm s

/-- Lowers an expression that a wildcard stood for; a missing one is a fault. -/
def lowerExpPart (e : Exp) : Selecting Temp := if Kind.exp.isHole e then throw (.fault .holeRead) else exp e

/-- Lowers parts of a tile from left to right and yields the registers of the expressions among them. -/
def lowerParts : List Subtree → Selecting (List Temp)
  | [] => return []
  | .stm s :: rest => do
    lowerStmPart stm s
    lowerParts rest
  | .exp e :: rest => do
    let t ← lowerExpPart exp e
    let regs ← lowerParts rest
    return t :: regs

/-- What a tile does once its parts are lowered. -/
def Tile.finish [S : Supply] (tile : Tile) (regs : List Temp) : Selecting Temp := do
  let fresh ← if tile.takesFresh then session Session.freshTemp else pure ⟨0⟩
  Selecting.emit (tile.block regs fresh)
  return tile.value regs fresh

/-- Lowers a tile: its parts, then its block. -/
def Tile.lower [S : Supply] (tile : Tile) : Selecting Temp := lowerParts stm exp tile.parts >>= tile.finish

/-- The rule chosen for an expression does what the tile says. -/
def ExpRuleIs [S : Supply] (e : Exp) (tile : Tile) : Prop :=
  ∃ rule captures, X86.rules.selectExp e = .ok (rule, captures) ∧
    (rule.action captures).run (handler stm exp) = tile.lower stm exp

/-- The rule chosen for a statement does what the tile says. -/
def StmRuleIs [S : Supply] (s : Stm) (tile : Tile) : Prop :=
  ∃ rule captures, X86.rules.selectStm s = .ok (rule, captures) ∧
    (rule.action captures).run (handler stm exp) = tile.lower stm exp >>= fun _ => pure ()

variable {stm exp}

theorem Tile.lower_leaf [S : Supply] {tile : Tile} (hparts : tile.parts = []) :
    tile.lower stm exp = tile.finish [] := by
  rw [Tile.lower, hparts, lowerParts, pure_bind]

theorem Tile.lower_one [S : Supply] {tile : Tile} {e : Exp} (hparts : tile.parts = [.exp e]) :
    tile.lower stm exp = lowerExpPart exp e >>= fun a => tile.finish [a] := by
  simp only [Tile.lower, hparts, lowerParts, bind_assoc, pure_bind]

theorem Tile.lower_two [S : Supply] {tile : Tile} {e f : Exp} (hparts : tile.parts = [.exp e, .exp f]) :
    tile.lower stm exp = lowerExpPart exp e >>= fun a => lowerExpPart exp f >>= fun b => tile.finish [a, b] := by
  simp only [Tile.lower, hparts, lowerParts, bind_assoc, pure_bind]

/-! ### Helpers of actions -/

section Actions

variable {α : Type} {captures : Captures}

theorem lowered_run [S : Supply] {w : Wildcard .exp} {e : Exp} (hget : captures.get? w = some e) :
    (lowered w captures).run (handler stm exp) = lowerExpPart exp e := by
  have hread : captures.read w = if Kind.exp.isHole e then .error .holeRead else .ok e := by
    rw [Captures.read, hget]
  rw [lowered, run_bind, read, hread, lowerExpPart]
  cases Kind.exp.isHole e with
  | true => rfl
  | false => exact bind_pure (exp e)

theorem run_lowered [S : Supply] {w : Wildcard .exp} {e : Exp} (hget : captures.get? w = some e)
    (next : Temp → Action α) :
    (lowered w captures >>= next).run (handler stm exp) =
      lowerExpPart exp e >>= fun t => (next t).run (handler stm exp) := by
  rw [run_bind, lowered_run hget]

theorem run_read [S : Supply] {k : Kind} {w : Wildcard k} {v : k.Value} (hget : captures.get? w = some v)
    (hv : k.isHole v = false) (next : k.Value → Action α) :
    (read w captures >>= next).run (handler stm exp) = (next v).run (handler stm exp) := by
  have hread : captures.read w = .ok v := by
    rw [Captures.read, hget]
    exact if_neg (by rw [hv]; exact Bool.false_ne_true)
  rw [read, hread]
  rfl

theorem run_lowerStm [S : Supply] {w : Wildcard .stm} {s : Stm} (hget : captures.get? w = some s)
    (next : Unit → Action α) :
    (read w captures >>= fun s => Action.lowerStm s >>= next).run (handler stm exp) =
      lowerStmPart stm s >>= fun u => (next u).run (handler stm exp) := by
  have hread : captures.read w = if Kind.stm.isHole s then .error .holeRead else .ok s := by
    rw [Captures.read, hget]
  rw [run_bind, read, hread, lowerStmPart]
  cases Kind.stm.isHole s with
  | true => rfl
  | false => rfl

theorem run_copied [S : Supply] (a : Temp) (next : Temp → Action α) :
    (copied a >>= next).run (handler stm exp) =
      session Session.freshTemp >>= fun t => Selecting.emit [copy t a] >>= fun _ =>
        (next t).run (handler stm exp) := rfl

theorem run_appendCode [S : Supply] (code : List Instr) (next : Unit → Action α) :
    (Action.append code >>= next).run (handler stm exp) =
      Selecting.emit code >>= fun u => (next u).run (handler stm exp) := rfl

end Actions

/-! ### Finding a rule -/

section Fit

variable {k : Kind} {α : Type} {node : k.Value} {rule : Rule k α} {rest : List (Rule k α)}

theorem firstFit_ok {captures : Captures} (hfit : rule.pattern.fit node = .ok captures) :
    RuleSet.firstFit node (rule :: rest) = .ok (rule, captures) := by
  rw [RuleSet.firstFit, hfit]

theorem firstFit_misfit (hfit : rule.pattern.fit node = .error (.failed .misfit)) :
    RuleSet.firstFit node (rule :: rest) = RuleSet.firstFit node rest := by
  rw [RuleSet.firstFit, hfit]

end Fit

theorem fit_const_of_none {e : Exp} (p : Pattern .word) (captures : Captures) (he : constOf? e = none) :
    Pattern.fitFrom (.const p) e captures = .error (.failed .misfit) := by
  cases e with
  | const i => cases he
  | _ => rfl

theorem fit_binary (op : Op) (p q : Pattern .exp) (left right : Exp) (captures : Captures) :
    Pattern.fitFrom (.binary op p q) (.bin op left right) captures =
      (p.fitFrom left captures).bind (q.fitFrom right) := by
  have hagrees : Kind.agrees .op op op = .ok true := by
    simp [Kind.agrees]
  rw [Pattern.binary, Pattern.fitFrom]
  simp only [Pattern.fitFrom, Pattern.fitLiteral, hagrees]
  rfl

section Constants

variable {op : Op} {left right : Exp} {captures : Captures}

theorem misfit_binary_right (hright : constOf? right = none) :
    Pattern.fitFrom (.binary op Wild.e (.const Wild.i)) (.bin op left right) captures =
      .error (.failed .misfit) := by
  rw [fit_binary]
  exact fit_const_of_none _ _ hright

theorem misfit_binary_left (p : Pattern .exp) (hleft : constOf? left = none) :
    Pattern.fitFrom (.binary op (.const Wild.i) p) (.bin op left right) captures = .error (.failed .misfit) := by
  rw [fit_binary, fit_const_of_none _ _ hleft]
  rfl

end Constants

theorem selectExp_of_select {e : Exp} {found : Rule .exp Temp × Captures} (h : expRules.select e = .ok found) :
    X86.rules.selectExp e = .ok found := by
  change (expRules.select e).mapError _ = .ok found
  rw [h]
  rfl

theorem selectStm_of_select {s : Stm} {found : Rule .stm Unit × Captures} (h : stmRules.select s = .ok found) :
    X86.rules.selectStm s = .ok found := by
  change (stmRules.select s).mapError _ = .ok found
  rw [h]
  rfl

/-! ### Arithmetic -/

theorem run_updateConst [S : Supply] (form : Word → Form) {captures : Captures} {e : Exp} {i : Word}
    (he : captures.get? Wild.e = some e) (hi : captures.get? Wild.i = some i) :
    (updateConst form captures).run (handler stm exp) =
      lowerExpPart exp e >>= fun a => session Session.freshTemp >>= fun t =>
        Selecting.emit [copy t a, oper (form i) [t] [t]] >>= fun _ => pure t := by
  rw [updateConst, run_lowered he]
  refine bind_congr fun a => ?_
  rw [run_copied]
  refine bind_congr fun t => ?_
  rw [run_read hi rfl, emit, run_appendCode, emit_emit]
  rfl

theorem run_update [S : Supply] (form : Form) {captures : Captures} {e f : Exp}
    (he : captures.get? Wild.e = some e) (hf : captures.get? Wild.f = some f) :
    (update form captures).run (handler stm exp) =
      lowerExpPart exp e >>= fun a => lowerExpPart exp f >>= fun b => session Session.freshTemp >>= fun t =>
        Selecting.emit [copy t a, oper form [t] [t, b]] >>= fun _ => pure t := by
  rw [update, run_lowered he]
  refine bind_congr fun a => ?_
  rw [run_lowered hf]
  refine bind_congr fun b => ?_
  rw [run_copied]
  refine bind_congr fun t => ?_
  rw [emit, run_appendCode, emit_emit]
  rfl

theorem arithRule [S : Supply] (o : Arith) (left right : Exp) :
    ExpRuleIs stm exp (.bin o.op left right) (arithTile o left right) := by
  obtain ⟨tail, hselect⟩ : ∃ tail, expRules.select (.bin o.op left right) =
      RuleSet.firstFit (k := .exp) (.bin o.op left right) (arithRules o ++ tail) := by
    cases o <;> exact ⟨_, rfl⟩
  cases hright : constOf? right with
  | some i =>
    obtain rfl := eq_const_of_constOf? hright
    refine ⟨_, _, selectExp_of_select (hselect.trans (firstFit_ok (fit_binary ..))), ?_⟩
    change _ = (Tile.arithConst o left i).lower stm exp
    rw [Tile.lower_one rfl]
    exact run_updateConst (e := left) (i := i) _ rfl rfl
  | none =>
    have hskip := hselect.trans (firstFit_misfit (misfit_binary_right hright))
    have hupdate (captures : Captures) (he : captures.get? Wild.e = some left)
        (hf : captures.get? Wild.f = some right) :
        (update (.arith o) captures).run (handler stm exp) = (Tile.arith o left right).lower stm exp := by
      rw [Tile.lower_two rfl]
      exact run_update _ he hf
    cases hcommutes : o.commutes with
    | false =>
      have htile : arithTile o left right = .arith o left right := by
        cases hleft : constOf? left <;> simp [arithTile, hright, hleft, hcommutes]
      rw [if_neg (by rw [hcommutes]; exact Bool.false_ne_true)] at hskip
      rw [htile]
      exact ⟨_, _, selectExp_of_select (hskip.trans (firstFit_ok (fit_binary ..))), hupdate _ rfl rfl⟩
    | true =>
      rw [if_pos hcommutes] at hskip
      cases hleft : constOf? left with
      | some i =>
        obtain rfl := eq_const_of_constOf? hleft
        have htile : arithTile o (.const i) right = .arithConst o right i := by
          simp [arithTile, hright, hleft, hcommutes]
        rw [htile]
        refine ⟨_, _, selectExp_of_select (hskip.trans (firstFit_ok (fit_binary ..))), ?_⟩
        rw [Tile.lower_one rfl]
        exact run_updateConst (e := right) (i := i) _ rfl rfl
      | none =>
        have htile : arithTile o left right = .arith o left right := by
          simp [arithTile, hright, hleft]
        rw [htile]
        exact ⟨_, _, selectExp_of_select ((hskip.trans (firstFit_misfit (misfit_binary_left _ hleft))).trans
          (firstFit_ok (fit_binary ..))), hupdate _ rfl rfl⟩

theorem run_defineFrom [S : Supply] (form : Word → Form) {captures : Captures} {e : Exp} {i : Word}
    (he : captures.get? Wild.e = some e) (hi : captures.get? Wild.i = some i) :
    (lowered Wild.e captures >>= fun a => read Wild.i captures >>= fun i => define (form i) [a]).run
        (handler stm exp) =
      lowerExpPart exp e >>= fun a => session Session.freshTemp >>= fun t =>
        Selecting.emit [oper (form i) [t] [a]] >>= fun _ => pure t := by
  rw [run_lowered he]
  refine bind_congr fun a => ?_
  rw [run_read hi rfl]
  rfl

theorem mulRule [S : Supply] (left right : Exp) : ExpRuleIs stm exp (.bin .mul left right) (mulTile left right) := by
  obtain ⟨tail, hselect⟩ : ∃ tail, expRules.select (.bin .mul left right) =
      RuleSet.firstFit (k := .exp) (.bin .mul left right) (mulDivRules ++ tail) := ⟨_, rfl⟩
  cases hright : constOf? right with
  | some i =>
    obtain rfl := eq_const_of_constOf? hright
    refine ⟨_, _, rfl, ?_⟩
    change _ = (Tile.mulConst left i).lower stm exp
    rw [Tile.lower_one rfl]
    exact run_defineFrom (e := left) (i := i) .mulConst rfl rfl
  | none =>
    have hskip := hselect.trans (firstFit_misfit (misfit_binary_right hright))
    cases hleft : constOf? left with
    | some i =>
      obtain rfl := eq_const_of_constOf? hleft
      have htile : mulTile (.const i) right = .mulConst right i := by
        simp [mulTile, hright, hleft]
      rw [htile, ExpRuleIs]
      refine ⟨_, _, selectExp_of_select (hskip.trans (firstFit_ok (fit_binary ..))), ?_⟩
      rw [Tile.lower_one rfl]
      exact run_defineFrom (e := right) (i := i) .mulConst rfl rfl
    | none =>
      have htile : mulTile left right = .mul left right := by
        simp [mulTile, hright, hleft]
      rw [htile]
      refine ⟨_, _, selectExp_of_select ((hskip.trans (firstFit_misfit (misfit_binary_left _ hleft))).trans
        (firstFit_ok (fit_binary ..))), ?_⟩
      rw [Tile.lower_two rfl]
      exact run_update (e := left) (f := right) _ rfl rfl

theorem divRule [S : Supply] (left right : Exp) : ExpRuleIs stm exp (.bin .div left right) (.div left right) := by
  refine ⟨_, _, rfl, ?_⟩
  rw [Tile.lower_two rfl]
  refine (run_lowered (e := left) rfl _).trans (bind_congr fun a => ?_)
  refine (run_lowered (e := right) rfl _).trans (bind_congr fun b => ?_)
  refine (run_appendCode ..).trans ((emit_fresh ..).trans (bind_congr fun t => ?_))
  exact emit_emit _ [copy t Register.eax.temp] fun _ => pure t

theorem shiftRule [S : Supply] (o : Shift) (left right : Exp) :
    ExpRuleIs stm exp (.bin o.op left right) (shiftTile o left right) := by
  obtain ⟨tail, hselect⟩ : ∃ tail, expRules.select (.bin o.op left right) =
      RuleSet.firstFit (k := .exp) (.bin o.op left right) (shiftRules o ++ tail) := by
    cases o <;> exact ⟨_, rfl⟩
  cases hright : constOf? right with
  | some i =>
    obtain rfl := eq_const_of_constOf? hright
    refine ⟨_, _, selectExp_of_select (hselect.trans (firstFit_ok (fit_binary ..))), ?_⟩
    change _ = (Tile.shiftConst o left (i &&& 31)).lower stm exp
    rw [Tile.lower_one rfl]
    exact run_updateConst (e := left) (i := i) _ rfl rfl
  | none =>
    have htile : shiftTile o left right = .shift o left right := by
      simp [shiftTile, hright]
    rw [htile]
    refine ⟨_, _, selectExp_of_select ((hselect.trans (firstFit_misfit (misfit_binary_right hright))).trans
      (firstFit_ok (fit_binary ..))), ?_⟩
    rw [Tile.lower_two rfl]
    refine (run_lowered (e := left) rfl _).trans (bind_congr fun a => ?_)
    refine (run_lowered (e := right) rfl _).trans (bind_congr fun b => ?_)
    rw [run_copied]
    refine bind_congr fun t => ?_
    rw [run_appendCode, emit_emit]
    rfl

/-! ### Loads, leaves and calls -/

theorem loadRule [S : Supply] (addr : Exp) : ExpRuleIs stm exp (.mem addr) (loadTile addr) := by
  have hplain (e : Exp) (captures : Captures) (he : captures.get? Wild.e = some e) :
      (lowered Wild.e captures >>= fun a => define (.load 0) [a]).run (handler stm exp) =
        (Tile.load e 0).lower stm exp := by
    rw [Tile.lower_one rfl]
    exact run_lowered he _
  have hdisp (e : Exp) (form : Word → Form) (i disp : Word) (hform : form i = .load disp) (captures : Captures)
      (he : captures.get? Wild.e = some e) (hi : captures.get? Wild.i = some i) :
      (lowered Wild.e captures >>= fun a => read Wild.i captures >>= fun i => define (form i) [a]).run
        (handler stm exp) = (Tile.load e disp).lower stm exp := by
    rw [Tile.lower_one rfl, run_defineFrom form he hi, hform]
    rfl
  cases addr with
  | bin op e f =>
    cases op with
    | plus =>
      cases hf : constOf? f with
      | some i =>
        obtain rfl := eq_const_of_constOf? hf
        exact ⟨_, _, rfl, hdisp e .load i i rfl _ rfl rfl⟩
      | none =>
        have hskip : expRules.select (.mem (.bin .plus e f)) = _ := firstFit_misfit (misfit_binary_right hf)
        cases he : constOf? e with
        | some i =>
          obtain rfl := eq_const_of_constOf? he
          have htile : loadTile (.bin .plus (.const i) f) = .load f i := by
            simp [loadTile, addressOf, hf, he]
          rw [htile]
          exact ⟨_, _, selectExp_of_select (hskip.trans (firstFit_ok rfl)), hdisp f .load i i rfl _ rfl rfl⟩
        | none =>
          have htile : loadTile (.bin .plus e f) = .load (.bin .plus e f) 0 := by
            simp [loadTile, addressOf, hf, he]
          rw [htile]
          exact ⟨_, _, selectExp_of_select ((hskip.trans (firstFit_misfit (misfit_binary_left _ he))).trans rfl),
            hplain _ _ rfl⟩
    | minus =>
      cases hf : constOf? f with
      | some i =>
        obtain rfl := eq_const_of_constOf? hf
        exact ⟨_, _, rfl, hdisp e (fun i => .load (-i)) i (-i) rfl _ rfl rfl⟩
      | none =>
        have htile : loadTile (.bin .minus e f) = .load (.bin .minus e f) 0 := by
          simp [loadTile, addressOf, hf]
        rw [htile]
        -- The two rules for sums are passed over by the operator alone.
        have hskip : expRules.select (.mem (.bin .minus e f)) =
            RuleSet.firstFit (k := .exp) (.mem (.bin .minus e f)) (expRules.rules.drop 2) := rfl
        exact ⟨_, _, selectExp_of_select ((hskip.trans (firstFit_misfit (misfit_binary_right hf))).trans rfl),
          hplain _ _ rfl⟩
    | _ => exact ⟨_, _, rfl, hplain _ _ rfl⟩
  | const i =>
    refine ⟨_, _, rfl, ?_⟩
    change _ = (Tile.loadAt i).lower stm exp
    rw [Tile.lower_leaf rfl]
    rfl
  | _ => exact ⟨_, _, rfl, hplain _ _ rfl⟩

theorem constRule [S : Supply] (i : Word) : ExpRuleIs stm exp (.const i) (.const i) := by
  refine ⟨_, _, rfl, ?_⟩
  rw [Tile.lower_leaf rfl]
  rfl

theorem tempRule [S : Supply] (t : Temp) : ExpRuleIs stm exp (.temp t) (.temp t) := by
  refine ⟨_, _, rfl, ?_⟩
  rw [Tile.lower_leaf rfl]
  exact (emit_nil fun _ => pure t).symm

theorem nameRule [S : Supply] (l : Label) : ExpRuleIs stm exp (.name l) (.name l) := by
  refine ⟨_, _, rfl, ?_⟩
  rw [Tile.lower_leaf rfl]
  rfl

theorem eseqRule [S : Supply] (s : Stm) (e : Exp) : ExpRuleIs stm exp (.eseq s e) (.eseq s e) := by
  refine ⟨_, _, rfl, ?_⟩
  refine (run_lowerStm (s := s) rfl _).trans ?_
  change _ = lowerParts stm exp [.stm s, .exp e] >>= (Tile.eseq s e).finish
  rw [lowerParts, bind_assoc]
  refine bind_congr fun _ => ?_
  refine (lowered_run (e := e) rfl).trans ?_
  rw [lowerParts, bind_assoc]
  refine (bind_pure _).symm.trans (bind_congr fun t => ?_)
  exact (emit_nil fun _ => pure t).symm

theorem lowerArgs_run [S : Supply] (args : List Exp) (hargs : Exp.hole ∉ args) :
    (lowerArgs args).run (handler stm exp) =
      lowerParts stm exp ((registerArgs args).map .exp) >>= fun regs => pure (placeArgs args regs) := by
  induction args with
  | nil => rfl
  | cons e rest ih =>
    have hrest := ih fun h => hargs (List.mem_cons_of_mem e h)
    cases he : constOf? e with
    | some i =>
      obtain rfl := eq_const_of_constOf? he
      have hparts : registerArgs (.const i :: rest) = registerArgs rest := rfl
      rw [lowerArgs, run_bind, hrest, hparts, bind_assoc]
      exact bind_congr fun regs => pure_bind ..
    | none =>
      have hargs : lowerArgs (e :: rest) = Action.lowerExp e >>= fun t => lowerArgs rest >>= fun vs =>
          pure (.inr t :: vs) := by
        cases e with
        | const i => cases he
        | _ => rfl
      have hparts : registerArgs (e :: rest) = e :: registerArgs rest := by
        simp [registerArgs, he]
      have hpart : lowerExpPart exp e = exp e := by
        cases e with
        | hole => exact absurd (List.mem_cons_self ..) ‹_›
        | _ => rfl
      rw [hargs, run_bind, hparts, List.map_cons, lowerParts, hpart, bind_assoc]
      refine (bind_assoc ..).trans (bind_congr fun t => ?_)
      refine (pure_bind ..).trans ?_
      rw [run_bind, hrest, bind_assoc, bind_assoc]
      refine bind_congr fun regs => ?_
      rw [pure_bind, pure_bind, placeArgs, he]
      rfl

theorem length_placeArgs (args : List Exp) (regs : List Temp) : (placeArgs args regs).length = args.length := by
  induction args generalizing regs with
  | nil => rfl
  | cons e rest ih =>
    rw [placeArgs]
    split
    · rw [List.length_cons, ih, List.length_cons]
    · rw [List.length_cons, ih, List.length_cons]

/-- Everything of a call behind the target: arguments are lowered and pushed, and the result is copied. -/
theorem run_callAround [S : Supply] (args : List Exp) (hargs : Exp.hole ∉ args) (call : Instr) :
    (pushArgs args >>= fun n => emit call >>= fun _ => afterCall n).run (handler stm exp) =
      lowerParts stm exp ((registerArgs args).map .exp) >>= fun regs => session Session.freshTemp >>= fun t =>
        Selecting.emit (callBlock call (placeArgs args regs) t) >>= fun _ => pure t := by
  rw [run_bind, pushArgs, run_bind, lowerArgs_run args hargs, bind_assoc, bind_assoc]
  refine bind_congr fun regs => ?_
  rw [pure_bind]
  change (Selecting.emit ((placeArgs args regs).reverse.map push) >>= fun _ => Selecting.emit [call] >>= fun _ =>
    (afterCall args.length).run (handler stm exp)) = _
  rw [emit_emit, afterCall, ← length_placeArgs args regs]
  by_cases hn : (placeArgs args regs).length ≠ 0
  · rw [if_pos hn]
    refine (emit_emit ..).trans ((emit_fresh ..).trans (bind_congr fun t => ?_))
    refine (emit_emit _ [copy t resultRegister] fun _ => pure t).trans ?_
    rw [callBlock, if_pos hn]
  · rw [if_neg hn]
    refine (emit_fresh ..).trans (bind_congr fun t => ?_)
    refine (emit_emit _ [copy t resultRegister] fun _ => pure t).trans ?_
    rw [callBlock, if_neg hn, List.append_nil]

theorem callRule [S : Supply] (l : Label) (args : List Exp) (hargs : Exp.hole ∉ args) :
    ExpRuleIs stm exp (.call (.name l) args) (.call l args) :=
  ⟨_, _, rfl, run_callAround args hargs _⟩

theorem callRegRule [S : Supply] (func : Exp) (args : List Exp) (hfunc : ∀ l, func ≠ .name l)
    (hargs : Exp.hole ∉ args) : ExpRuleIs stm exp (.call func args) (.callReg func args) := by
  have hrun (captures : Captures) (hf : captures.get? Wild.f = some func)
      (ha : captures.get? Wild.args = some args) :
      (lowered Wild.f captures >>= fun a => read Wild.args captures >>= fun args => pushArgs args >>= fun n =>
        emit (oper .callReg callerSaved [a]) >>= fun _ => afterCall n).run (handler stm exp) =
        (Tile.callReg func args).lower stm exp := by
    rw [run_lowered hf, Tile.lower, Tile.parts, lowerParts, bind_assoc]
    refine bind_congr fun a => ?_
    rw [run_read ha rfl, run_callAround args hargs, bind_assoc]
    refine bind_congr fun regs => ?_
    rw [pure_bind]
    rfl
  cases func with
  | name l => exact absurd rfl (hfunc l)
  | _ => exact ⟨_, _, rfl, hrun _ rfl rfl⟩

/-! ### Statements -/

section Acting

variable {tile : Tile} (hfresh : tile.takesFresh = false)

include hfresh

theorem Tile.finish_act [S : Supply] (regs : List Temp) :
    (tile.finish regs >>= fun _ => pure ()) = Selecting.emit (tile.block regs ⟨0⟩) := by
  rw [Tile.finish, hfresh, if_neg Bool.false_ne_true, pure_bind, bind_assoc]
  exact bind_pure _

theorem Tile.act_leaf [S : Supply] (hparts : tile.parts = []) :
    (tile.lower stm exp >>= fun _ => pure ()) = Selecting.emit (tile.block [] ⟨0⟩) := by
  rw [Tile.lower_leaf hparts, Tile.finish_act hfresh]

theorem Tile.act_one [S : Supply] {e : Exp} (hparts : tile.parts = [.exp e]) :
    (tile.lower stm exp >>= fun _ => pure ()) =
      lowerExpPart exp e >>= fun a => Selecting.emit (tile.block [a] ⟨0⟩) := by
  rw [Tile.lower_one hparts, bind_assoc]
  exact bind_congr fun a => Tile.finish_act hfresh [a]

theorem Tile.act_two [S : Supply] {e f : Exp} (hparts : tile.parts = [.exp e, .exp f]) :
    (tile.lower stm exp >>= fun _ => pure ()) =
      lowerExpPart exp e >>= fun a => lowerExpPart exp f >>= fun b => Selecting.emit (tile.block [a, b] ⟨0⟩) := by
  rw [Tile.lower_two hparts, bind_assoc]
  refine bind_congr fun a => ?_
  rw [bind_assoc]
  exact bind_congr fun b => Tile.finish_act hfresh [a, b]

end Acting

theorem run_emit [Supply] (x : Instr) : (emit x).run (handler stm exp) = Selecting.emit [x] :=
  bind_pure (Selecting.emit [x])

theorem misfit_store {p q : Pattern .exp} {addr src : Exp}
    (hp : p.fitFrom addr [] = .error (.failed .misfit)) :
    Pattern.fit (k := .stm) (.move (.mem p) q) (.move (.mem addr) src) = .error (.failed .misfit) := by
  change (p.fitFrom addr []).bind _ = _
  rw [hp]
  rfl

theorem misfit_source {p : Pattern .exp} (q : Pattern .word) {dst src : Exp} {captures : Captures}
    (hp : p.fitFrom dst [] = .ok captures) (hsrc : constOf? src = none) :
    Pattern.fit (k := .stm) (.move p (.const q)) (.move dst src) = .error (.failed .misfit) := by
  change (p.fitFrom dst []).bind _ = _
  rw [hp]
  exact fit_const_of_none _ _ hsrc

theorem run_store [S : Supply] (form : Word → Form) {captures : Captures} {e f : Exp} {i : Word}
    (he : captures.get? Wild.e = some e) (hf : captures.get? Wild.f = some f)
    (hi : captures.get? Wild.i = some i) :
    (lowered Wild.e captures >>= fun a => lowered Wild.f captures >>= fun b => read Wild.i captures >>= fun i =>
        emit (oper (form i) [] [a, b])).run (handler stm exp) =
      lowerExpPart exp e >>= fun a => lowerExpPart exp f >>= fun b =>
        Selecting.emit [oper (form i) [] [a, b]] := by
  rw [run_lowered he]
  refine bind_congr fun a => ?_
  rw [run_lowered hf]
  refine bind_congr fun b => ?_
  rw [run_read hi rfl, run_emit]

/-- An address that none of the rules for special addresses fits. -/
theorem storePlainRule [S : Supply] {addr src : Exp}
    (hskip : stmRules.select (.move (.mem addr) src) =
      RuleSet.firstFit (k := .stm) (.move (.mem addr) src) (stmRules.rules.drop 5))
    (haddr : addressOf addr = .based addr 0 true) :
    StmRuleIs stm exp (.move (.mem addr) src) (storeTile addr src) := by
  cases hsrc : constOf? src with
  | some j =>
    obtain rfl := eq_const_of_constOf? hsrc
    have htile : storeTile addr (.const j) = .storeConst addr 0 j := by
      simp [storeTile, haddr, hsrc]
    rw [htile]
    refine ⟨_, _, selectStm_of_select (hskip.trans (firstFit_ok rfl)), ?_⟩
    rw [Tile.act_one rfl rfl]
    refine (run_lowered (e := addr) rfl _).trans (bind_congr fun a => ?_)
    exact (run_read (k := .word) (v := j) rfl rfl _).trans (run_emit _)
  | none =>
    have htile : storeTile addr src = .store addr src 0 := by
      simp [storeTile, haddr, hsrc]
    have hskip := hskip.trans (firstFit_misfit (misfit_source _ rfl hsrc))
    rw [htile]
    refine ⟨_, _, selectStm_of_select (hskip.trans (firstFit_ok rfl)), ?_⟩
    rw [Tile.act_two rfl rfl]
    refine (run_lowered (e := addr) rfl _).trans (bind_congr fun a => ?_)
    refine (run_lowered (e := src) rfl _).trans (bind_congr fun b => ?_)
    exact run_emit _

theorem storeSumRule [S : Supply] (e src : Exp) (i : Word) :
    StmRuleIs stm exp (.move (.mem (.bin .plus e (.const i))) src) (storeTile (.bin .plus e (.const i)) src) := by
  cases hsrc : constOf? src with
  | some j =>
    obtain rfl := eq_const_of_constOf? hsrc
    refine ⟨_, _, rfl, ?_⟩
    change _ = (Tile.storeConst e i j).lower stm exp >>= _
    rw [Tile.act_one rfl rfl]
    refine (run_lowered (e := e) rfl _).trans (bind_congr fun a => ?_)
    refine (run_read (k := .word) (v := i) rfl rfl _).trans ?_
    exact (run_read (k := .word) (v := j) rfl rfl _).trans (run_emit _)
  | none =>
    have htile : storeTile (.bin .plus e (.const i)) src = .store e src i := by
      simp [storeTile, addressOf, hsrc]
    have hskip : stmRules.select (.move (.mem (.bin .plus e (.const i))) src) = _ :=
      firstFit_misfit (misfit_source _ rfl hsrc)
    rw [htile]
    refine ⟨_, _, selectStm_of_select (hskip.trans (firstFit_ok rfl)), ?_⟩
    rw [Tile.act_two rfl rfl]
    exact run_store (e := e) (f := src) (i := i) .store rfl rfl rfl

theorem storeRule [S : Supply] (addr src : Exp) : StmRuleIs stm exp (.move (.mem addr) src) (storeTile addr src) := by
  have hdisp (e : Exp) (form : Word → Form) (i disp : Word) (hform : form i = .store disp) (captures : Captures)
      (he : captures.get? Wild.e = some e) (hf : captures.get? Wild.f = some src)
      (hi : captures.get? Wild.i = some i) :
      (lowered Wild.e captures >>= fun a => lowered Wild.f captures >>= fun b => read Wild.i captures >>= fun i =>
        emit (oper (form i) [] [a, b])).run (handler stm exp) =
        (Tile.store e src disp).lower stm exp >>= fun _ => pure () := by
    rw [Tile.act_two rfl rfl, run_store form he hf hi, hform]
    rfl
  cases addr with
  | bin op e f =>
    cases op with
    | plus =>
      cases hf : constOf? f with
      | some i =>
        obtain rfl := eq_const_of_constOf? hf
        exact storeSumRule e src i
      | none =>
        have hmisfit (q : Pattern .exp) :
            Pattern.fit (k := .stm) (.move (.mem (.binary .plus Wild.e (.const Wild.i))) q)
              (.move (.mem (.bin .plus e f)) src) = .error (.failed .misfit) :=
          misfit_store (misfit_binary_right hf)
        have hskip : stmRules.select (.move (.mem (.bin .plus e f)) src) = _ :=
          (firstFit_misfit (hmisfit _)).trans (firstFit_misfit (hmisfit _))
        cases he : constOf? e with
        | some i =>
          obtain rfl := eq_const_of_constOf? he
          have htile : storeTile (.bin .plus (.const i) f) src = .store f src i := by
            simp [storeTile, addressOf, hf]
          rw [htile]
          exact ⟨_, _, selectStm_of_select (hskip.trans (firstFit_ok rfl)), hdisp f .store i i rfl _ rfl rfl rfl⟩
        | none =>
          refine storePlainRule ((hskip.trans (firstFit_misfit (misfit_store (misfit_binary_left _ he)))).trans rfl) ?_
          simp [addressOf, hf, he]
    | minus =>
      -- The three rules for sums are passed over by the operator alone.
      have hskip : stmRules.select (.move (.mem (.bin .minus e f)) src) =
          RuleSet.firstFit (k := .stm) (.move (.mem (.bin .minus e f)) src) (stmRules.rules.drop 3) := rfl
      cases hf : constOf? f with
      | some i =>
        obtain rfl := eq_const_of_constOf? hf
        have htile : storeTile (.bin .minus e (.const i)) src = .store e src (-i) := by
          simp [storeTile, addressOf]
        rw [htile]
        exact ⟨_, _, selectStm_of_select (hskip.trans (firstFit_ok rfl)),
          hdisp e (fun i => .store (-i)) i (-i) rfl _ rfl rfl rfl⟩
      | none =>
        refine storePlainRule ((hskip.trans (firstFit_misfit (misfit_store (misfit_binary_right hf)))).trans rfl) ?_
        simp [addressOf, hf]
    | _ => exact storePlainRule rfl rfl
  | const i =>
    refine ⟨_, _, rfl, ?_⟩
    change _ = (Tile.storeAt i src).lower stm exp >>= _
    rw [Tile.act_one rfl rfl]
    refine (run_lowered (e := src) rfl _).trans (bind_congr fun b => ?_)
    exact (run_read (k := .word) (v := i) rfl rfl _).trans (run_emit _)
  | _ => exact storePlainRule rfl rfl

theorem setRule [S : Supply] (dst : Temp) (src : Exp) :
    StmRuleIs stm exp (.move (.temp dst) src) (setTile dst src) := by
  have hcopy (captures : Captures) (hd : captures.get? Wild.d = some dst) (he : captures.get? Wild.e = some src) :
      (read Wild.d captures >>= fun d => lowered Wild.e captures >>= fun a => emit (copy d a)).run (handler stm exp) =
        (Tile.setCopy dst src).lower stm exp >>= fun _ => pure () := by
    rw [Tile.act_one rfl rfl, run_read hd rfl, run_lowered he]
    exact bind_congr fun a => run_emit _
  cases src with
  | const i => exact ⟨_, _, rfl, (Tile.act_leaf (show (Tile.setConst dst i).takesFresh = false from rfl) rfl).symm⟩
  | mem addr =>
    cases addr with
    | bin op e f =>
      cases op with
      | plus =>
        cases hf : constOf? f with
        | some i =>
          obtain rfl := eq_const_of_constOf? hf
          refine ⟨_, _, rfl, ?_⟩
          change _ = (Tile.setLoad dst e i).lower stm exp >>= _
          rw [Tile.act_one rfl rfl]
          refine (run_lowered (e := e) rfl _).trans (bind_congr fun a => ?_)
          refine (run_read (k := .word) (v := i) rfl rfl _).trans ?_
          exact (run_read (k := .temp) (v := dst) rfl rfl _).trans (run_emit _)
        | none =>
          have htile : setTile dst (.mem (.bin .plus e f)) = .setCopy dst (.mem (.bin .plus e f)) := by
            simp [setTile, hf]
          have hfit : Pattern.fit (k := .stm)
              (.move (.temp Wild.d) (.mem (.binary .plus Wild.e (.const Wild.i))))
              (.move (.temp dst) (.mem (.bin .plus e f))) = .error (.failed .misfit) := by
            have hsum : Pattern.fitFrom (.binary .plus Wild.e (.const Wild.i)) (.bin .plus e f)
                (Captures.bind Wild.d dst []) = .error (.failed .misfit) := misfit_binary_right hf
            exact hsum
          have hskip : stmRules.select (.move (.temp dst) (.mem (.bin .plus e f))) =
              RuleSet.firstFit (k := .stm) (.move (.temp dst) (.mem (.bin .plus e f))) (stmRules.rules.drop 8) := rfl
          rw [htile]
          exact ⟨_, _, selectStm_of_select ((hskip.trans (firstFit_misfit hfit)).trans (firstFit_ok rfl)),
            hcopy _ rfl rfl⟩
      | _ => exact ⟨_, _, rfl, hcopy _ rfl rfl⟩
    | _ => exact ⟨_, _, rfl, hcopy _ rfl rfl⟩
  | _ => exact ⟨_, _, rfl, hcopy _ rfl rfl⟩

theorem dropRule [S : Supply] (e : Exp) : StmRuleIs stm exp (.exp e) (.drop e) := by
  refine ⟨_, _, rfl, ?_⟩
  rw [Tile.act_one rfl rfl]
  refine (run_lowered (e := e) rfl _).trans (bind_congr fun a => ?_)
  exact (emit_nil fun _ => pure ()).symm.trans (bind_pure _)

theorem labelRule [S : Supply] (l : Label) : StmRuleIs stm exp (.label l) (.label l) :=
  ⟨_, _, rfl, (Tile.act_leaf (show (Tile.label l).takesFresh = false from rfl) rfl).symm⟩

theorem seqRule [S : Supply] (first second : Stm) : StmRuleIs stm exp (.seq first second) (.seq first second) := by
  refine ⟨_, _, rfl, ?_⟩
  refine (run_lowerStm (s := first) rfl _).trans ?_
  change _ = (lowerParts stm exp [.stm first, .stm second] >>= (Tile.seq first second).finish) >>= fun _ => pure ()
  rw [bind_assoc, lowerParts, bind_assoc]
  refine bind_congr fun _ => ?_
  rw [lowerParts, bind_assoc]
  refine (run_lowerStm (s := second) rfl fun _ => pure ()).trans (bind_congr fun _ => ?_)
  exact (emit_nil fun _ => pure ()).symm

theorem jumpRule [S : Supply] (l : Label) (labels : List Label) :
    StmRuleIs stm exp (.jump (.name l) labels) (.jump l) :=
  ⟨_, _, rfl, (Tile.act_leaf (show (Tile.jump l).takesFresh = false from rfl) rfl).symm⟩

theorem jumpRegRule [S : Supply] (target : Exp) (labels : List Label) (htarget : ∀ l, target ≠ .name l) :
    StmRuleIs stm exp (.jump target labels) (.jumpReg target labels) := by
  have hrun (captures : Captures) (he : captures.get? Wild.e = some target)
      (hls : captures.get? Wild.ls = some labels) :
      (lowered Wild.e captures >>= fun a => read Wild.ls captures >>= fun ls =>
        emit (.oper Form.jumpReg.asm [] [a] ls [])).run (handler stm exp) =
        (Tile.jumpReg target labels).lower stm exp >>= fun _ => pure () := by
    rw [Tile.act_one rfl rfl, run_lowered he]
    refine bind_congr fun a => ?_
    rw [run_read hls rfl, run_emit]
    rfl
  cases target with
  | name l => exact absurd rfl (htarget l)
  | _ => exact ⟨_, _, rfl, hrun _ rfl rfl⟩

theorem branchRule [S : Supply] (rel : Rel) (left right : Exp) (ifTrue ifFalse : Label) :
    StmRuleIs stm exp (.cjump rel left right ifTrue ifFalse) (branchTile rel left right ifTrue ifFalse) := by
  have hconst (e : Exp) (i : Word) (change : Rel → Rel) (captures : Captures)
      (he : captures.get? Wild.e = some e) (hi : captures.get? Wild.i = some i)
      (hrel : captures.get? Wild.rel = some rel) (ht : captures.get? Wild.t = some ifTrue)
      (hu : captures.get? Wild.u = some ifFalse) :
      (lowered Wild.e captures >>= fun a => read Wild.i captures >>= fun i => read Wild.rel captures >>= fun rel =>
        read Wild.t captures >>= fun t => read Wild.u captures >>= fun u =>
          Action.append [oper (.cmpConst i) [] [a], branch (change rel) t u]).run (handler stm exp) =
        (Tile.branchConst (change rel) e i ifTrue ifFalse).lower stm exp >>= fun _ => pure () := by
    rw [Tile.act_one rfl rfl, run_lowered he]
    refine bind_congr fun a => ?_
    rw [run_read hi rfl, run_read hrel rfl, run_read ht rfl, run_read hu rfl]
    exact bind_pure _
  have hselect : stmRules.select (.cjump rel left right ifTrue ifFalse) =
      RuleSet.firstFit (k := .stm) (.cjump rel left right ifTrue ifFalse) (stmRules.rules.drop 15) := rfl
  cases hright : constOf? right with
  | some i =>
    obtain rfl := eq_const_of_constOf? hright
    exact ⟨_, _, selectStm_of_select (hselect.trans (firstFit_ok rfl)),
      hconst left i id _ rfl rfl rfl rfl rfl⟩
  | none =>
    have hfit : Pattern.fit (k := .stm) (.cjump Wild.rel Wild.e (.const Wild.i) Wild.t Wild.u)
        (.cjump rel left right ifTrue ifFalse) = .error (.failed .misfit) := by
      change (Pattern.fitFrom (.const Wild.i) right _).bind _ = _
      rw [fit_const_of_none _ _ hright]
      rfl
    have hskip := hselect.trans (firstFit_misfit hfit)
    cases hleft : constOf? left with
    | some i =>
      obtain rfl := eq_const_of_constOf? hleft
      have htile : branchTile rel (.const i) right ifTrue ifFalse =
          .branchConst rel.commute right i ifTrue ifFalse := by
        simp [branchTile, hright]
      rw [htile]
      exact ⟨_, _, selectStm_of_select (hskip.trans (firstFit_ok rfl)),
        hconst right i Rel.commute _ rfl rfl rfl rfl rfl⟩
    | none =>
      have htile : branchTile rel left right ifTrue ifFalse = .branch rel left right ifTrue ifFalse := by
        simp [branchTile, hright, hleft]
      have hfit : Pattern.fit (k := .stm) (.cjump Wild.rel (.const Wild.i) Wild.e Wild.t Wild.u)
          (.cjump rel left right ifTrue ifFalse) = .error (.failed .misfit) := by
        change (Pattern.fitFrom (.const Wild.i) left _).bind _ = _
        rw [fit_const_of_none _ _ hleft]
        rfl
      rw [htile]
      refine ⟨_, _, selectStm_of_select ((hskip.trans (firstFit_misfit hfit)).trans (firstFit_ok rfl)), ?_⟩
      rw [Tile.act_two rfl rfl]
      refine (run_lowered (e := left) rfl _).trans (bind_congr fun a => ?_)
      refine (run_lowered (e := right) rfl _).trans (bind_congr fun b => ?_)
      exact bind_pure _

/-! ### Every tree -/

theorem expRule [S : Supply] {e : Exp} {tile : Tile} (htile : tile? (.exp e) = some tile)
    (hholes : ∀ func args, e = .call func args → Exp.hole ∉ args) : ExpRuleIs stm exp e tile := by
  cases e with
  | hole => cases htile
  | const i => cases htile; exact constRule i
  | temp t => cases htile; exact tempRule t
  | bin op left right =>
    cases op with
    | other n => cases htile
    | plus => cases htile; exact arithRule .add left right
    | minus => cases htile; exact arithRule .sub left right
    | mul => cases htile; exact mulRule left right
    | div => cases htile; exact divRule left right
    | and => cases htile; exact arithRule .and left right
    | or => cases htile; exact arithRule .or left right
    | shl => cases htile; exact shiftRule .left left right
    | shr => cases htile; exact shiftRule .right left right
    | sar => cases htile; exact shiftRule .arithmeticRight left right
    | xor => cases htile; exact arithRule .xor left right
  | mem addr => cases htile; exact loadRule addr
  | call func args =>
    have hargs := hholes func args rfl
    cases func with
    | name l => cases htile; exact callRule l args hargs
    | _ => cases htile; exact callRegRule _ args (fun _ => Exp.noConfusion) hargs
  | name l => cases htile; exact nameRule l
  | eseq s e => cases htile; exact eseqRule s e

theorem stmRule [S : Supply] {s : Stm} {tile : Tile} (htile : tile? (.stm s) = some tile) :
    StmRuleIs stm exp s tile := by
  cases s with
  | hole => cases htile
  | move dst src =>
    cases dst with
    | mem addr => cases htile; exact storeRule addr src
    | temp dst => cases htile; exact setRule dst src
    | _ => cases htile
  | exp e => cases htile; exact dropRule e
  | label l => cases htile; exact labelRule l
  | seq first second => cases htile; exact seqRule first second
  | jump target labels =>
    cases target with
    | name l => cases htile; exact jumpRule l labels
    | _ => cases htile; exact jumpRegRule _ labels (fun _ => Exp.noConfusion)
  | cjump rel left right ifTrue ifFalse => cases htile; exact branchRule rel left right ifTrue ifFalse

end Lowering.X86
