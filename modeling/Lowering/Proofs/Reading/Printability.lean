import Lowering.Proofs.Program.Bodies
import Lowering.Proofs.Reading.Trees

/-!
# Built trees can be printed

Labels of a tree that was built come from words that were read, its operators were found in the list, its moves go where
a value can be put and its jumps have labels. Its registers were handed out or are fixed ones of the machine. So it can
be told from its text.
-/

namespace Lowering

open SExpr

/-- Does the number of the register that a variable lives in, if it lives in one, fit its name? -/
def Access.Named : Access → Prop
  | .inFrame _ => True
  | .inReg t => t.Named

theorem Access.Named.exp {a : Access} (ha : a.Named) : (a.exp X86.framePointerExp).Printable := by
  cases a with
  | inFrame offset => exact ⟨by decide, show (-256 : Int) < -6 by decide, trivial⟩
  | inReg t => exact ha

theorem Temp.named_of_pos {t : Temp} (ht : 0 < t.id) : t.Named := by
  rw [Temp.Named]
  omega

namespace Program

/-- All registers of the workspace have numbers that fit their names. -/
structure Workspace.Named (w : Workspace) : Prop where
  temps : ∀ name t, (name, t) ∈ w.temps → t.Named
  locals : ∀ name a, (name, a) ∈ w.locals → a.Named
  formals : ∀ a ∈ w.frame.formals, a.Named

namespace Building

variable {α β : Type}

/-- If the step succeeds, it yields something for which `P` holds. -/
def Keeps (x : Building α) (w : Workspace) (P : α → Prop) : Prop :=
  w.Named → ∀ a w', x.run.run w = (.ok a, w') → w'.Named ∧ P a

namespace Keeps

variable {x : Building α} {f : α → Building β} {w : Workspace} {P : α → Prop} {Q : β → Prop}

theorem pure {a : α} (ha : P a) : Keeps (Pure.pure a) w P := by
  intro hw b w' hrun
  cases hrun
  exact ⟨hw, ha⟩

theorem bind (hx : Keeps x w P) (hf : ∀ a w₁, P a → Keeps (f a) w₁ Q) : Keeps (x >>= f) w Q := by
  intro hw b w₂ hrun
  cases hx₁ : x.run.run w with
  | mk r w₁ =>
    cases r with
    | ok a =>
      rw [bind_run_ok hx₁] at hrun
      obtain ⟨hw₁, ha⟩ := hx hw a w₁ hx₁
      exact hf a w₁ ha hw₁ b w₂ hrun
    | error why =>
      rw [bind_run_error hx₁] at hrun
      cases (Prod.mk.inj hrun).1

theorem fail (src : Source) (x : SExpr) (problem : Problem) : Keeps (Building.fail src x problem) w P := by
  intro _ a w' hrun
  cases (Prod.mk.inj hrun).1

theorem wrongArity (src : Source) (span : Span) (items : List SExpr) (takes : Nat) :
    Keeps (Program.wrongArity src span items takes) w P := fail src _ _

theorem ofExcept {r : Except FormError α} (hr : ∀ a, r = .ok a → P a) : Keeps (Building.ofExcept r) w P := by
  intro hw a w' hrun
  cases r with
  | ok b =>
    cases hrun
    exact ⟨hw, hr a rfl⟩
  | error e => cases (Prod.mk.inj hrun).1

theorem within (step : Step) (hx : Keeps x w P) : Keeps (Building.within step x) w P := by
  intro hw a w' hrun
  rw [within_run] at hrun
  cases hx₁ : x.run.run w with
  | mk r w₁ =>
    rw [hx₁] at hrun
    cases r with
    | ok b =>
      cases hrun
      exact hx hw a w' hx₁
    | error why => cases (Prod.mk.inj hrun).1

theorem get_bind {f : Workspace → Building β} (hf : w.Named → Keeps (f w) w Q) : Keeps (get >>= f) w Q :=
  fun hw => hf hw hw

end Keeps

theorem namedTemp_keeps (name : Text) (w : Workspace) : Keeps (namedTemp name) w Temp.Named := by
  apply Keeps.get_bind
  intro hw
  cases hlookup : w.temps.lookup name with
  | some t => exact .pure (hw.temps name t (mem_of_lookup hlookup))
  | none =>
    intro _ t w' hrun
    have hnew : Temp.Named (Session.freshTemp.run w.session).1 :=
      Temp.named_of_pos (show (0 : Int) < (w.session.temps : Int) + 1 by omega)
    cases hrun
    refine ⟨⟨?_, hw.locals, hw.formals⟩, hnew⟩
    intro other t ht
    rcases List.mem_cons.mp ht with heq | ht
    · cases heq
      exact hnew
    · exact hw.temps other t ht

/-- Storage of a new local is a slot or a new register. -/
theorem addLocal_named {frame frame' : X86.Frame} {escapes : Bool} {session session' : Session} {a : Access}
    (h : (frame.addLocal escapes).run session = (.ok (a, frame'), session')) :
    a.Named ∧ frame'.formals = frame.formals := by
  obtain ⟨name, formals, locals, sealed⟩ := frame
  cases sealed with
  | true => cases (Prod.mk.inj h).1
  | false =>
    cases escapes with
    | true =>
      cases h
      exact ⟨trivial, rfl⟩
    | false =>
      cases h
      exact ⟨Temp.named_of_pos (show (0 : Int) < (session.temps : Int) + 1 by omega), rfl⟩

theorem namedLocal_keeps (name : Text) (escapes : Bool) (w : Workspace) :
    Keeps (namedLocal name escapes) w Access.Named := by
  apply Keeps.get_bind
  intro hw
  cases hlookup : w.locals.lookup name with
  | some a => exact .pure (hw.locals name a (mem_of_lookup hlookup))
  | none =>
    dsimp only
    cases hadd : (w.frame.addLocal escapes).run w.session with
    | mk r session =>
      intro _ a w' hrun
      cases r with
      | error f => cases (Prod.mk.inj hrun).1
      | ok found =>
        cases hrun
        obtain ⟨hnamed, hformals⟩ := addLocal_named hadd
        refine ⟨⟨hw.temps, ?_, fun b hb => hw.formals b (hformals ▸ hb)⟩, hnamed⟩
        intro other b hb
        rcases List.mem_cons.mp hb with heq | hb
        · cases heq
          exact hnamed
        · exact hw.locals other b hb

end Building

theorem constant_keeps (src : Source) (x : SExpr) (value : Int) (w : Workspace) :
    Building.Keeps (constant src x value) w Exp.Printable := by
  unfold constant
  split
  · exact .fail src x _
  · exact .pure trivial

theorem nameOf_keeps (src : Source) {x : SExpr} (hx : x.datum.readable = true) (w : Workspace) :
    Building.Keeps (Building.ofExcept (nameOf src x)) w fun name => isName name = true := by
  refine .ofExcept fun name h => ?_
  cases x with
  | atom at' text =>
    cases h
    exact hx
  | int | list => cases h

theorem labelsOf_keeps (src : Source) {xs : List SExpr} (hxs : Datum.readableAll (data xs) = true) (w : Workspace) :
    Building.Keeps (labelsOf src xs) w fun ls => ls.length = xs.length ∧ ∀ l ∈ ls, isName l = true := by
  induction xs generalizing w with
  | nil => exact .pure ⟨rfl, List.forall_mem_nil _⟩
  | cons x rest ih =>
    obtain ⟨hx, hrest⟩ := Bool.and_eq_true_iff.mp hxs
    refine .bind (nameOf_keeps src hx w) fun l w₁ hl => ?_
    refine .bind (ih hrest w₁) fun ls w₂ hls => ?_
    exact .pure ⟨congrArg (· + 1) hls.1, List.forall_mem_cons.mpr ⟨hl, hls.2⟩⟩

theorem seqs_printable {ss : List Stm} (hss : ∀ s ∈ ss, s.Printable) : (Stm.seqs ss).Printable := by
  induction ss with
  | nil => trivial
  | cons s rest ih =>
    obtain ⟨hs, hrest⟩ := List.forall_mem_cons.mp hss
    by_cases hhole : s = .hole
    · rw [hhole, Stm.seqs_hole_cons]
      exact ih hrest
    · by_cases hend : Stm.seqs rest = .hole
      · rw [Stm.seqs_cons_of_hole hend]
        exact hs
      · rw [Stm.seqs_cons_of_ne hhole hend]
        exact ⟨hhole, hend, hs, ih hrest⟩

theorem readableAll_parts {span at' : Span} {head : Text} {parts : List SExpr}
    (h : (SExpr.list span (.atom at' head :: parts)).datum.readable = true) :
    Datum.readableAll (data parts) = true := (Bool.and_eq_true_iff.mp h).2

theorem readable_one {x : SExpr} (h : Datum.readableAll (data [x]) = true) : x.datum.readable = true :=
  (Bool.and_eq_true_iff.mp h).1

theorem readable_two {x y : SExpr} (h : Datum.readableAll (data [x, y]) = true) :
    x.datum.readable = true ∧ y.datum.readable = true :=
  ⟨(Bool.and_eq_true_iff.mp h).1, readable_one (Bool.and_eq_true_iff.mp h).2⟩

mutual

theorem buildStm_keeps (src : Source) (x : SExpr) (hx : x.datum.readable = true) (w : Workspace) :
    Building.Keeps (buildStm src x) w Stm.Printable := by
  match x with
  | .atom .. | .int .. =>
    unfold buildStm
    exact .fail src _ _
  | .list span items =>
    unfold buildStm
    dsimp only
    cases hhead : StmHead.ofText? (headOf items) with
    | none => exact .fail src _ _
    | some head =>
      obtain ⟨at', parts, hitems⟩ := items_of_stmHead hhead
      rw [hitems] at hx ⊢
      replace hx := readableAll_parts hx
      cases head with
      | move =>
        match parts with
        | [] | [_] | _ :: _ :: _ :: _ => exact Building.Keeps.wrongArity src span _ _
        | [d, s] =>
          obtain ⟨hd, hs⟩ := readable_two hx
          refine .bind (.within _ (buildExp_keeps src d hd w)) fun dst w₁ hdst => ?_
          cases hplace : isDestination dst with
          | false => exact .bind (P := fun _ => False) (.fail src d _) fun _ _ h => h.elim
          | true =>
            refine .bind (.within _ (buildExp_keeps src s hs w₁)) fun value w₂ hvalue => ?_
            exact .pure ⟨isPlace_of_isDestination hplace, hdst, hvalue⟩
      | exp =>
        match parts with
        | [] | _ :: _ :: _ => exact Building.Keeps.wrongArity src span _ _
        | [e] => exact .bind (buildExp_keeps src e (readable_one hx) w) fun value w₁ hvalue => .pure hvalue
      | label =>
        match parts with
        | [] | _ :: _ :: _ => exact Building.Keeps.wrongArity src span _ _
        | [l] => exact .bind (nameOf_keeps src (readable_one hx) w) fun name w₁ hname => .pure hname
      | seq => exact .bind (buildSeq_keeps src 0 parts hx w) fun stms w₁ hstms => .pure (seqs_printable hstms)
      | jump =>
        match parts with
        | [] => exact .fail src _ _
        | [l] =>
          refine .bind (nameOf_keeps src (readable_one hx) w) fun name w₁ hname => .pure ?_
          exact ⟨hname, List.cons_ne_nil _ _, List.forall_mem_singleton.mpr hname⟩
        | t :: l :: ls =>
          obtain ⟨ht, hls⟩ := Bool.and_eq_true_iff.mp hx
          refine .bind (.within _ (buildExp_keeps src t ht w)) fun target w₁ htarget => ?_
          refine .bind (labelsOf_keeps src hls w₁) fun labels w₂ hlabels => .pure ⟨htarget, ?_, hlabels.2⟩
          rintro rfl
          cases hlabels.1
      | cjump =>
        match parts with
        | [] | [_] | [_, _] | [_, _, _] | [_, _, _, _] | _ :: _ :: _ :: _ :: _ :: _ :: _ =>
          exact Building.Keeps.wrongArity src span _ _
        | [o, l, r, t, f] =>
          obtain ⟨ho, hx⟩ := Bool.and_eq_true_iff.mp hx
          obtain ⟨hl, hx⟩ := Bool.and_eq_true_iff.mp hx
          obtain ⟨hr, hx⟩ := Bool.and_eq_true_iff.mp hx
          obtain ⟨ht, hf⟩ := readable_two hx
          refine .bind (nameOf_keeps src ho w) fun name w₁ _ => ?_
          cases hrel : Rel.ofText? name with
          | none => exact .fail src o _
          | some rel =>
            refine .bind (.within _ (buildExp_keeps src l hl w₁)) fun left w₂ hleft => ?_
            refine .bind (.within _ (buildExp_keeps src r hr w₂)) fun right w₃ hright => ?_
            refine .bind (nameOf_keeps src ht w₃) fun ifTrue w₄ htrue => ?_
            refine .bind (nameOf_keeps src hf w₄) fun ifFalse w₅ hfalse => ?_
            exact .pure ⟨List.mem_of_find?_eq_some hrel, hleft, hright, htrue, hfalse⟩
termination_by sizeOf x
decreasing_by
  all_goals rw [hitems]
  all_goals simp_wf
  all_goals omega

theorem buildSeq_keeps (src : Source) (index : Nat) (xs : List SExpr) (hxs : Datum.readableAll (data xs) = true)
    (w : Workspace) : Building.Keeps (buildSeq src index xs) w fun ss => ∀ s ∈ ss, s.Printable := by
  unfold buildSeq
  match xs with
  | [] => exact .pure (List.forall_mem_nil _)
  | x :: rest =>
    obtain ⟨hx, hrest⟩ := Bool.and_eq_true_iff.mp hxs
    refine .bind (.within _ (buildStm_keeps src x hx w)) fun s w₁ hs => ?_
    exact .bind (buildSeq_keeps src (index + 1) rest hrest w₁) fun ss w₂ hss =>
      .pure (List.forall_mem_cons.mpr ⟨hs, hss⟩)
termination_by sizeOf xs
decreasing_by
  all_goals simp_wf
  all_goals omega

theorem buildExp_keeps (src : Source) (x : SExpr) (hx : x.datum.readable = true) (w : Workspace) :
    Building.Keeps (buildExp src x) w Exp.Printable := by
  match x with
  | .int at' value =>
    unfold buildExp
    exact constant_keeps src _ value w
  | .atom at' text =>
    unfold buildExp
    split
    · exact .pure (show (-256 : Int) < -6 by decide)
    · split
      · exact .pure (show (-256 : Int) < -1 by decide)
      · exact .fail src _ _
  | .list span items =>
    unfold buildExp
    dsimp only
    cases hhead : ExpHead.ofText? (headOf items) with
    | some head =>
      obtain ⟨at', parts, hitems⟩ := items_of_expHead hhead
      rw [hitems] at hx ⊢
      replace hx := readableAll_parts hx
      cases head with
      | const =>
        match parts with
        | [] | _ :: _ :: _ => exact Building.Keeps.wrongArity src span _ _
        | [.atom ..] | [.list ..] => exact .fail src _ _
        | [.int at'' value] => exact constant_keeps src _ value w
      | temp =>
        match parts with
        | [] | _ :: _ :: _ => exact Building.Keeps.wrongArity src span _ _
        | [n] =>
          refine .bind (nameOf_keeps src (readable_one hx) w) fun name w₁ _ => ?_
          exact .bind (Building.namedTemp_keeps name w₁) fun t w₂ ht => .pure ht
      | formal =>
        match parts with
        | [] | _ :: _ :: _ => exact Building.Keeps.wrongArity src span _ _
        | [.atom ..] | [.list ..] => exact .get_bind fun _ => .fail src _ _
        | [.int at'' value] =>
          refine .get_bind fun hw => ?_
          cases hformal : if value < 0 then none else w.frame.formals[value.toNat]? with
          | none =>
            dsimp only
            rw [hformal]
            exact .fail src _ _
          | some a =>
            dsimp only
            rw [hformal]
            split at hformal
            · cases hformal
            · exact .pure (hw.formals a (List.mem_of_getElem? hformal)).exp
      | «local» =>
        match parts with
        | [] | [_] | _ :: _ :: _ :: _ => exact Building.Keeps.wrongArity src span _ _
        | [n, flag] =>
          obtain ⟨hn, _⟩ := readable_two hx
          refine .bind (nameOf_keeps src hn w) fun name w₁ _ => ?_
          refine .bind (P := fun _ => True) (.ofExcept fun _ _ => trivial) fun escapes w₂ _ => ?_
          exact .bind (Building.namedLocal_keeps name escapes w₂) fun a w₃ ha => .pure ha.exp
      | mem =>
        match parts with
        | [] | _ :: _ :: _ => exact Building.Keeps.wrongArity src span _ _
        | [a] => exact .bind (.within _ (buildExp_keeps src a (readable_one hx) w)) fun addr w₁ haddr => .pure haddr
      | name =>
        match parts with
        | [] | _ :: _ :: _ => exact Building.Keeps.wrongArity src span _ _
        | [l] => exact .bind (nameOf_keeps src (readable_one hx) w) fun name w₁ hname => .pure hname
      | call =>
        match parts with
        | [] => exact .fail src _ _
        | f :: args =>
          obtain ⟨hf, hargs⟩ := Bool.and_eq_true_iff.mp hx
          refine .bind (.within _ (buildExp_keeps src f hf w)) fun func w₁ hfunc => ?_
          exact .bind (buildArgs_keeps src 0 args hargs w₁) fun values w₂ hvalues => .pure ⟨hfunc, hvalues⟩
      | eseq =>
        match parts with
        | [] | [_] | _ :: _ :: _ :: _ => exact Building.Keeps.wrongArity src span _ _
        | [s, e] =>
          obtain ⟨hs, he⟩ := readable_two hx
          refine .bind (.within _ (buildStm_keeps src s hs w)) fun stm w₁ hstm => ?_
          exact .bind (.within _ (buildExp_keeps src e he w₁)) fun value w₂ hvalue => .pure ⟨hstm, hvalue⟩
    | none =>
      dsimp only
      cases hop : Op.ofText? (headOf items) with
      | none => exact .fail src _ _
      | some op =>
        obtain ⟨hlisted, at', parts, hitems⟩ := items_of_op hop
        rw [hitems] at hx ⊢
        replace hx := readableAll_parts hx
        match parts with
        | [] | [_] | _ :: _ :: _ :: _ => exact Building.Keeps.wrongArity src span _ _
        | [l, r] =>
          obtain ⟨hl, hr⟩ := readable_two hx
          refine .bind (.within _ (buildExp_keeps src l hl w)) fun left w₁ hleft => ?_
          exact .bind (.within _ (buildExp_keeps src r hr w₁)) fun right w₂ hright => .pure ⟨hlisted, hleft, hright⟩
termination_by sizeOf x
decreasing_by
  all_goals rw [hitems]
  all_goals simp_wf
  all_goals omega

theorem buildArgs_keeps (src : Source) (index : Nat) (xs : List SExpr) (hxs : Datum.readableAll (data xs) = true)
    (w : Workspace) : Building.Keeps (buildArgs src index xs) w Exp.PrintableAll := by
  unfold buildArgs
  match xs with
  | [] => exact .pure trivial
  | x :: rest =>
    obtain ⟨hx, hrest⟩ := Bool.and_eq_true_iff.mp hxs
    refine .bind (.within _ (buildExp_keeps src x hx w)) fun e w₁ he => ?_
    exact .bind (buildArgs_keeps src (index + 1) rest hrest w₁) fun es w₂ hes => .pure ⟨he, hes⟩
termination_by sizeOf xs
decreasing_by
  all_goals simp_wf
  all_goals omega

end

end Program

end Lowering
