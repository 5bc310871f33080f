import Lowering.Proofs.Operands.Writes
import Lowering.Proofs.Program.Building
import Lowering.Proofs.Program.Forms
import Lowering.Proofs.Tiling.Coverage

/-!
# Built bodies

What the builder makes of a form. Moves go to registers or memory, operators are on the list, and registers were
handed out. A statement is missing in the tree only if its form is void, a `seq` that holds nothing but void
forms; so the tree has a gap exactly if the form has one, that is, if an `eseq` somewhere in it has a void statement.
-/

namespace Lowering

mutual

/-- Is the form a `seq` of nothing but such forms? -/
def SExpr.isVoid : SExpr → Bool
  | .list _ (.atom _ head :: parts) => decide (head = Program.StmHead.seq.text) && SExpr.areVoid parts
  | _ => false

@[inherit_doc SExpr.isVoid]
def SExpr.areVoid : List SExpr → Bool
  | [] => true
  | x :: rest => x.isVoid && SExpr.areVoid rest

end

/-- Are these the items of an `eseq` with a void statement? -/
def SExpr.isGap : List SExpr → Bool
  | [.atom _ head, s, _] => decide (head = Program.ExpHead.eseq.text) && s.isVoid
  | _ => false

mutual

/-- Is there an `eseq` with a void statement somewhere in the form? -/
def SExpr.hasGap : SExpr → Bool
  | .list _ items => SExpr.isGap items || SExpr.hasGapAny items
  | _ => false

@[inherit_doc SExpr.hasGap]
def SExpr.hasGapAny : List SExpr → Bool
  | [] => false
  | x :: rest => x.hasGap || SExpr.hasGapAny rest

end

namespace Stm

/-! ### Sequences -/

theorem seqs_hole_cons (rest : List Stm) : seqs (.hole :: rest) = seqs rest := rfl

theorem seqs_cons_of_hole {s : Stm} {rest : List Stm} (hrest : seqs rest = .hole) : seqs (s :: rest) = s := by
  by_cases hs : s = .hole
  · rw [hs, seqs_hole_cons, hrest]
  · simp only [seqs, hrest]

theorem seqs_cons_of_ne {s : Stm} {rest : List Stm} (hs : s ≠ .hole) (hrest : seqs rest ≠ .hole) :
    seqs (s :: rest) = .seq s (seqs rest) := by
  simp only [seqs]

end Stm

namespace Program

/-- A tree built of a statement, with at most `n` registers handed out. -/
structure StmBuilt (void gap : Bool) (s : Stm) (n : Nat) : Prop where
  hole : s = .hole ↔ void = true
  covered : s = .hole ∨ s.covered = true
  gap : s.hasGap = gap
  temps : ∀ t ∈ s.temps, t.id ≤ n

/-- A tree built of an expression, with at most `n` registers handed out. -/
structure ExpBuilt (gap : Bool) (e : Exp) (n : Nat) : Prop where
  covered : e.covered = true
  gap : e.hasGap = gap
  temps : ∀ t ∈ e.temps, t.id ≤ n

namespace StmBuilt

variable {void gap : Bool} {s : Stm} {n n' : Nat}

theorem mono (h : StmBuilt void gap s n) (hn : n ≤ n') : StmBuilt void gap s n' where
  hole := h.hole
  covered := h.covered
  gap := h.gap
  temps t ht := Int.le_trans (h.temps t ht) (Int.ofNat_le.mpr hn)

theorem of_covered (hcovered : s.covered = true) (hgap : s.hasGap = gap) (htemps : ∀ t ∈ s.temps, t.id ≤ n) :
    StmBuilt false gap s n where
  hole := by
    constructor
    · rintro rfl
      cases hcovered
    · intro h
      cases h
  covered := .inr hcovered
  gap := hgap
  temps := htemps

theorem there (h : StmBuilt false gap s n) : s.covered = true := by
  refine h.covered.resolve_left fun hhole => ?_
  cases h.hole.mp hhole

theorem nil : StmBuilt true false (Stm.seqs []) n :=
  ⟨⟨fun _ => rfl, fun _ => rfl⟩, .inl rfl, rfl, List.forall_mem_nil _⟩

/-- A statement in front of a sequence. -/
theorem cons {void' gap' : Bool} {ss : List Stm} (hs : StmBuilt void gap s n)
    (hss : StmBuilt void' gap' (Stm.seqs ss) n) : StmBuilt (void && void') (gap || gap') (Stm.seqs (s :: ss)) n := by
  by_cases hhole : s = .hole
  · obtain rfl := hhole
    have hvoid : void = true := hs.hole.mp rfl
    have hgap : gap = false := hs.gap.symm
    rw [hvoid, hgap, Bool.true_and, Bool.false_or, Stm.seqs_hole_cons]
    exact hss
  · have hvoid : void = false := Bool.eq_false_iff.mpr fun h => hhole (hs.hole.mpr h)
    have hcovered := hs.covered.resolve_left hhole
    rw [hvoid, Bool.false_and]
    by_cases hrest : Stm.seqs ss = .hole
    · have hgap' : gap' = false := by rw [← hss.gap, hrest]; rfl
      rw [Stm.seqs_cons_of_hole hrest, hgap', Bool.or_false]
      exact of_covered hcovered hs.gap hs.temps
    · rw [Stm.seqs_cons_of_ne hhole hrest]
      refine of_covered ?_ ?_ ?_
      · rw [Stm.covered, hcovered, hss.covered.resolve_left hrest, Bool.and_self]
      · rw [Stm.hasGap, hs.gap, hss.gap]
      · rw [Stm.temps]
        exact List.forall_mem_append.mpr ⟨hs.temps, hss.temps⟩

/-- Statements that are all there in front of a sequence. -/
theorem append {l ss : List Stm} (hl : ∀ s ∈ l, StmBuilt false false s n) (hss : StmBuilt void gap (Stm.seqs ss) n) :
    StmBuilt (l.isEmpty && void) gap (Stm.seqs (l ++ ss)) n := by
  induction l with
  | nil => exact hss
  | cons s rest ih =>
    obtain ⟨hs, hrest⟩ := List.forall_mem_cons.mp hl
    have hcons := hs.cons (ih hrest)
    exact hcons

end StmBuilt

theorem ExpBuilt.mono {gap : Bool} {e : Exp} {n n' : Nat} (h : ExpBuilt gap e n) (hn : n ≤ n') : ExpBuilt gap e n' where
  covered := h.covered
  gap := h.gap
  temps t ht := Int.le_trans (h.temps t ht) (Int.ofNat_le.mpr hn)

section

variable {gap gap' void : Bool} {n : Nat}

theorem StmBuilt.move {dst src : Exp} (hplace : dst.isPlace = true) (hdst : ExpBuilt gap dst n)
    (hsrc : ExpBuilt gap' src n) : StmBuilt false (gap || gap') (.move dst src) n := by
  refine .of_covered ?_ ?_ (List.forall_mem_append.mpr ⟨hdst.temps, hsrc.temps⟩)
  · rw [Stm.covered, hplace, hdst.covered, hsrc.covered]
    rfl
  · rw [Stm.hasGap, hdst.gap, hsrc.gap]

theorem StmBuilt.cjump {left right : Exp} (rel : Rel) (t f : Label) (hleft : ExpBuilt gap left n)
    (hright : ExpBuilt gap' right n) : StmBuilt false (gap || gap') (.cjump rel left right t f) n := by
  refine .of_covered ?_ ?_ (List.forall_mem_append.mpr ⟨hleft.temps, hright.temps⟩)
  · rw [Stm.covered, hleft.covered, hright.covered]
    rfl
  · rw [Stm.hasGap, hleft.gap, hright.gap]

theorem ExpBuilt.bin {op : Op} {left right : Exp} (hop : op ∈ Op.listed) (hleft : ExpBuilt gap left n)
    (hright : ExpBuilt gap' right n) : ExpBuilt (gap || gap') (.bin op left right) n where
  covered := by
    rw [Exp.covered, decide_eq_true hop, hleft.covered, hright.covered]
    rfl
  gap := by rw [Exp.hasGap, hleft.gap, hright.gap]
  temps := List.forall_mem_append.mpr ⟨hleft.temps, hright.temps⟩

/-- A sequence expression has a gap of its own if its statement is missing. -/
theorem ExpBuilt.eseq {s : Stm} {e : Exp} (hs : StmBuilt void gap s n) (he : ExpBuilt gap' e n) :
    ExpBuilt (void || gap || gap') (.eseq s e) n := by
  have hvoid : Kind.stm.isHole s = void := by
    rw [Bool.eq_iff_iff, X86.isHole_stm_iff]
    exact hs.hole
  refine ⟨?_, ?_, List.forall_mem_append.mpr ⟨hs.temps, he.temps⟩⟩
  · rw [Exp.covered, he.covered, Bool.and_true, Bool.or_eq_true, X86.isHole_stm_iff]
    exact hs.covered
  · rw [Exp.hasGap, hvoid, hs.gap, he.gap]

theorem ExpBuilt.temp {t : Temp} (ht : t.id ≤ n) : ExpBuilt false (.temp t) n :=
  ⟨rfl, rfl, List.forall_mem_singleton.mpr ht⟩

/-- The fixed registers may be named at any time. -/
theorem ExpBuilt.fixed {t : Temp} (ht : t.id < 0) : ExpBuilt false (.temp t) n := .temp (by omega)

theorem StmBuilt.copy {dst src : Temp} (hdst : dst.id ≤ n) (hsrc : src.id ≤ n) :
    StmBuilt false false (.move (.temp dst) (.temp src)) n := by
  have hmove := StmBuilt.move rfl (.temp hdst) (.temp hsrc)
  exact hmove

/-- The storage of a variable as an expression. -/
theorem ExpBuilt.access {a : Access} (ha : Access.Issued n a) : ExpBuilt false (a.exp X86.framePointerExp) n := by
  cases a with
  | inFrame offset =>
    have hframe : ExpBuilt false X86.framePointerExp n := .fixed (by decide)
    exact ⟨rfl, rfl, List.forall_mem_append.mpr ⟨hframe.temps, List.forall_mem_nil _⟩⟩
  | inReg t => exact .temp ha

end

/-- Trees built of arguments, with at most `n` registers handed out. -/
structure ArgsBuilt (gap : Bool) (es : List Exp) (n : Nat) : Prop where
  covered : Exp.coveredAll es = true
  gap : Exp.hasGapAny es = gap
  temps : ∀ t ∈ Exp.tempsAll es, t.id ≤ n

theorem ArgsBuilt.cons {gap gap' : Bool} {e : Exp} {es : List Exp} {n : Nat} (he : ExpBuilt gap e n)
    (hes : ArgsBuilt gap' es n) : ArgsBuilt (gap || gap') (e :: es) n where
  covered := by rw [Exp.coveredAll, he.covered, hes.covered, Bool.and_self]
  gap := by rw [Exp.hasGapAny, he.gap, hes.gap]
  temps := List.forall_mem_append.mpr ⟨he.temps, hes.temps⟩

theorem ExpBuilt.call {gap gap' : Bool} {func : Exp} {args : List Exp} {n : Nat} (hfunc : ExpBuilt gap func n)
    (hargs : ArgsBuilt gap' args n) : ExpBuilt (gap || gap') (.call func args) n where
  covered := by rw [Exp.covered, hfunc.covered, hargs.covered, Bool.and_self]
  gap := by rw [Exp.hasGap, hfunc.gap, hargs.gap]
  temps := List.forall_mem_append.mpr ⟨hfunc.temps, hargs.temps⟩

/-! ### Heads -/

section

variable {span at' : Span} {head : Text} {parts : List SExpr}

theorem isVoid_form (hhead : head ≠ StmHead.seq.text) : (SExpr.list span (.atom at' head :: parts)).isVoid = false := by
  rw [SExpr.isVoid, decide_eq_false hhead, Bool.false_and]

theorem isVoid_seq : (SExpr.list span (.atom at' StmHead.seq.text :: parts)).isVoid = SExpr.areVoid parts := by
  rw [SExpr.isVoid, decide_eq_true rfl, Bool.true_and]

theorem hasGap_atom {text : Text} : (SExpr.atom at' text).hasGap = false := by simp [SExpr.hasGap]

theorem hasGap_int {value : Int} : (SExpr.int at' value).hasGap = false := by simp [SExpr.hasGap]

theorem hasGap_form (hhead : head ≠ ExpHead.eseq.text) :
    (SExpr.list span (.atom at' head :: parts)).hasGap = SExpr.hasGapAny parts := by
  have hgap : SExpr.isGap (.atom at' head :: parts) = false := by
    match parts with
    | [s, e] => rw [SExpr.isGap, decide_eq_false hhead, Bool.false_and]
    | [] | [_] | _ :: _ :: _ :: _ => rfl
  rw [SExpr.hasGap, hgap, SExpr.hasGapAny, hasGap_atom, Bool.false_or, Bool.false_or]

theorem hasGap_eseq (s e : SExpr) :
    (SExpr.list span [.atom at' ExpHead.eseq.text, s, e]).hasGap = (s.isVoid || s.hasGap || e.hasGap) := by
  simp [SExpr.hasGap, SExpr.hasGapAny, SExpr.isGap, Bool.or_assoc]

theorem hasGapAny_singleton (x : SExpr) : SExpr.hasGapAny [x] = x.hasGap := Bool.or_false _

theorem hasGapAny_pair (x y : SExpr) : SExpr.hasGapAny [x, y] = (x.hasGap || y.hasGap) := by
  rw [SExpr.hasGapAny, hasGapAny_singleton]

theorem hasGap_of_nameOf {src : Source} {x : SExpr} {name : Text} (h : nameOf src x = .ok name) : x.hasGap = false := by
  cases x with
  | atom at' text => exact hasGap_atom
  | int at' value => cases h
  | list span items => cases h

end

/-! ### Statements and expressions -/

theorem constant_ensures (src : Source) (x : SExpr) (value : Int) (w : Workspace) :
    Building.Ensures (constant src x value) w (ExpBuilt false) := by
  unfold constant
  split
  · exact .fail src x _
  · exact .pure ⟨rfl, rfl, List.forall_mem_nil _⟩

theorem nameOf_ensures (src : Source) (x : SExpr) (w : Workspace) :
    Building.Ensures (Building.ofExcept (nameOf src x)) w fun _ _ => x.hasGap = false :=
  .ofExcept fun _ h => hasGap_of_nameOf h

theorem flagOf_ensures (src : Source) (x : SExpr) (w : Workspace) :
    Building.Ensures (Building.ofExcept (flagOf src x)) w fun _ _ => x.hasGap = false := by
  refine .ofExcept fun flag h => ?_
  cases x with
  | atom at' text => exact hasGap_atom
  | int at' value => cases h
  | list span items => cases h

theorem labelsOf_ensures (src : Source) (xs : List SExpr) (w : Workspace) :
    Building.Ensures (labelsOf src xs) w fun _ _ => SExpr.hasGapAny xs = false := by
  induction xs generalizing w with
  | nil => exact .pure rfl
  | cons x rest ih =>
    refine .bind (nameOf_ensures src x w) fun l w₁ h₁ hx => ?_
    refine .bind (ih w₁) fun ls w₂ h₂ hrest => ?_
    exact .pure (by rw [SExpr.hasGapAny, hx, hrest]; rfl)

theorem isPlace_of_isDestination {e : Exp} (h : isDestination e = true) : e.isPlace = true := by
  cases e <;> first | rfl | cases h

mutual

/-- What a statement is built to. -/
theorem buildStm_ensures (src : Source) (x : SExpr) (w : Workspace) :
    Building.Ensures (buildStm src x) w (StmBuilt x.isVoid x.hasGap) := by
  match x with
  | .atom .. | .int .. =>
    unfold buildStm
    exact .fail src _ _
  | .list span items =>
    unfold buildStm
    dsimp only
    cases hhead : StmHead.ofText? (headOf items) with
    | none => exact .fail src _ _
    | some head =>
      obtain ⟨at', parts, hitems⟩ := items_of_stmHead hhead
      rw [hitems]
      cases head with
      | move =>
        rw [isVoid_form (by decide), hasGap_form (by decide)]
        match parts with
        | [] | [_] | _ :: _ :: _ :: _ => exact Building.Ensures.wrongArity src span _ _
        | [d, s] =>
          refine .bind (.within _ (buildExp_ensures src d w)) fun dst w₁ h₁ hdst => ?_
          cases hplace : isDestination dst with
          | false => exact .bind (P := fun _ _ => False) (.fail src d _) fun _ _ _ h => h.elim
          | true =>
            refine .bind (.within _ (buildExp_ensures src s w₁)) fun value w₂ h₂ hvalue => ?_
            rw [hasGapAny_pair]
            exact .pure (.move (isPlace_of_isDestination hplace) (hdst.mono h₂) hvalue)
      | exp =>
        rw [isVoid_form (by decide), hasGap_form (by decide)]
        match parts with
        | [] | _ :: _ :: _ => exact Building.Ensures.wrongArity src span _ _
        | [e] =>
          refine .bind (buildExp_ensures src e w) fun value w₁ h₁ hvalue => ?_
          rw [hasGapAny_singleton]
          exact .pure (.of_covered hvalue.covered hvalue.gap hvalue.temps)
      | label =>
        rw [isVoid_form (by decide), hasGap_form (by decide)]
        match parts with
        | [] | _ :: _ :: _ => exact Building.Ensures.wrongArity src span _ _
        | [l] =>
          refine .bind (nameOf_ensures src l w) fun name w₁ h₁ hl => ?_
          rw [hasGapAny_singleton, hl]
          exact .pure (.of_covered rfl rfl (List.forall_mem_nil _))
      | seq =>
        rw [isVoid_seq, hasGap_form (by decide)]
        exact .bind (buildSeq_ensures src 0 parts w) fun stms w₁ h₁ hstms => .pure hstms
      | jump =>
        rw [isVoid_form (by decide), hasGap_form (by decide)]
        match parts with
        | [] => exact .fail src _ _
        | [l] =>
          refine .bind (nameOf_ensures src l w) fun name w₁ h₁ hl => ?_
          rw [hasGapAny_singleton, hl]
          exact .pure (.of_covered rfl rfl (List.forall_mem_nil _))
        | t :: l :: ls =>
          refine .bind (.within _ (buildExp_ensures src t w)) fun target w₁ h₁ htarget => ?_
          refine .bind (labelsOf_ensures src (l :: ls) w₁) fun labels w₂ h₂ hlabels => ?_
          rw [SExpr.hasGapAny, hlabels, Bool.or_false]
          exact .pure (.of_covered htarget.covered htarget.gap (htarget.mono h₂).temps)
      | cjump =>
        rw [isVoid_form (by decide), hasGap_form (by decide)]
        match parts with
        | [] | [_] | [_, _] | [_, _, _] | [_, _, _, _] | _ :: _ :: _ :: _ :: _ :: _ :: _ =>
          exact Building.Ensures.wrongArity src span _ _
        | [o, l, r, t, f] =>
          refine .bind (nameOf_ensures src o w) fun name w₁ h₁ ho => ?_
          cases Rel.ofText? name with
          | none => exact .fail src o _
          | some rel =>
            refine .bind (.within _ (buildExp_ensures src l w₁)) fun left w₂ h₂ hleft => ?_
            refine .bind (.within _ (buildExp_ensures src r w₂)) fun right w₃ h₃ hright => ?_
            refine .bind (nameOf_ensures src t w₃) fun ifTrue w₄ h₄ ht => ?_
            refine .bind (nameOf_ensures src f w₄) fun ifFalse w₅ h₅ hf => ?_
            have hgap : SExpr.hasGapAny [o, l, r, t, f] = (l.hasGap || r.hasGap) := by
              simp [SExpr.hasGapAny, ho, ht, hf]
            have h₃₅ := Nat.le_trans h₄ h₅
            rw [hgap]
            exact .pure (.cjump rel ifTrue ifFalse (hleft.mono (Nat.le_trans h₃ h₃₅)) (hright.mono h₃₅))
termination_by sizeOf x
decreasing_by
  all_goals rw [hitems]
  all_goals simp_wf
  all_goals omega

/-- What the statements of a `seq` are built to. -/
theorem buildSeq_ensures (src : Source) (index : Nat) (xs : List SExpr) (w : Workspace) :
    Building.Ensures (buildSeq src index xs) w fun ss n =>
      StmBuilt (SExpr.areVoid xs) (SExpr.hasGapAny xs) (Stm.seqs ss) n := by
  unfold buildSeq
  match xs with
  | [] => exact .pure .nil
  | x :: rest =>
    refine .bind (.within _ (buildStm_ensures src x w)) fun s w₁ h₁ hs => ?_
    refine .bind (buildSeq_ensures src (index + 1) rest w₁) fun ss w₂ h₂ hss => ?_
    rw [SExpr.areVoid, SExpr.hasGapAny]
    exact .pure ((hs.mono h₂).cons hss)
termination_by sizeOf xs
decreasing_by
  all_goals simp_wf
  all_goals omega

/-- What an expression is built to. -/
theorem buildExp_ensures (src : Source) (x : SExpr) (w : Workspace) :
    Building.Ensures (buildExp src x) w (ExpBuilt x.hasGap) := by
  match x with
  | .int at' value =>
    unfold buildExp
    rw [hasGap_int]
    exact constant_ensures src _ value w
  | .atom at' text =>
    unfold buildExp
    rw [hasGap_atom]
    split
    · exact .pure (.fixed (by decide))
    · split
      · exact .pure (.fixed (by decide))
      · exact .fail src _ _
  | .list span items =>
    unfold buildExp
    dsimp only
    cases hhead : ExpHead.ofText? (headOf items) with
    | some head =>
      obtain ⟨at', parts, hitems⟩ := items_of_expHead hhead
      rw [hitems]
      cases head with
      | const =>
        rw [hasGap_form (by decide)]
        match parts with
        | [] | _ :: _ :: _ => exact Building.Ensures.wrongArity src span _ _
        | [.atom ..] | [.list ..] => exact .fail src _ _
        | [.int at'' value] =>
          rw [hasGapAny_singleton, hasGap_int]
          exact constant_ensures src _ value w
      | temp =>
        rw [hasGap_form (by decide)]
        match parts with
        | [] | _ :: _ :: _ => exact Building.Ensures.wrongArity src span _ _
        | [n] =>
          refine .bind (nameOf_ensures src n w) fun name w₁ h₁ hn => ?_
          refine .bind (Building.namedTemp_ensures name w₁) fun t w₂ h₂ ht => ?_
          rw [hasGapAny_singleton, hn]
          exact .pure (.temp ht)
      | formal =>
        rw [hasGap_form (by decide)]
        match parts with
        | [] | _ :: _ :: _ => exact Building.Ensures.wrongArity src span _ _
        | [.atom ..] | [.list ..] => exact .get_bind fun _ => .fail src _ _
        | [.int at'' value] =>
          refine .get_bind fun hw => ?_
          rw [hasGapAny_singleton, hasGap_int]
          cases hformal : if value < 0 then none else w.frame.formals[value.toNat]? with
          | none =>
            dsimp only
            rw [hformal]
            exact .fail src _ _
          | some a =>
            dsimp only
            rw [hformal]
            split at hformal
            · cases hformal
            · exact .pure (.access (hw.formals a (List.mem_of_getElem? hformal)))
      | «local» =>
        rw [hasGap_form (by decide)]
        match parts with
        | [] | [_] | _ :: _ :: _ :: _ => exact Building.Ensures.wrongArity src span _ _
        | [n, flag] =>
          refine .bind (nameOf_ensures src n w) fun name w₁ h₁ hn => ?_
          refine .bind (flagOf_ensures src flag w₁) fun escapes w₂ h₂ hflag => ?_
          refine .bind (Building.namedLocal_ensures name escapes w₂) fun a w₃ h₃ ha => ?_
          rw [hasGapAny_pair, hn, hflag]
          exact .pure (.access ha)
      | mem =>
        rw [hasGap_form (by decide)]
        match parts with
        | [] | _ :: _ :: _ => exact Building.Ensures.wrongArity src span _ _
        | [a] =>
          refine .bind (.within _ (buildExp_ensures src a w)) fun addr w₁ h₁ haddr => ?_
          rw [hasGapAny_singleton]
          exact .pure ⟨haddr.covered, haddr.gap, haddr.temps⟩
      | name =>
        rw [hasGap_form (by decide)]
        match parts with
        | [] | _ :: _ :: _ => exact Building.Ensures.wrongArity src span _ _
        | [l] =>
          refine .bind (nameOf_ensures src l w) fun name w₁ h₁ hl => ?_
          rw [hasGapAny_singleton, hl]
          exact .pure ⟨rfl, rfl, List.forall_mem_nil _⟩
      | call =>
        rw [hasGap_form (by decide)]
        match parts with
        | [] => exact .fail src _ _
        | f :: args =>
          refine .bind (.within _ (buildExp_ensures src f w)) fun func w₁ h₁ hfunc => ?_
          refine .bind (buildArgs_ensures src 0 args w₁) fun values w₂ h₂ hvalues => ?_
          exact .pure (.call (hfunc.mono h₂) hvalues)
      | eseq =>
        match parts with
        | [] | [_] | _ :: _ :: _ :: _ => exact Building.Ensures.wrongArity src span _ _
        | [s, e] =>
          refine .bind (.within _ (buildStm_ensures src s w)) fun stm w₁ h₁ hstm => ?_
          refine .bind (.within _ (buildExp_ensures src e w₁)) fun value w₂ h₂ hvalue => ?_
          rw [hasGap_eseq]
          exact .pure (.eseq (hstm.mono h₂) hvalue)
    | none =>
      dsimp only
      cases hop : Op.ofText? (headOf items) with
      | none => exact .fail src _ _
      | some op =>
        obtain ⟨hlisted, at', parts, hitems⟩ := items_of_op hop
        have hne : op.text ≠ ExpHead.eseq.text := by
          intro heq
          rw [hitems, headOf, heq] at hhead
          cases hhead
        rw [hitems, hasGap_form hne]
        match parts with
        | [] | [_] | _ :: _ :: _ :: _ => exact Building.Ensures.wrongArity src span _ _
        | [l, r] =>
          refine .bind (.within _ (buildExp_ensures src l w)) fun left w₁ h₁ hleft => ?_
          refine .bind (.within _ (buildExp_ensures src r w₁)) fun right w₂ h₂ hright => ?_
          rw [hasGapAny_pair]
          exact .pure (.bin hlisted (hleft.mono h₂) hright)
termination_by sizeOf x
decreasing_by
  all_goals rw [hitems]
  all_goals simp_wf
  all_goals omega

/-- What the arguments of a call are built to. -/
theorem buildArgs_ensures (src : Source) (index : Nat) (xs : List SExpr) (w : Workspace) :
    Building.Ensures (buildArgs src index xs) w (ArgsBuilt (SExpr.hasGapAny xs)) := by
  unfold buildArgs
  match xs with
  | [] => exact .pure ⟨rfl, rfl, List.forall_mem_nil _⟩
  | x :: rest =>
    refine .bind (.within _ (buildExp_ensures src x w)) fun e w₁ h₁ he => ?_
    refine .bind (buildArgs_ensures src (index + 1) rest w₁) fun es w₂ h₂ hes => ?_
    exact .pure (.cons (he.mono h₂) hes)
termination_by sizeOf xs
decreasing_by
  all_goals simp_wf
  all_goals omega

end

end Program

end Lowering
