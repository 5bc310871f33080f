import Lowering.Proofs.Frame.Layout
import Lowering.Proofs.Program.Forms

/-!
# The grammar of bodies

Which forms are bodies and which trees they say, given what the names in them stand for. The grammar says nothing of how
names get their registers and their storage, nor of the order in which that happens. The builder is compared with it in
both directions: what it builds is what the grammar says under the names it has given, and what the grammar derives,
under whatever names, is built.
-/

namespace Lowering.Program

/-- What the names of registers and of locals stand for. -/
structure Naming where
  temp : Text → Option Temp
  «local» : Text → Option Access

/-- The word is the constant, modulo two to the power of the word's width. -/
def IsConstant (value : Int) (word : Word) : Prop :=
  -0x80000000 ≤ value ∧ value ≤ 0xffffffff ∧ 0x100000000 ∣ value - word.toInt

/-- Labels are words. -/
inductive LabelForms : List SExpr → List Label → Prop where
  | nil : LabelForms [] []
  | cons {xs : List SExpr} {ls : List Label} (span : Span) (l : Label) (h : LabelForms xs ls) :
    LabelForms (.atom span l :: xs) (l :: ls)

mutual

/-- The form is a statement and says the tree. Whether a jump to a computed target may come without labels is left
open. -/
inductive StmForm (bare : Prop) (formals : List Access) (names : Naming) : SExpr → Stm → Prop where
  | move {span at' : Span} {d s : SExpr} {dst value : Exp} (hd : ExpForm bare formals names d dst)
    (hplace : (∃ t, dst = .temp t) ∨ ∃ addr, dst = .mem addr) (hs : ExpForm bare formals names s value) :
    StmForm bare formals names (.list span [.atom at' "move", d, s]) (.move dst value)
  | exp {span at' : Span} {e : SExpr} {value : Exp} (he : ExpForm bare formals names e value) :
    StmForm bare formals names (.list span [.atom at' "exp", e]) (.exp value)
  | label {span at' lspan : Span} (l : Label) :
    StmForm bare formals names (.list span [.atom at' "label", .atom lspan l]) (.label l)
  | seq {span at' : Span} {parts : List SExpr} {stms : List Stm} (hparts : StmForms bare formals names parts stms) :
    StmForm bare formals names (.list span (.atom at' "seq" :: parts)) (Stm.seqs stms)
  | goto {span at' lspan : Span} (l : Label) :
    StmForm bare formals names (.list span [.atom at' "jump", .atom lspan l]) (.jump (.name l) [l])
  | jump {span at' : Span} {t : SExpr} {ls : List SExpr} {target : Exp} {labels : List Label}
    (ht : ExpForm bare formals names t target) (hls : LabelForms ls labels) (hbare : labels = [] → bare) :
    StmForm bare formals names (.list span (.atom at' "jump" :: t :: ls)) (.jump target labels)
  | cjump {span at' ospan tspan fspan : Span} {l r : SExpr} {rel : Rel} {left right : Exp} (hrel : rel ∈ Rel.listed)
    (hl : ExpForm bare formals names l left) (hr : ExpForm bare formals names r right) (t f : Label) :
    StmForm bare formals names (.list span [.atom at' "cjump", .atom ospan rel.text, l, r, .atom tspan t,
      .atom fspan f]) (.cjump rel left right t f)

/-- The forms are statements and say the trees. -/
inductive StmForms (bare : Prop) (formals : List Access) (names : Naming) : List SExpr → List Stm → Prop where
  | nil : StmForms bare formals names [] []
  | cons {x : SExpr} {xs : List SExpr} {s : Stm} {ss : List Stm} (hx : StmForm bare formals names x s)
    (hxs : StmForms bare formals names xs ss) : StmForms bare formals names (x :: xs) (s :: ss)

/-- The form is an expression and says the tree. -/
inductive ExpForm (bare : Prop) (formals : List Access) (names : Naming) : SExpr → Exp → Prop where
  | int {span : Span} {value : Int} {word : Word} (h : IsConstant value word) :
    ExpForm bare formals names (.int span value) (.const word)
  | const {span at' vspan : Span} {value : Int} {word : Word} (h : IsConstant value word) :
    ExpForm bare formals names (.list span [.atom at' "const", .int vspan value]) (.const word)
  | temp {span at' nspan : Span} {n : Text} {t : Temp} (ht : names.temp n = some t) :
    ExpForm bare formals names (.list span [.atom at' "temp", .atom nspan n]) (.temp t)
  | framePointer {span : Span} : ExpForm bare formals names (.atom span "fp") X86.framePointerExp
  | result {span : Span} : ExpForm bare formals names (.atom span "rv") X86.resultExp
  | formal {span at' nspan : Span} {i : Nat} {a : Access} (ha : formals[i]? = some a) :
    ExpForm bare formals names (.list span [.atom at' "formal", .int nspan i]) (a.exp X86.framePointerExp)
  | «local» {span at' nspan fspan : Span} {n : Text} {a : Access} (ha : names.local n = some a) (flag : Bool) :
    ExpForm bare formals names (.list span [.atom at' "local", .atom nspan n, .atom fspan (Text.ofBool flag)])
      (a.exp X86.framePointerExp)
  | bin {span at' : Span} {l r : SExpr} {op : Op} {left right : Exp} (hop : op ∈ Op.listed)
    (hl : ExpForm bare formals names l left) (hr : ExpForm bare formals names r right) :
    ExpForm bare formals names (.list span [.atom at' op.text, l, r]) (.bin op left right)
  | mem {span at' : Span} {a : SExpr} {addr : Exp} (ha : ExpForm bare formals names a addr) :
    ExpForm bare formals names (.list span [.atom at' "mem", a]) (.mem addr)
  | call {span at' : Span} {f : SExpr} {args : List SExpr} {func : Exp} {values : List Exp}
    (hf : ExpForm bare formals names f func) (hargs : ExpForms bare formals names args values) :
    ExpForm bare formals names (.list span (.atom at' "call" :: f :: args)) (.call func values)
  | name {span at' lspan : Span} (l : Label) :
    ExpForm bare formals names (.list span [.atom at' "name", .atom lspan l]) (.name l)
  | eseq {span at' : Span} {s e : SExpr} {stm : Stm} {value : Exp} (hs : StmForm bare formals names s stm)
    (he : ExpForm bare formals names e value) :
    ExpForm bare formals names (.list span [.atom at' "eseq", s, e]) (.eseq stm value)

/-- The forms are expressions and say the trees. -/
inductive ExpForms (bare : Prop) (formals : List Access) (names : Naming) : List SExpr → List Exp → Prop where
  | nil : ExpForms bare formals names [] []
  | cons {x : SExpr} {xs : List SExpr} {e : Exp} {es : List Exp} (hx : ExpForm bare formals names x e)
    (hxs : ExpForms bare formals names xs es) : ExpForms bare formals names (x :: xs) (e :: es)

end

/-! ### Workspaces on the way -/

namespace Workspace

/-- What the names met so far stand for. -/
def naming (w : Workspace) : Naming := ⟨fun n => w.temps.lookup n, fun n => w.locals.lookup n⟩

/-- The workspace once a name is given to a fresh register. -/
def withTemp (w : Workspace) (name : Text) : Workspace :=
  { w with
    session := (Session.freshTemp.run w.session).2
    temps := (name, (Session.freshTemp.run w.session).1) :: w.temps }

/-- The workspace once the frame has one more local. -/
def withLocal (w : Workspace) (name : Text) (a : Access) (frame : X86.Frame) (session : Session) : Workspace :=
  { w with session, frame, locals := (name, a) :: w.locals }

/-- One workspace comes of the other by new registers and new locals for new names. -/
inductive Reaches (w : Workspace) : Workspace → Prop where
  | refl : Reaches w w
  | temp {w' : Workspace} {name : Text} (h : Reaches w w') (hnew : w'.temps.lookup name = none) :
    Reaches w (w'.withTemp name)
  | «local» {w' : Workspace} {name : Text} {escapes : Bool} {a : Access} {frame : X86.Frame} {session : Session}
    (h : Reaches w w') (hnew : w'.locals.lookup name = none)
    (hadd : (w'.frame.addLocal escapes).run w'.session = (.ok (a, frame), session)) :
    Reaches w (w'.withLocal name a frame session)

end Workspace

/-- The names of the first naming stand for the same in the second. -/
structure Naming.Extends (names names' : Naming) : Prop where
  temp : ∀ n t, names.temp n = some t → names'.temp n = some t
  «local» : ∀ n a, names.local n = some a → names'.local n = some a

theorem Naming.Extends.refl (names : Naming) : names.Extends names := ⟨fun _ _ h => h, fun _ _ h => h⟩

theorem Naming.Extends.trans {names names₁ names₂ : Naming} (h : names.Extends names₁) (h' : names₁.Extends names₂) :
    names.Extends names₂ :=
  ⟨fun n t ht => h'.temp n t (h.temp n t ht), fun n a ha => h'.local n a (h.local n a ha)⟩

theorem lookup_cons_of_none {α : Type} {name n : Text} {a b : α} {l : List (Text × α)} (hnew : l.lookup name = none)
    (hn : l.lookup n = some b) : List.lookup n ((name, a) :: l) = some b := by
  have hne : n ≠ name := by
    rintro rfl
    rw [hnew] at hn
    cases hn
  rw [List.lookup_cons, beq_eq_false_iff_ne.mpr hne]
  exact hn

namespace Workspace.Reaches

variable {w w' w'' : Workspace}

theorem trans (h : w.Reaches w') (h' : w'.Reaches w'') : w.Reaches w'' := by
  induction h' with
  | refl => exact h
  | temp _ hnew ih => exact .temp ih hnew
  | «local» _ hnew hadd ih => exact .local ih hnew hadd

theorem naming (h : w.Reaches w') : w.naming.Extends w'.naming := by
  induction h with
  | refl => exact .refl _
  | temp _ hnew ih => exact ih.trans ⟨fun n t ht => lookup_cons_of_none hnew ht, fun _ _ h => h⟩
  | «local» _ hnew _ ih => exact ih.trans ⟨fun _ _ h => h, fun n a ha => lookup_cons_of_none hnew ha⟩

/-- Adding a local leaves the name and the formals as they are, and the frame unsealed. -/
theorem addLocal_keeps {frame frame' : X86.Frame} {escapes : Bool} {session session' : Session} {a : Access}
    (h : (frame.addLocal escapes).run session = (.ok (a, frame'), session')) :
    frame'.name = frame.name ∧ frame'.formals = frame.formals ∧ frame'.sealed = false := by
  obtain ⟨hsealed, ⟨-, rfl, -⟩ | ⟨-, rfl, -⟩⟩ := X86.Frame.addLocal_cases h
  · exact ⟨rfl, rfl, hsealed⟩
  · exact ⟨rfl, rfl, hsealed⟩

theorem name (h : w.Reaches w') : w'.frame.name = w.frame.name := by
  induction h with
  | refl => rfl
  | temp _ _ ih => exact ih
  | «local» _ _ hadd ih => exact (addLocal_keeps hadd).1.trans ih

theorem formals (h : w.Reaches w') : w'.frame.formals = w.frame.formals := by
  induction h with
  | refl => rfl
  | temp _ _ ih => exact ih
  | «local» _ _ hadd ih => exact (addLocal_keeps hadd).2.1.trans ih

theorem unsealed (h : w.Reaches w') (hw : w.frame.sealed = false) : w'.frame.sealed = false := by
  induction h with
  | refl => exact hw
  | temp _ _ ih => exact ih
  | «local» _ _ hadd _ => exact (addLocal_keeps hadd).2.2

end Workspace.Reaches

/-! ### Steps of building -/

namespace Building

variable {α β : Type}

/-- In an unsealed frame the step succeeds, having given names only; under every naming that keeps these, `P` holds of
the value. -/
def Succeeds (x : Building α) (w : Workspace) (P : Naming → α → Prop) : Prop :=
  w.frame.sealed = false → ∃ a w', w.Reaches w' ∧ x.run.run w = (.ok a, w') ∧
    ∀ names, w'.naming.Extends names → P names a

/-- As `Succeeds`, but the step may also fail with an error of its own. -/
def Builds (x : Building α) (w : Workspace) (P : Naming → α → Prop) : Prop :=
  w.frame.sealed = false → ∃ w', w.Reaches w' ∧
    ((∃ a, x.run.run w = (.ok a, w') ∧ ∀ names, w'.naming.Extends names → P names a) ∨
      ∃ e, x.run.run w = (.error (.failed e), w'))

namespace Succeeds

variable {x : Building α} {f : α → Building β} {w : Workspace} {P : Naming → α → Prop} {Q : Naming → β → Prop}

theorem pure {a : α} (ha : ∀ names, w.naming.Extends names → P names a) : Succeeds (Pure.pure a) w P :=
  fun _ => ⟨a, w, .refl, rfl, ha⟩

theorem bind (hx : Succeeds x w P) (hf : ∀ a w₁, w.Reaches w₁ → P w₁.naming a → Succeeds (f a) w₁ Q) :
    Succeeds (x >>= f) w Q := by
  intro hw
  obtain ⟨a, w₁, hreach, hrun, ha⟩ := hx hw
  obtain ⟨b, w₂, hreach', hrun', hb⟩ := hf a w₁ hreach (ha _ (.refl _)) (hreach.unsealed hw)
  exact ⟨b, w₂, hreach.trans hreach', (bind_run_ok hrun).trans hrun', hb⟩

theorem within (step : Step) (hx : Succeeds x w P) : Succeeds (Building.within step x) w P := by
  intro hw
  obtain ⟨a, w₁, hreach, hrun, ha⟩ := hx hw
  exact ⟨a, w₁, hreach, by rw [within_run, hrun], ha⟩

theorem get_bind {f : Workspace → Building β} (hf : Succeeds (f w) w Q) : Succeeds (get >>= f) w Q := hf

theorem namedTemp (name : Text) (w : Workspace) :
    Succeeds (Building.namedTemp name) w fun names t => names.temp name = some t := by
  apply get_bind
  cases hlookup : w.temps.lookup name with
  | some t => exact .pure fun names hnames => hnames.temp name t hlookup
  | none =>
    refine fun _ => ⟨_, w.withTemp name, .temp .refl hlookup, rfl, fun names hnames => hnames.temp name _ ?_⟩
    exact List.lookup_cons_self

theorem namedLocal (name : Text) (escapes : Bool) (w : Workspace) :
    Succeeds (Building.namedLocal name escapes) w fun names a => names.local name = some a := by
  apply get_bind
  cases hlookup : w.locals.lookup name with
  | some a => exact .pure fun names hnames => hnames.local name a hlookup
  | none =>
    intro hw
    obtain ⟨a, frame, session, hadd, -⟩ := addLocal_run hw escapes w.session
    refine ⟨a, w.withLocal name a frame session, .local .refl hlookup hadd, ?_, fun names hnames => ?_⟩
    · dsimp only
      rw [hadd]
      rfl
    · exact hnames.local name a List.lookup_cons_self

theorem word (src : Source) (span : Span) (text : Text) (w : Workspace) :
    Succeeds (Building.ofExcept (nameOf src (.atom span text))) w fun _ name => name = text :=
  .pure fun _ _ => rfl

theorem flag (src : Source) (span : Span) (b : Bool) (w : Workspace) :
    Succeeds (Building.ofExcept (flagOf src (.atom span (Text.ofBool b)))) w fun _ flag => flag = b := by
  cases b <;> exact .pure fun _ _ => rfl

theorem builds (hx : Succeeds x w P) : Builds x w P := by
  intro hw
  obtain ⟨a, w₁, hreach, hrun, ha⟩ := hx hw
  exact ⟨w₁, hreach, .inl ⟨a, hrun, ha⟩⟩

end Succeeds

namespace Builds

variable {x : Building α} {f : α → Building β} {w : Workspace} {P : Naming → α → Prop} {Q : Naming → β → Prop}

theorem pure {a : α} (ha : ∀ names, w.naming.Extends names → P names a) : Builds (Pure.pure a) w P :=
  (Succeeds.pure ha).builds

theorem of_error (hx : ∃ e, x.run.run w = (.error (.failed e), w)) : Builds x w P :=
  fun _ => ⟨w, .refl, .inr hx⟩

theorem bind (hx : Builds x w P)
    (hf : ∀ a w₁, w.Reaches w₁ → Builds (f a) w₁ fun names b => P names a → Q names b) : Builds (x >>= f) w Q := by
  intro hw
  obtain ⟨w₁, hreach, ⟨a, hrun, ha⟩ | ⟨e, hrun⟩⟩ := hx hw
  · obtain ⟨w₂, hreach', hend⟩ := hf a w₁ hreach (hreach.unsealed hw)
    rw [← bind_run_ok hrun] at hend
    refine ⟨w₂, hreach.trans hreach', hend.imp_left ?_⟩
    rintro ⟨b, hrun', hb⟩
    exact ⟨b, hrun', fun names hnames => hb names hnames (ha names (hreach'.naming.trans hnames))⟩
  · exact ⟨w₁, hreach, .inr ⟨e, bind_run_error hrun⟩⟩

theorem mono {Q : Naming → α → Prop} (hx : Builds x w P) (h : ∀ names a, P names a → Q names a) : Builds x w Q := by
  intro hw
  obtain ⟨w₁, hreach, hend⟩ := hx hw
  refine ⟨w₁, hreach, hend.imp_left ?_⟩
  rintro ⟨a, hrun, ha⟩
  exact ⟨a, hrun, fun names hnames => h names a (ha names hnames)⟩

theorem within (step : Step) (hx : Builds x w P) : Builds (Building.within step x) w P := by
  intro hw
  obtain ⟨w₁, hreach, ⟨a, hrun, ha⟩ | ⟨e, hrun⟩⟩ := hx hw
  · exact ⟨w₁, hreach, .inl ⟨a, by rw [within_run, hrun], ha⟩⟩
  · exact ⟨w₁, hreach, .inr ⟨e.within step, by rw [within_run, hrun]; rfl⟩⟩

theorem get_bind {f : Workspace → Building β} (hf : Builds (f w) w Q) : Builds (get >>= f) w Q := hf

theorem nameOf (src : Source) (x : SExpr) (w : Workspace) :
    Builds (Building.ofExcept (nameOf src x)) w fun _ name => ∃ span, x = .atom span name := by
  cases x with
  | atom span text => exact .pure fun _ _ => ⟨span, rfl⟩
  | int | list => exact .of_error ⟨_, rfl⟩

theorem flagOf (src : Source) (x : SExpr) (w : Workspace) :
    Builds (Building.ofExcept (flagOf src x)) w fun _ flag => ∃ span, x = .atom span (Text.ofBool flag) := by
  cases x with
  | atom span text =>
    unfold Program.flagOf
    dsimp only
    split
    · next htext => exact .pure fun _ _ => ⟨span, by rw [htext]⟩
    · split
      · next htext => exact .pure fun _ _ => ⟨span, by rw [htext]⟩
      · exact .of_error ⟨_, rfl⟩
  | int | list => exact .of_error ⟨_, rfl⟩

end Builds

end Building

/-! ### What is built was derived -/

theorem constant_builds (src : Source) (x : SExpr) (value : Int) (w : Workspace) :
    Building.Builds (constant src x value) w fun _ e => ∃ word, e = .const word ∧ IsConstant value word := by
  unfold constant
  split
  · exact .of_error ⟨_, rfl⟩
  · next hrange =>
    refine .pure fun _ _ => ⟨_, rfl, by omega, by omega, ?_⟩
    rw [BitVec.toInt_ofInt]
    exact Int.dvd_self_sub_bmod

theorem formalAt_builds (src : Source) (nspan : Span) (value : Int) (w : Workspace) :
    Building.Builds (formalAt src nspan value) w fun _ e =>
      ∃ (i : Nat) (a : Access), value = i ∧ w.frame.formals[i]? = some a ∧ e = a.exp X86.framePointerExp := by
  apply Building.Builds.get_bind
  dsimp only
  split
  · next a hformal =>
    split at hformal
    · cases hformal
    · next hnonneg => exact .pure fun _ _ => ⟨value.toNat, a, by omega, hformal, rfl⟩
  · exact .of_error ⟨_, rfl⟩

theorem labelsOf_builds (src : Source) (xs : List SExpr) (w : Workspace) :
    Building.Builds (labelsOf src xs) w fun _ ls => LabelForms xs ls := by
  induction xs generalizing w with
  | nil => exact .pure fun _ _ => .nil
  | cons x rest ih =>
    refine .bind (.nameOf src x w) fun l w₁ _ => ?_
    refine .bind (ih w₁) fun ls w₂ _ => .pure ?_
    rintro names - hls ⟨span, rfl⟩
    exact .cons span l hls

theorem place_of_isDestination {e : Exp} (h : isDestination e = true) : (∃ t, e = .temp t) ∨ ∃ addr, e = .mem addr := by
  cases e with
  | temp t => exact .inl ⟨t, rfl⟩
  | mem addr => exact .inr ⟨addr, rfl⟩
  | _ => cases h

mutual

/-- The builder makes of a form the tree that the grammar says, under the names it has given by then. -/
theorem buildStm_builds (src : Source) (x : SExpr) {w : Workspace} {formals : List Access}
    (hw : w.frame.formals = formals) :
    Building.Builds (buildStm src x) w fun names s => StmForm False formals names x s := by
  cases stmShape src x with
  | wrong h => exact .of_error (h w)
  | move span at' d s =>
    rw [(stmRules src).move]
    refine .bind (.within _ (buildExp_builds src d hw)) fun dst w₁ h₁ => ?_
    cases hdst : isDestination dst with
    | false => exact .of_error ⟨_, rfl⟩
    | true =>
      refine .bind (.within _ (buildExp_builds src s (h₁.formals.trans hw))) fun value w₂ _ => .pure ?_
      exact fun names _ hs hd => .move hd (place_of_isDestination hdst) hs
  | exp span at' e =>
    rw [(stmRules src).exp]
    exact .bind (buildExp_builds src e hw) fun value w₁ _ => .pure fun names _ he => .exp he
  | label span at' l =>
    rw [(stmRules src).label]
    refine .bind (.nameOf src l w) fun name w₁ _ => .pure ?_
    rintro names - ⟨lspan, rfl⟩
    exact .label name
  | seq span at' parts =>
    rw [(stmRules src).seq]
    exact .bind (buildSeq_builds src 0 parts hw) fun stms w₁ _ => .pure fun names _ hparts => .seq hparts
  | goto span at' l =>
    rw [(stmRules src).goto]
    refine .bind (.nameOf src l w) fun name w₁ _ => .pure ?_
    rintro names - ⟨lspan, rfl⟩
    exact .goto name
  | jump span at' t l ls =>
    rw [(stmRules src).jump]
    refine .bind (.within _ (buildExp_builds src t hw)) fun target w₁ _ => ?_
    refine .bind (labelsOf_builds src (l :: ls) w₁) fun labels w₂ _ => .pure fun names _ hls ht => .jump ht hls ?_
    rintro rfl
    cases hls
  | cjump span at' o l r t f =>
    rw [(stmRules src).cjump]
    refine .bind (.nameOf src o w) fun name w₁ h₁ => ?_
    cases hrel : Rel.ofText? name with
    | none => exact .of_error ⟨_, rfl⟩
    | some rel =>
      have hw₁ := h₁.formals.trans hw
      refine .bind (.within _ (buildExp_builds src l hw₁)) fun left w₂ h₂ => ?_
      refine .bind (.within _ (buildExp_builds src r (h₂.formals.trans hw₁))) fun right w₃ _ => ?_
      refine .bind (.nameOf src t w₃) fun ifTrue w₄ _ => ?_
      refine .bind (.nameOf src f w₄) fun ifFalse w₅ _ => .pure ?_
      rintro names - ⟨fspan, rfl⟩ ⟨tspan, rfl⟩ hr hl ⟨ospan, rfl⟩
      have hname : rel.text = name := by simpa using List.find?_some hrel
      subst hname
      exact .cjump (List.mem_of_find?_eq_some hrel) hl hr ifTrue ifFalse
termination_by sizeOf x

theorem buildSeq_builds (src : Source) (index : Nat) (xs : List SExpr) {w : Workspace} {formals : List Access}
    (hw : w.frame.formals = formals) :
    Building.Builds (buildSeq src index xs) w fun names ss => StmForms False formals names xs ss := by
  unfold buildSeq
  match xs with
  | [] => exact .pure fun _ _ => .nil
  | x :: rest =>
    refine .bind (.within _ (buildStm_builds src x hw)) fun s w₁ h₁ => ?_
    refine .bind (buildSeq_builds src (index + 1) rest (h₁.formals.trans hw)) fun ss w₂ _ => .pure ?_
    exact fun names _ hss hs => .cons hs hss
termination_by sizeOf xs

theorem buildExp_builds (src : Source) (x : SExpr) {w : Workspace} {formals : List Access}
    (hw : w.frame.formals = formals) :
    Building.Builds (buildExp src x) w fun names e => ExpForm False formals names x e := by
  cases expShape src x with
  | wrong h => exact .of_error (h w)
  | int span value =>
    rw [(expRules src).int]
    refine (constant_builds src _ value w).mono ?_
    rintro names e ⟨word, rfl, hword⟩
    exact .int hword
  | framePointer span =>
    rw [(expRules src).framePointer]
    exact .pure fun _ _ => .framePointer
  | result span =>
    rw [(expRules src).result]
    exact .pure fun _ _ => .result
  | const span at' vspan value =>
    rw [(expRules src).const]
    refine (constant_builds src _ value w).mono ?_
    rintro names e ⟨word, rfl, hword⟩
    exact .const hword
  | temp span at' n =>
    rw [(expRules src).temp]
    refine .bind (.nameOf src n w) fun name w₁ _ => ?_
    refine .bind (Building.Succeeds.namedTemp name w₁).builds fun t w₂ _ => .pure ?_
    rintro names - ht ⟨nspan, rfl⟩
    exact .temp ht
  | formal span at' nspan value =>
    rw [(expRules src).formal]
    refine (formalAt_builds src nspan value w).mono ?_
    rintro names e ⟨i, a, rfl, ha, rfl⟩
    exact .formal (hw ▸ ha)
  | «local» span at' n flag =>
    rw [(expRules src).local]
    refine .bind (.nameOf src n w) fun name w₁ _ => ?_
    refine .bind (.flagOf src flag w₁) fun escapes w₂ _ => ?_
    refine .bind (Building.Succeeds.namedLocal name escapes w₂).builds fun a w₃ _ => .pure ?_
    rintro names - ha ⟨fspan, rfl⟩ ⟨nspan, rfl⟩
    exact .local ha escapes
  | mem span at' a =>
    rw [(expRules src).mem]
    exact .bind (.within _ (buildExp_builds src a hw)) fun addr w₁ _ => .pure fun names _ ha => .mem ha
  | name span at' l =>
    rw [(expRules src).name]
    refine .bind (.nameOf src l w) fun name w₁ _ => .pure ?_
    rintro names - ⟨lspan, rfl⟩
    exact .name name
  | call span at' f args =>
    rw [(expRules src).call]
    refine .bind (.within _ (buildExp_builds src f hw)) fun func w₁ h₁ => ?_
    refine .bind (buildArgs_builds src 0 args (h₁.formals.trans hw)) fun values w₂ _ => .pure ?_
    exact fun names _ hargs hf => .call hf hargs
  | eseq span at' s e =>
    rw [(expRules src).eseq]
    refine .bind (.within _ (buildStm_builds src s hw)) fun stm w₁ h₁ => ?_
    refine .bind (.within _ (buildExp_builds src e (h₁.formals.trans hw))) fun value w₂ _ => .pure ?_
    exact fun names _ he hs => .eseq hs he
  | bin span at' hop l r =>
    rw [buildExp_bin src span at' hop]
    refine .bind (.within _ (buildExp_builds src l hw)) fun left w₁ h₁ => ?_
    refine .bind (.within _ (buildExp_builds src r (h₁.formals.trans hw))) fun right w₂ _ => .pure ?_
    exact fun names _ hr hl => .bin hop hl hr
termination_by sizeOf x

theorem buildArgs_builds (src : Source) (index : Nat) (xs : List SExpr) {w : Workspace} {formals : List Access}
    (hw : w.frame.formals = formals) :
    Building.Builds (buildArgs src index xs) w fun names es => ExpForms False formals names xs es := by
  unfold buildArgs
  match xs with
  | [] => exact .pure fun _ _ => .nil
  | x :: rest =>
    refine .bind (.within _ (buildExp_builds src x hw)) fun e w₁ h₁ => ?_
    refine .bind (buildArgs_builds src (index + 1) rest (h₁.formals.trans hw)) fun es w₂ _ => .pure ?_
    exact fun names _ hes he => .cons he hes
termination_by sizeOf xs

end

/-! ### What is derived is built -/

section

open Building

variable {src : Source} {w : Workspace} {formals : List Access} {names : Naming}

theorem isDestination_of_place {e : Exp} (h : (∃ t, e = .temp t) ∨ ∃ addr, e = .mem addr) : isDestination e = true := by
  obtain ⟨t, rfl⟩ | ⟨addr, rfl⟩ := h
  · rfl
  · rfl

theorem isDestination_access (a : Access) : isDestination (a.exp X86.framePointerExp) = true := by
  cases a <;> rfl

theorem constant_succeeds {value : Int} {word : Word} (h : IsConstant value word) (src : Source) (x : SExpr)
    (w : Workspace) : Succeeds (constant src x value) w fun _ e => isDestination e = false := by
  obtain ⟨hlow, hhigh, -⟩ := h
  rw [constant, if_neg (by omega)]
  exact .pure fun _ _ => rfl

theorem formalAt_succeeds {i : Nat} {a : Access} (ha : w.frame.formals[i]? = some a) (src : Source) (nspan : Span) :
    Succeeds (formalAt src nspan i) w fun _ e => isDestination e = true := by
  apply Succeeds.get_bind
  dsimp only
  rw [if_neg (by omega), Int.toNat_natCast, ha]
  exact .pure fun _ _ => isDestination_access a

theorem labelsOf_succeeds {xs : List SExpr} {ls : List Label} (h : LabelForms xs ls) (src : Source) (w : Workspace) :
    Succeeds (labelsOf src xs) w fun _ _ => True := by
  induction h generalizing w with
  | nil => exact .pure fun _ _ => trivial
  | cons span l _ ih =>
    refine .bind (.word src span l w) fun _ w₁ _ _ => ?_
    exact .bind (ih w₁) fun ls w₂ _ _ => .pure fun _ _ => trivial

end

mutual

theorem StmForm.succeeds {x : SExpr} {s : Stm} {w : Workspace} {formals : List Access} {names : Naming}
    (h : StmForm False formals names x s) (src : Source) (hw : w.frame.formals = formals) :
    Building.Succeeds (buildStm src x) w fun _ _ => True := by
  cases h with
  | move hd hplace hs =>
    rw [(stmRules src).move]
    refine .bind (.within _ (hd.succeeds src hw)) fun dst w₁ h₁ hdst => ?_
    rw [isDestination_of_place hplace] at hdst
    rw [hdst]
    exact .bind (.within _ (hs.succeeds src (h₁.formals.trans hw))) fun _ _ _ _ => .pure fun _ _ => trivial
  | exp he =>
    rw [(stmRules src).exp]
    exact .bind (he.succeeds src hw) fun _ _ _ _ => .pure fun _ _ => trivial
  | label l =>
    rw [(stmRules src).label]
    exact .bind (.word src _ l w) fun _ _ _ _ => .pure fun _ _ => trivial
  | seq hparts =>
    rw [(stmRules src).seq]
    exact .bind (hparts.succeeds src 0 hw) fun _ _ _ _ => .pure fun _ _ => trivial
  | goto l =>
    rw [(stmRules src).goto]
    exact .bind (.word src _ l w) fun _ _ _ _ => .pure fun _ _ => trivial
  | jump ht hls hbare =>
    cases hls with
    | nil => exact (hbare rfl).elim
    | cons lspan l hls =>
      rw [(stmRules src).jump]
      refine .bind (.within _ (ht.succeeds src hw)) fun _ w₁ _ _ => ?_
      exact .bind (labelsOf_succeeds (.cons lspan l hls) src w₁) fun _ _ _ _ => .pure fun _ _ => trivial
  | cjump hrel hl hr t f =>
    rw [(stmRules src).cjump]
    refine .bind (.word src _ _ w) fun name w₁ h₁ hname => ?_
    subst hname
    rw [rel_ofText hrel]
    have hw₁ := h₁.formals.trans hw
    refine .bind (.within _ (hl.succeeds src hw₁)) fun _ w₂ h₂ _ => ?_
    refine .bind (.within _ (hr.succeeds src (h₂.formals.trans hw₁))) fun _ w₃ _ _ => ?_
    refine .bind (.word src _ t w₃) fun _ w₄ _ _ => ?_
    exact .bind (.word src _ f w₄) fun _ _ _ _ => .pure fun _ _ => trivial
termination_by sizeOf x

theorem StmForms.succeeds {xs : List SExpr} {ss : List Stm} {w : Workspace} {formals : List Access} {names : Naming}
    (h : StmForms False formals names xs ss) (src : Source) (index : Nat) (hw : w.frame.formals = formals) :
    Building.Succeeds (buildSeq src index xs) w fun _ _ => True := by
  cases h with
  | nil =>
    unfold buildSeq
    exact .pure fun _ _ => trivial
  | cons hx hxs =>
    unfold buildSeq
    refine .bind (.within _ (hx.succeeds src hw)) fun _ w₁ h₁ _ => ?_
    exact .bind (hxs.succeeds src (index + 1) (h₁.formals.trans hw)) fun _ _ _ _ => .pure fun _ _ => trivial
termination_by sizeOf xs

theorem ExpForm.succeeds {x : SExpr} {e : Exp} {w : Workspace} {formals : List Access} {names : Naming}
    (h : ExpForm False formals names x e) (src : Source) (hw : w.frame.formals = formals) :
    Building.Succeeds (buildExp src x) w fun _ a => isDestination a = isDestination e := by
  cases h with
  | int h =>
    rw [(expRules src).int]
    exact constant_succeeds h src _ w
  | const h =>
    rw [(expRules src).const]
    exact constant_succeeds h src _ w
  | temp ht =>
    rw [(expRules src).temp]
    refine .bind (.word src _ _ w) fun name w₁ _ _ => ?_
    exact .bind (.namedTemp name w₁) fun _ _ _ _ => .pure fun _ _ => rfl
  | framePointer =>
    rw [(expRules src).framePointer]
    exact .pure fun _ _ => rfl
  | result =>
    rw [(expRules src).result]
    exact .pure fun _ _ => rfl
  | formal ha =>
    rw [(expRules src).formal, isDestination_access]
    exact formalAt_succeeds (hw.symm ▸ ha) src _
  | «local» ha flag =>
    rw [(expRules src).local, isDestination_access]
    refine .bind (.word src _ _ w) fun name w₁ _ _ => ?_
    refine .bind (.flag src _ flag w₁) fun escapes w₂ _ _ => ?_
    exact .bind (.namedLocal name escapes w₂) fun a _ _ _ => .pure fun _ _ => isDestination_access a
  | bin hop hl hr =>
    rw [buildExp_bin src _ _ hop]
    refine .bind (.within _ (hl.succeeds src hw)) fun _ w₁ h₁ _ => ?_
    exact .bind (.within _ (hr.succeeds src (h₁.formals.trans hw))) fun _ _ _ _ => .pure fun _ _ => rfl
  | mem ha =>
    rw [(expRules src).mem]
    exact .bind (.within _ (ha.succeeds src hw)) fun _ _ _ _ => .pure fun _ _ => rfl
  | call hf hargs =>
    rw [(expRules src).call]
    refine .bind (.within _ (hf.succeeds src hw)) fun _ w₁ h₁ _ => ?_
    exact .bind (hargs.succeeds src 0 (h₁.formals.trans hw)) fun _ _ _ _ => .pure fun _ _ => rfl
  | name l =>
    rw [(expRules src).name]
    exact .bind (.word src _ l w) fun _ _ _ _ => .pure fun _ _ => rfl
  | eseq hs he =>
    rw [(expRules src).eseq]
    refine .bind (.within _ (hs.succeeds src hw)) fun _ w₁ h₁ _ => ?_
    exact .bind (.within _ (he.succeeds src (h₁.formals.trans hw))) fun _ _ _ _ => .pure fun _ _ => rfl
termination_by sizeOf x

theorem ExpForms.succeeds {xs : List SExpr} {es : List Exp} {w : Workspace} {formals : List Access} {names : Naming}
    (h : ExpForms False formals names xs es) (src : Source) (index : Nat) (hw : w.frame.formals = formals) :
    Building.Succeeds (buildArgs src index xs) w fun _ _ => True := by
  cases h with
  | nil =>
    unfold buildArgs
    exact .pure fun _ _ => trivial
  | cons hx hxs =>
    unfold buildArgs
    refine .bind (.within _ (hx.succeeds src hw)) fun _ w₁ h₁ _ => ?_
    exact .bind (hxs.succeeds src (index + 1) (h₁.formals.trans hw)) fun _ _ _ _ => .pure fun _ _ => trivial
termination_by sizeOf xs

end

/-- A body is built exactly if the grammar derives it, and then as the tree that the grammar says under the names given.
In all other cases there is an error in the form. -/
theorem body_builds_iff_in_grammar (d : Declaration) (frame : X86.Frame) (session : Session)
    (hframe : frame.sealed = false) :
    ((∃ s w, d.build frame session = (.ok s, w)) ↔ ∃ names s, StmForm False frame.formals names d.body s) ∧
      (∀ s w, d.build frame session = (.ok s, w) → StmForm False frame.formals w.naming d.body s) ∧
      ∀ why w, d.build frame session = (.error why, w) → ∃ e, why = .failed e := by
  have hbuilds : Building.Builds (buildStm d.source d.body) { session, frame } _ := buildStm_builds d.source d.body rfl
  obtain ⟨w', -, hend⟩ := hbuilds hframe
  have hderived : ∀ s w, d.build frame session = (.ok s, w) → StmForm False frame.formals w.naming d.body s := by
    intro s w hrun
    obtain ⟨a, hrun', ha⟩ | ⟨e, hrun'⟩ := hend
    · cases hrun.symm.trans hrun'
      exact ha _ (.refl _)
    · cases (Prod.mk.inj (hrun.symm.trans hrun')).1
  refine ⟨⟨?_, ?_⟩, hderived, ?_⟩
  · rintro ⟨s, w, hrun⟩
    exact ⟨w.naming, s, hderived s w hrun⟩
  · rintro ⟨names, s, h⟩
    obtain ⟨a, w, -, hrun, -⟩ := h.succeeds d.source (w := { session, frame }) rfl hframe
    exact ⟨a, w, hrun⟩
  · intro why w hrun
    obtain ⟨a, hrun', -⟩ | ⟨e, hrun'⟩ := hend
    · cases (Prod.mk.inj (hrun.symm.trans hrun')).1
    · exact ⟨e, (Except.error.inj (Prod.mk.inj (hrun.symm.trans hrun')).1)⟩

/-- `(seq (move (mem (local x true)) 4294967295) (jump (formal 0) L))`, in the frame of a function with one formal. -/
def storeThenJump : Declaration where
  name := "f"
  escapes := [false]
  source := Source.ofFile "a.ir" "(func f (false) (seq (move (mem (local x true)) 4294967295) (jump (formal 0) L)))"
  body := .list ⟨16, 80⟩ [.atom ⟨17, 20⟩ "seq",
    .list ⟨21, 59⟩ [.atom ⟨22, 26⟩ "move",
      .list ⟨27, 47⟩ [.atom ⟨28, 31⟩ "mem",
        .list ⟨32, 46⟩ [.atom ⟨33, 38⟩ "local", .atom ⟨39, 40⟩ "x", .atom ⟨41, 45⟩ (Text.ofBool true)]],
      .int ⟨48, 58⟩ 4294967295],
    .list ⟨60, 79⟩ [.atom ⟨61, 65⟩ "jump", .list ⟨66, 76⟩ [.atom ⟨67, 73⟩ "formal", .int ⟨74, 75⟩ (0 : Nat)],
      .atom ⟨77, 78⟩ "L"]]

theorem storeThenJump_builds :
    let frame : X86.Frame := { name := "f", formals := [.inReg ⟨1⟩] }
    frame.sealed = false ∧ ∃ s w, storeThenJump.build frame { temps := 1 } = (.ok s, w) ∧
      StmForm False frame.formals w.naming storeThenJump.body s := by
  intro frame
  obtain ⟨haccepted, hderived, -⟩ := body_builds_iff_in_grammar storeThenJump frame { temps := 1 } rfl
  have hword : IsConstant 4294967295 (-1) := ⟨by decide, by decide, by decide⟩
  have hbody : StmForm False frame.formals ⟨fun _ => none, fun _ => some (.inFrame (-4))⟩ storeThenJump.body _ :=
    .seq (.cons (.move (.mem (.local rfl true)) (.inr ⟨_, rfl⟩) (.int hword))
      (.cons (.jump (.formal rfl) (.cons _ "L" .nil) nofun) .nil))
  obtain ⟨s, w, hbuild⟩ := haccepted.mpr ⟨_, _, hbody⟩
  exact ⟨rfl, s, w, hbuild, hderived s w hbuild⟩

/-- `(jump (temp x))`, with a computed target and no label. -/
def bareJump : Declaration where
  name := "f"
  escapes := []
  source := Source.ofFile "a.ir" "(func f () (jump (temp x)))"
  body := .list ⟨11, 26⟩ [.atom ⟨12, 16⟩ "jump", .list ⟨17, 25⟩ [.atom ⟨18, 22⟩ "temp", .atom ⟨23, 24⟩ "x"]]

/-- A grammar in which the labels of a computed jump may be left out derives more than is built. -/
theorem bareJump_derived_not_built :
    (∃ names s, StmForm True [] names bareJump.body s) ∧
      ¬ ∃ s w, bareJump.build ((X86.Frame.create "f" []).run {}).1 {} = (.ok s, w) := by
  refine ⟨⟨⟨fun _ => some ⟨1⟩, fun _ => none⟩, _, .jump (.temp rfl) .nil fun _ => trivial⟩, ?_⟩
  rintro ⟨s, w, hbuild⟩
  rw [Declaration.build, bareJump, (stmRules _).goto] at hbuild
  cases (Prod.mk.inj hbuild).1

end Lowering.Program
