import Lowering.Proofs.Frame.Layout
import Lowering.Proofs.Program.Compilation
import Lowering.Proofs.Reading.Printability
import Lowering.Proofs.Reading.Rebuilding

/-!
# Printed trees are read back

A tree that was built from some text can be printed as the body of a function, and reading and building that function
gives the tree again. Only registers change: each has become a new one, and different ones have stayed different.
-/

namespace Lowering

open SExpr

/-! ### Registers of a tree -/

mutual

theorem Stm.named_temps : (s : Stm) → s.Printable → ∀ t ∈ s.temps, t.Named
  | .hole, _ => List.forall_mem_nil _
  | .move dst src, ⟨_, hdst, hsrc⟩ =>
    List.forall_mem_append.mpr ⟨Exp.named_temps dst hdst, Exp.named_temps src hsrc⟩
  | .exp e, he => Exp.named_temps e he
  | .label _, _ => List.forall_mem_nil _
  | .seq first second, ⟨_, _, hfirst, hsecond⟩ =>
    List.forall_mem_append.mpr ⟨Stm.named_temps first hfirst, Stm.named_temps second hsecond⟩
  | .jump target _, ⟨htarget, _⟩ => Exp.named_temps target htarget
  | .cjump _ left right _ _, ⟨_, hleft, hright, _⟩ =>
    List.forall_mem_append.mpr ⟨Exp.named_temps left hleft, Exp.named_temps right hright⟩

theorem Exp.named_temps : (e : Exp) → e.Printable → ∀ t ∈ e.temps, t.Named
  | .const _, _ => List.forall_mem_nil _
  | .temp _, ht => List.forall_mem_singleton.mpr ht
  | .bin _ left right, ⟨_, hleft, hright⟩ =>
    List.forall_mem_append.mpr ⟨Exp.named_temps left hleft, Exp.named_temps right hright⟩
  | .mem addr, haddr => Exp.named_temps addr haddr
  | .call func args, ⟨hfunc, hargs⟩ =>
    List.forall_mem_append.mpr ⟨Exp.named_temps func hfunc, Exp.named_tempsAll args hargs⟩
  | .name _, _ => List.forall_mem_nil _
  | .eseq s e, ⟨hs, he⟩ => List.forall_mem_append.mpr ⟨Stm.named_temps s hs, Exp.named_temps e he⟩

theorem Exp.named_tempsAll : (es : List Exp) → Exp.PrintableAll es → ∀ t ∈ Exp.tempsAll es, t.Named
  | [], _ => List.forall_mem_nil _
  | e :: es, ⟨he, hes⟩ => List.forall_mem_append.mpr ⟨Exp.named_temps e he, Exp.named_tempsAll es hes⟩

end

/-! ### Missing statements -/

mutual

/-- Nothing is missing from the tree if no statement is. -/
theorem Stm.whole_of_printable : (s : Stm) → s.Printable → s ≠ .hole → s.hasGap = false → s.whole = true
  | .hole, _, hhole, _ => absurd rfl hhole
  | .move dst src, ⟨_, hdst, hsrc⟩, _, hgap => by
    obtain ⟨hgap, hgap'⟩ := Bool.or_eq_false_iff.mp hgap
    exact Bool.and_eq_true_iff.mpr ⟨Exp.whole_of_printable dst hdst hgap, Exp.whole_of_printable src hsrc hgap'⟩
  | .exp e, he, _, hgap => Exp.whole_of_printable e he hgap
  | .label _, _, _, _ => rfl
  | .seq first second, ⟨hne, hne', hfirst, hsecond⟩, _, hgap => by
    obtain ⟨hgap, hgap'⟩ := Bool.or_eq_false_iff.mp hgap
    exact Bool.and_eq_true_iff.mpr
      ⟨Stm.whole_of_printable first hfirst hne hgap, Stm.whole_of_printable second hsecond hne' hgap'⟩
  | .jump target _, ⟨htarget, _⟩, _, hgap => Exp.whole_of_printable target htarget hgap
  | .cjump _ left right _ _, ⟨_, hleft, hright, _⟩, _, hgap => by
    obtain ⟨hgap, hgap'⟩ := Bool.or_eq_false_iff.mp hgap
    exact Bool.and_eq_true_iff.mpr ⟨Exp.whole_of_printable left hleft hgap, Exp.whole_of_printable right hright hgap'⟩

theorem Exp.whole_of_printable : (e : Exp) → e.Printable → e.hasGap = false → e.whole = true
  | .const _, _, _ => rfl
  | .temp _, _, _ => rfl
  | .bin _ left right, ⟨_, hleft, hright⟩, hgap => by
    obtain ⟨hgap, hgap'⟩ := Bool.or_eq_false_iff.mp hgap
    exact Bool.and_eq_true_iff.mpr ⟨Exp.whole_of_printable left hleft hgap, Exp.whole_of_printable right hright hgap'⟩
  | .mem addr, haddr, hgap => Exp.whole_of_printable addr haddr hgap
  | .call func args, ⟨hfunc, hargs⟩, hgap => by
    obtain ⟨hgap, hgap'⟩ := Bool.or_eq_false_iff.mp hgap
    exact Bool.and_eq_true_iff.mpr ⟨Exp.whole_of_printable func hfunc hgap, Exp.wholeAll_of_printable args hargs hgap'⟩
  | .name _, _, _ => rfl
  | .eseq s e, ⟨hs, he⟩, hgap => by
    obtain ⟨hgap, hgap'⟩ := Bool.or_eq_false_iff.mp hgap
    obtain ⟨hhole, hgap⟩ := Bool.or_eq_false_iff.mp hgap
    have hne : s ≠ .hole := by
      rintro rfl
      cases hhole
    exact Bool.and_eq_true_iff.mpr ⟨Stm.whole_of_printable s hs hne hgap, Exp.whole_of_printable e he hgap'⟩

theorem Exp.wholeAll_of_printable : (es : List Exp) → Exp.PrintableAll es → Exp.hasGapAny es = false →
    Exp.wholeAll es = true
  | [], _, _ => rfl
  | e :: es, ⟨he, hes⟩, hgap => by
    obtain ⟨hgap, hgap'⟩ := Bool.or_eq_false_iff.mp hgap
    exact Bool.and_eq_true_iff.mpr ⟨Exp.whole_of_printable e he hgap, Exp.wholeAll_of_printable es hes hgap'⟩

end

/-! ### Frames -/

/-- The frames that a program can come by. -/
inductive X86.Frame.Made : X86.Frame → Prop where
  | shared : Made X86.Frame.shared
  | create (name : Label) (escapes : List Bool) (session : Session) :
    Made ((X86.Frame.create name escapes).run session).1
  | addLocal {frame frame' : X86.Frame} {escapes : Bool} {session session' : Session} {a : Access} (h : Made frame)
    (hadd : (frame.addLocal escapes).run session = (.ok (a, frame'), session')) : Made frame'

theorem X86.Frame.Made.named {frame : X86.Frame} (h : frame.Made) : ∀ a ∈ frame.formals, a.Named := by
  induction h with
  | shared => exact List.forall_mem_nil _
  | create name escapes session =>
    obtain ⟨_, hcreate, -⟩ := X86.Frame.create_run name escapes session
    obtain ⟨-, -, hregs, -⟩ := X86.placeFormals_spec X86.firstFormalOffset escapes session
    rw [hcreate]
    intro a ha
    cases a with
    | inFrame offset => trivial
    | inReg t =>
      have ht := mem_registersOf ha
      rw [hregs] at ht
      have := mem_freshRegisters ht
      exact Temp.named_of_pos (by omega)
  | addLocal h hadd ih =>
    rw [(Program.Building.addLocal_named hadd).2]
    exact ih

namespace Program

/-! ### Declarations -/

theorem body_readable {src : Source} {seen : List Text} {x : SExpr} (hx : x.datum.readable = true) {d : Declaration}
    (h : readDeclaration src seen x = .ok d) : d.body.datum.readable = true := by
  unfold readDeclaration at h
  split at h
  · next body =>
    have hbody : body.datum.readable = true := by
      simp only [datum, data, Datum.readable, Datum.readableAll, Bool.and_eq_true] at hx
      exact hx.2.2.2.1
    split at h
    · dsimp only at h
      split at h
      · obtain ⟨name, -, h⟩ := bind_eq_ok h
        split at h
        · cases h
        · split at h
          · obtain ⟨escapes, -, h⟩ := bind_eq_ok h
            cases h
            exact hbody
          · cases h
      · obtain ⟨name, hname, -⟩ := bind_eq_ok h
        cases hname
    · cases h
  · cases h

theorem bodies_readable {src : Source} {seen : List Text} {xs : List SExpr} (hxs : ∀ x ∈ xs, x.datum.readable = true)
    {ds : List Declaration} (h : readDeclarations src seen xs = .ok ds) : ∀ d ∈ ds, d.body.datum.readable = true := by
  induction xs generalizing seen ds with
  | nil =>
    cases h
    exact List.forall_mem_nil _
  | cons x rest ih =>
    obtain ⟨hx, hrest⟩ := List.forall_mem_cons.mp hxs
    obtain ⟨d, hd, h⟩ := bind_eq_ok h
    obtain ⟨ds', hds, h⟩ := bind_eq_ok h
    cases h
    exact List.forall_mem_cons.mpr ⟨body_readable hx hd, ih hrest hds⟩

theorem parse_readable {file text : Text} {ds : List Declaration} (h : parse file text = .ok ds) :
    ∀ d ∈ ds, d.body.datum.readable = true := by
  unfold parse at h
  dsimp only at h
  split at h
  · cases h
  · cases h
  · next hdocument =>
    split at h
    · cases h
    · next hread =>
      cases h
      exact bodies_readable (Source.parse_readable hdocument) hread

/-- The text of a declaration. -/
def declarationText (name : Text) (escapes : List Bool) (body : Stm) : Text :=
  formText "func" [name, "(" ++ Text.join " " (escapes.map Text.ofBool) ++ ")", body.text]

/-- A declaration as a datum. -/
def declarationDatum (name : Text) (escapes : List Bool) (body : Stm) : List Datum :=
  [.atom "func", .atom name, .list ((escapes.map Text.ofBool).map .atom), body.datum]

theorem text_declarationDatum (name : Text) (escapes : List Bool) (body : Stm) :
    (Datum.list (declarationDatum name escapes body)).text = declarationText name escapes body := by
  simp only [declarationDatum, declarationText, Datum.text, Datum.texts, Datum.texts_atoms, Stm.text_datum, formText]

theorem readable_declarationDatum {name : Text} (hname : isName name = true) (escapes : List Bool) {body : Stm}
    (hbody : body.Printable) : Datum.readableAll (declarationDatum name escapes body) = true := by
  have hflags : ∀ l ∈ escapes.map Text.ofBool, isName l = true := by
    intro l hl
    obtain ⟨b, -, rfl⟩ := List.mem_map.mp hl
    cases b <;> decide
  refine Bool.and_eq_true_iff.mpr ⟨by decide, Bool.and_eq_true_iff.mpr ⟨hname, ?_⟩⟩
  exact Datum.readableAll_pair (Datum.readableAll_atoms hflags) (Stm.readable_datum body hbody)

theorem readEscapes_of_data (src : Source) (function : Text) (index : Nat) {xs : List SExpr} {escapes : List Bool}
    (h : data xs = (escapes.map Text.ofBool).map .atom) : readEscapes src function index xs = .ok escapes := by
  induction escapes generalizing xs index with
  | nil =>
    obtain rfl := eq_nil_of_data h
    rfl
  | cons b escapes ih =>
    obtain ⟨x, rest, rfl, hx, hrest⟩ := eq_cons_of_data h
    obtain ⟨span, rfl⟩ := eq_atom_of_datum hx
    have hflag : flagOf src (.atom span (Text.ofBool b)) = .ok b := by
      cases b <;> rfl
    rw [readEscapes, hflag]
    dsimp only
    rw [ih (index + 1) hrest]
    rfl

/-- A printed declaration is read as it was printed. -/
theorem parse_declarationText (file : Text) {name : Text} (hname : isName name = true) (escapes : List Bool)
    {body : Stm} (hbody : body.Printable) :
    ∃ d, parse file (declarationText name escapes body) = .ok [d] ∧ d.name = name ∧
      d.escapes = escapes ∧ d.body.datum = body.datum := by
  obtain ⟨document, x, hparse, hforms, hx⟩ := Source.parse_list file (readable_declarationDatum hname escapes hbody)
  rw [text_declarationDatum] at hparse
  obtain ⟨span, at', parts, rfl, hparts⟩ := eq_form_of_datum hx
  obtain ⟨y, parts, rfl, hy, hparts⟩ := eq_cons_of_data hparts
  obtain ⟨z, z', rfl, hz, hz'⟩ := eq_two_of_data hparts
  obtain ⟨_, rfl⟩ := eq_atom_of_datum hy
  cases z with
  | atom | int => cases hz
  | list span' flags =>
    refine ⟨{ name, escapes, body := z', source := Source.ofFile file (declarationText name escapes body) }, ?_, rfl,
      rfl, hz'⟩
    have hflags := readEscapes_of_data (Source.ofFile file (declarationText name escapes body)) name 0
      (Datum.list.inj hz)
    unfold parse
    dsimp only
    rw [hparse]
    dsimp only
    rw [hforms, readDeclarations, readDeclaration, if_pos rfl]
    simp only [nameOf, List.contains_nil, if_neg Bool.false_ne_true, hflags, bind, Except.bind]
    rfl

/-! ### Building again -/

theorem eq_of_mem_of_nodup {α β : Type} {l : List (α × β)} (hl : (l.map Prod.snd).Nodup) {a a' : α} {b : β}
    (h : (a, b) ∈ l) (h' : (a', b) ∈ l) : a = a' := by
  induction l with
  | nil => cases h
  | cons p rest ih =>
    obtain ⟨hp, hrest⟩ := List.nodup_cons.mp hl
    rcases List.mem_cons.mp h with rfl | hmem
    · rcases List.mem_cons.mp h' with heq | hmem'
      · exact (Prod.mk.inj heq).1.symm
      · exact absurd (List.mem_map_of_mem (f := Prod.snd) hmem') hp
    · rcases List.mem_cons.mp h' with rfl | hmem'
      · exact absurd (List.mem_map_of_mem (f := Prod.snd) hmem) hp
      · exact ih hrest hmem hmem'

/-- A form that says what a tree says is built to the tree with new registers, a different one for each. -/
theorem build_of_datum (src : Source) {x : SExpr} {t : Stm} (hwhole : t.whole = true) (ht : t.Printable)
    (hx : x.datum = t.datum) (frame : X86.Frame) (session : Session) :
    ∃ r w, (buildStm src x).run.run { session, frame } = (.ok (t.rename r), w) ∧ w.frame = frame ∧
      (∀ u ∈ t.temps, session.temps < (r u).id ∧ (r u).id ≤ w.session.temps) ∧
      ∀ u ∈ t.temps, ∀ u' ∈ t.temps, r u = r u' → u = u' := by
  obtain ⟨a, w, hrun, hgrows, hnamed, ha⟩ := buildStm_restores src t hwhole ht x hx { session, frame }
  have htidy : w.Tidy session.temps := hgrows.tidy session.temps ⟨Nat.le_refl _, nofun, .nil⟩
  have hregister {u : Temp} (hu : u ∈ t.temps) : (u.text, w.registerOf u) ∈ w.temps := by
    obtain ⟨v, hv⟩ := hnamed u hu
    rw [Workspace.registerOf, hv]
    exact mem_of_lookup hv
  refine ⟨w.registerOf, w, ?_, hgrows.frame, ?_, ?_⟩
  · rw [hrun, ha w (.refl w)]
  · intro u hu
    exact htidy.fresh _ _ (hregister hu)
  · intro u hu u' hu' heq
    have hnames := Stm.named_temps t ht
    refine Temp.eq_of_text_eq (hnames u hu) (hnames u' hu') (eq_of_mem_of_nodup htidy.distinct (hregister hu) ?_)
    rw [heq]
    exact hregister hu'

/-- Whatever tree is built from whatever text, if no statement is missing, neither the tree itself nor that of a
sequence expression: printed as the body of a function, it is read and built again, with new registers for its registers
and the same in all else. -/
theorem printed_tree_reads_back (file text : Text) (ds : List Declaration) (d : Declaration) (frame : X86.Frame)
    (session : Session) (t : Stm) (w : Workspace) (hparse : parse file text = .ok ds) (hd : d ∈ ds)
    (hframe : frame.Made) (hbuild : d.build frame session = (.ok t, w)) (hhole : t ≠ .hole)
    (hgap : t.hasGap = false) (file' name : Text) (hname : isName name = true) (escapes : List Bool) :
    ∃ d', parse file' (declarationText name escapes t) = .ok [d'] ∧ d'.name = name ∧ d'.escapes = escapes ∧
      ∀ frame' session', ∃ r w', d'.build frame' session' = (.ok (t.rename r), w') ∧ w'.frame = frame' ∧
        (∀ u ∈ t.temps, session'.temps < (r u).id ∧ (r u).id ≤ w'.session.temps) ∧
        ∀ u ∈ t.temps, ∀ u' ∈ t.temps, r u = r u' → u = u' := by
  have hbody := parse_readable hparse d hd
  have hnamed : Workspace.Named { session, frame } := ⟨nofun, nofun, hframe.named⟩
  obtain ⟨-, ht⟩ := buildStm_keeps d.source d.body hbody { session, frame } hnamed t w hbuild
  have hwhole := Stm.whole_of_printable t ht hhole hgap
  obtain ⟨d', hparse', hname', hescapes, hdatum⟩ := parse_declarationText file' hname escapes ht
  exact ⟨d', hparse', hname', hescapes,
    fun frame' session' => build_of_datum d'.source hwhole ht hdatum frame' session'⟩

/-- The tree of the only declaration of a text, built on a new frame of its own. -/
def builtAlone (file text : Text) : Option Stm :=
  match parse file text with
  | .ok [d] =>
    match (d.build ((X86.Frame.create d.name d.escapes).run {}).1 ((X86.Frame.create d.name d.escapes).run {}).2).1 with
    | .ok t => some t
    | .error _ => none
  | _ => none

theorem exists_of_builtAlone {file text : Text} {t : Stm} (h : builtAlone file text = some t) :
    ∃ d w frame session, parse file text = .ok [d] ∧ frame.Made ∧ d.build frame session = (.ok t, w) := by
  unfold builtAlone at h
  split at h
  · next d hparse =>
    split at h
    · next hbuilt =>
      cases h
      exact ⟨d, _, _, _, hparse, .create d.name d.escapes {}, Prod.ext hbuilt rfl⟩
    · cases h
  · cases h

/-- Variables in slots and registers, a constant without a sign, the short form of a jump, an empty sequence among
others and labels that look like numbers or operators. -/
theorem mixedBody_reads_back :
    let text : Text := "(func f (true false) (seq (cjump u< (formal 0) 4294967295 a.b -) (label a.b) (move (temp x) " ++
      "(call (name 0x) (formal 1) (local y true) fp)) (seq) (jump (temp x) a.b -) (jump -) (label -)))"
    let slot : Word → Exp := fun i => .mem (.bin .plus (.temp X86.framePointer) (.const i))
    let t : Stm := .seq (.cjump .ult (slot 8) (.const (-1)) "a.b" "-") (.seq (.label "a.b")
      (.seq (.move (.temp ⟨2⟩) (.call (.name "0x") [.temp ⟨1⟩, slot (-4), .temp X86.framePointer]))
        (.seq (.jump (.temp ⟨2⟩) ["a.b", "-"]) (.seq (.jump (.name "-") ["-"]) (.label "-")))))
    (∃ d w frame session, parse "a.ir" text = .ok [d] ∧ frame.Made ∧ d.build frame session = (.ok t, w)) ∧
    t ≠ .hole ∧ t.hasGap = false ∧
    ∃ d', parse "b.ir" (declarationText "-" [false] t) = .ok [d'] ∧
      ∀ frame' session', ∃ r w', d'.build frame' session' = (.ok (t.rename r), w') ∧
        ∀ u ∈ t.temps, ∀ u' ∈ t.temps, r u = r u' → u = u' := by
  intro text slot t
  have hgap : t.hasGap = false := by decide
  obtain ⟨d, w, frame, session, hparse, hframe, hbuild⟩ :=
    exists_of_builtAlone (show builtAlone "a.ir" text = some t by decide +kernel)
  obtain ⟨d', hparse', -, -, hagain⟩ := printed_tree_reads_back "a.ir" text [d] d frame session t w hparse
    (List.mem_singleton.mpr rfl) hframe hbuild Stm.noConfusion hgap "b.ir" "-" (by decide) [false]
  refine ⟨⟨d, w, frame, session, hparse, hframe, hbuild⟩, Stm.noConfusion, hgap, d', hparse', fun frame' session' => ?_⟩
  obtain ⟨r, w', hbuild', -, -, hinj⟩ := hagain frame' session'
  exact ⟨r, w', hbuild', hinj⟩

end Program

end Lowering
