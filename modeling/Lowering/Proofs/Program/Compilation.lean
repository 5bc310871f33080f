import Lowering.Function.Package
import Lowering.Proofs.Frame.Layout
import Lowering.Proofs.Program.Bodies
import Lowering.Proofs.Template.Printing

/-!
# Compilation

What becomes of a program text up to the point where its functions part. It is read or refused; each function is built
or refused; and what was built is lowered, unless its body has a gap. Then lowering meets a fault, and this is the only
one that any text leads to.
-/

namespace Lowering

namespace X86

/-! ### Frames -/

/-- A new frame takes locals, and the registers of its formals were handed out. -/
theorem Frame.create_sane (name : Label) (escapes : List Bool) (session : Session) :
    Program.Workspace.Sane
      { frame := ((Frame.create name escapes).run session).1
        session := ((Frame.create name escapes).run session).2 } := by
  obtain ⟨hle, hformals⟩ := placeFormals_run firstFormalOffset escapes session
  have htemps := Session.temps_record (.newFrame name escapes ((placeFormals firstFormalOffset escapes).run session).1)
    ((placeFormals firstFormalOffset escapes).run session).2
  refine ⟨rfl, ?_, ?_, ?_⟩
  · intro _ _ hmem
    cases hmem
  · intro _ _ hmem
    cases hmem
  · intro a ha
    exact (hformals a ha).mono (Nat.le_of_eq htemps.symm)

theorem Frame.entryMoves_built {n : Nat} {formals : List Access} (hformals : ∀ a ∈ formals, Access.Issued n a)
    (i : Nat) : ∀ s ∈ Frame.entryMoves i formals, Program.StmBuilt false false s n := by
  induction formals generalizing i with
  | nil => exact List.forall_mem_nil _
  | cons a rest ih =>
    obtain ⟨ha, hrest⟩ := List.forall_mem_cons.mp hformals
    rw [Frame.entryMoves]
    split
    · exact ih hrest (i + 1)
    · refine List.forall_mem_cons.mpr ⟨.move ?_ (.access ha) (.access trivial), ih hrest (i + 1)⟩
      cases a <;> rfl

theorem Frame.saveRegisters_run (regs : List Temp) (session : Session) :
    session.temps ≤ ((Frame.saveRegisters regs).run session).2.temps ∧
      ∀ p ∈ ((Frame.saveRegisters regs).run session).1,
        p.1 ∈ regs ∧ p.2.id ≤ ((Frame.saveRegisters regs).run session).2.temps := by
  obtain ⟨hsaved, htemps⟩ := Frame.saveRegisters_spec regs session
  rw [hsaved, htemps]
  refine ⟨Nat.le_add_right _ _, fun p hp => ?_⟩
  obtain ⟨hreg, hfresh⟩ := List.of_mem_zip hp
  exact ⟨hreg, (mem_freshRegisters hfresh).2⟩

/-- Entry and exit code around a body leave its gaps as they are. -/
theorem Frame.wrap_built {frame : Frame} {body : Stm} {session : Session} {void gap : Bool}
    (hformals : ∀ a ∈ frame.formals, Access.Issued session.temps a)
    (hbody : Program.StmBuilt void gap body session.temps) :
    Program.StmBuilt false gap ((frame.wrap body).run session).1 ((frame.wrap body).run session).2.temps := by
  obtain ⟨hle, hsaved⟩ := Frame.saveRegisters_run calleeSaved session
  have hfixed (r : Temp) (hr : r ∈ calleeSaved) : r.id ≤ ((Frame.saveRegisters calleeSaved).run session).2.temps := by
    have hneg : ∀ r ∈ calleeSaved, r.id < 0 := by decide
    have := hneg r hr
    omega
  have hentry := Frame.entryMoves_built (fun a ha => (hformals a ha).mono hle) 0
  have hsaves : ∀ s ∈ ((Frame.saveRegisters calleeSaved).run session).1.map
      fun p => Stm.move (.temp p.2) (.temp p.1),
      Program.StmBuilt false false s ((Frame.saveRegisters calleeSaved).run session).2.temps := by
    intro s hs
    obtain ⟨p, hp, rfl⟩ := List.mem_map.mp hs
    exact .copy (hsaved p hp).2 (hfixed p.1 (hsaved p hp).1)
  have hrestores : ∀ s ∈ ((Frame.saveRegisters calleeSaved).run session).1.map
      fun p => Stm.move (.temp p.1) (.temp p.2),
      Program.StmBuilt false false s ((Frame.saveRegisters calleeSaved).run session).2.temps := by
    intro s hs
    obtain ⟨p, hp, rfl⟩ := List.mem_map.mp hs
    exact .copy (hfixed p.1 (hsaved p hp).1) (hsaved p hp).2
  have hend := (hbody.mono hle).cons (.append hrestores .nil)
  have hwhole := Program.StmBuilt.append (List.forall_mem_append.mpr ⟨hentry, hsaves⟩) hend
  -- There are registers to save, so something is there even if the body is not.
  have hsome : (Frame.entryMoves 0 frame.formals ++ ((Frame.saveRegisters calleeSaved).run session).1.map
      fun p => Stm.move (.temp p.2) (.temp p.1)).isEmpty = false :=
    List.isEmpty_eq_false_iff.mpr (List.append_ne_nil_of_right_ne_nil _ (List.cons_ne_nil _ _))
  rw [hsome, Bool.false_and, Bool.or_false, List.append_nil] at hwhole
  change Program.StmBuilt false gap (Stm.seqs (Frame.entryMoves 0 frame.formals ++ _ ++ [body] ++ _)) _
  rw [List.append_assoc (_ ++ _)]
  exact hwhole

end X86

/-! ### Functions -/

/-- Lowering to x86 without checks. -/
def x86Options : Options := { target := some .x86 }

/-- The frame that lowering makes for a function. -/
def Function.frame [S : Supply] (fn : Function) (session : Session) : X86.Frame × Session :=
  (X86.Frame.create fn.name fn.escapes).run ((Session.record (.function fn.name fn.escapes)).run session).2

namespace Program

@[inherit_doc Function.frame]
def Declaration.frame [S : Supply] (d : Declaration) (session : Session) : X86.Frame × Session :=
  d.function.frame session

/-- The tree of a declared body, built in the frame that lowering makes for its function. -/
def Declaration.tree (d : Declaration) (session : Session) : Except (Stop FormError) Stm :=
  (d.build (d.frame session).1 (d.frame session).2).1

end Program

theorem record_run {ε : Type} (e : Event) (session : Session) :
    (Session.record e : Backend ε Unit).run.run session = (.ok (), ((Session.record e).run session).2) := rfl

theorem get_run {ε : Type} (session : Session) :
    (get : Backend ε Session).run.run session = (.ok session, session) := rfl

theorem tile_run_ok [S : Supply] {s : Stm} {session : Session} {log : Log}
    (hrun : (X86.rules.tileStm s).run.run { session } = (.ok (), log)) :
    (tile s).run.run session = (.ok log.code, log.session) := by
  rw [tile, bind_run_ok (get_run session), hrun]
  rfl

theorem tile_run_error [S : Supply] {s : Stm} {session : Session} {log : Log} {why : Stop Refusal}
    (hrun : (X86.rules.tileStm s).run.run { session } = (.error why, log)) :
    (tile s).run.run session = (.error (why.map .refused), log.session) := by
  rw [tile, bind_run_ok (get_run session), hrun]
  rfl

/-- A covered statement has code that prints, unless it has a gap. -/
theorem tile_outcome {s : Stm} (hs : s.covered = true) (session : Session) :
    ∃ session',
      (s.hasGap = false ∧ ∃ code, (tile s).run.run session = (.ok code, session') ∧ ∀ x ∈ code, x.Prints) ∨
      (s.hasGap = true ∧ (tile s).run.run session = (.error (.fault .holeRead), session')) := by
  cases hgap : s.hasGap with
  | false =>
    obtain ⟨code, regs, n', hlowers⟩ := X86.lowers_of_covered (x := .stm s) hs hgap session.temps
    obtain ⟨journal, hrun⟩ := X86.tileStm_run hlowers { session } rfl
    exact ⟨_, .inl ⟨rfl, code, tile_run_ok hrun, hlowers.prints⟩⟩
  | true =>
    obtain ⟨code, n', hfaults⟩ := X86.tileStm_faults hs hgap session.temps
    obtain ⟨journal, hrun⟩ := hfaults { session } rfl
    exact ⟨_, .inr ⟨rfl, tile_run_error hrun⟩⟩

theorem Body.build_run_ok [S : Supply] {d : Program.Declaration} {frame : X86.Frame} {session : Session} {s : Stm}
    {w : Program.Workspace} (hbuild : d.build frame session = (.ok s, w)) :
    ((Body.declared d).build frame).run.run session = (.ok (s, w.frame), w.session) := by
  rw [Body.build, bind_run_ok (get_run session), hbuild]
  rfl

theorem Body.build_run_error [S : Supply] {d : Program.Declaration} {frame : X86.Frame} {session : Session}
    {why : Stop Program.FormError} {w : Program.Workspace} (hbuild : d.build frame session = (.error why, w)) :
    ((Body.declared d).build frame).run.run session = (.error (why.map .form), w.session) := by
  rw [Body.build, bind_run_ok (get_run session), hbuild]
  rfl

namespace Program.Declaration

/-- Lowering a declared function begins with its frame. -/
theorem lower_run (d : Declaration) (session : Session) :
    (d.function.lower x86Options).run.run session =
      (do
        let (body, frame) ← (Body.declared d).build (d.frame session).1
        let whole ← frame.wrap body
        Session.record (.wholeTree whole)
        let code := X86.Frame.withExit (← tile whole)
        Session.record (.lowered code.length)
        return frame.procedure code : Backend LowerError X86.Procedure).run.run (d.frame session).2 :=
  rfl

theorem build_outcome (d : Declaration) (session : Session) :
    ∃ w, w.Sane ∧
      ((∃ s, d.build (d.frame session).1 (d.frame session).2 = (.ok s, w) ∧
          StmBuilt d.body.isVoid d.body.hasGap s w.session.temps) ∨
        ∃ e, d.build (d.frame session).1 (d.frame session).2 = (.error (.failed e), w)) := by
  have hsane := X86.Frame.create_sane d.name d.escapes ((Session.record (.function d.name d.escapes)).run session).2
  obtain ⟨w, hw, -, hend⟩ := buildStm_ensures d.source d.body _ hsane
  exact ⟨w, hw, hend⟩

/-- How lowering a declared function ends: with code that prints, with a fault if its body has a gap, or with the error
of a body that cannot be built. -/
theorem lower_outcome (d : Declaration) (session : Session) :
    ∃ session',
      (∃ s p, d.tree session = .ok s ∧ d.body.hasGap = false ∧
        (d.function.lower x86Options).run.run session = (.ok p, session') ∧ ∀ x ∈ p.body, x.Prints) ∨
      (∃ s, d.tree session = .ok s ∧ d.body.hasGap = true ∧
        (d.function.lower x86Options).run.run session = (.error (.fault .holeRead), session')) ∨
      (∃ e, d.tree session = .error (.failed e) ∧
        (d.function.lower x86Options).run.run session = (.error (.failed (.form e)), session')) := by
  rw [lower_run, tree]
  obtain ⟨w, hw, ⟨s, hbuild, hbuilt⟩ | ⟨e, hbuild⟩⟩ := d.build_outcome session
  · have hwhole := X86.Frame.wrap_built hw.formals hbuilt
    rw [bind_run_ok (Body.build_run_ok hbuild), hbuild]
    obtain ⟨session', ⟨hgap, code, htile, hprints⟩ | ⟨hgap, htile⟩⟩ := tile_outcome hwhole.there
      ((Session.record (.wholeTree ((w.frame.wrap s).run w.session).1)).run ((w.frame.wrap s).run w.session).2).2
    · refine ⟨_, .inl ⟨s, w.frame.procedure (X86.Frame.withExit code), rfl, hwhole.gap.symm.trans hgap,
        bind_run_ok htile, ?_⟩⟩
      exact List.forall_mem_append.mpr ⟨hprints, List.forall_mem_singleton.mpr (X86.prints_note _ _ _ _)⟩
    · refine ⟨session', .inr (.inl ⟨s, rfl, hwhole.gap.symm.trans hgap, ?_⟩)⟩
      exact bind_run_error (f := fun code => (do
        Session.record (.lowered (X86.Frame.withExit code).length)
        return w.frame.procedure (X86.Frame.withExit code) : Backend LowerError X86.Procedure)) htile
  · exact ⟨w.session, .inr (.inr ⟨e, by rw [hbuild], bind_run_error (Body.build_run_error hbuild)⟩)⟩

end Program.Declaration

/-! ### Programs -/

theorem mapError_run {ε δ α : Type} (f : ε → δ) (x : Backend ε α) (session : Session) :
    (Backend.mapError f x).run.run session =
      ((x.run.run session).1.mapError (Stop.map f), (x.run.run session).2) :=
  rfl

namespace Program

theorem parse_file_failed {src : Source} {why : Stop ParseError} (h : src.parse .file = .error why) :
    ∃ e, why = .failed e := by
  unfold Source.parse at h
  dsimp only at h
  rw [Grammar.parse] at h
  cases hdoc : SExpr.readDocument src.text 0 with
  | error e =>
    rw [hdoc] at h
    cases h
    exact ⟨_, rfl⟩
  | ok found =>
    rw [hdoc] at h
    dsimp only at h
    split at h
    · cases h
      exact ⟨_, rfl⟩
    · cases h

/-- A text is not read only if there is an error in it. -/
theorem parse_failed {name text : Text} {why : Stop ProgramError} (h : parse name text = .error why) :
    ∃ e, why = .failed e := by
  unfold parse at h
  dsimp only at h
  split at h
  · next why' hsrc =>
    obtain ⟨e, rfl⟩ := parse_file_failed hsrc
    cases h
    exact ⟨_, rfl⟩
  · cases h
    exact ⟨_, rfl⟩
  · split at h
    · cases h
      exact ⟨_, rfl⟩
    · cases h

theorem bind_eq_ok {ε α β : Type} {x : Except ε α} {f : α → Except ε β} {b : β} (h : x >>= f = .ok b) :
    ∃ a, x = .ok a ∧ f a = .ok b := by
  cases x with
  | error e => cases h
  | ok a => exact ⟨a, rfl, h⟩

theorem not_seen_of_readDeclaration {src : Source} {seen : List Text} {x : SExpr} {d : Declaration}
    (h : readDeclaration src seen x = .ok d) : seen.contains d.name = false := by
  unfold readDeclaration at h
  split at h
  · split at h
    · dsimp only at h
      split at h
      · obtain ⟨name, -, h⟩ := bind_eq_ok h
        split at h
        · cases h
        · next hseen =>
          split at h
          · obtain ⟨escapes, -, h⟩ := bind_eq_ok h
            cases h
            exact Bool.eq_false_iff.mpr hseen
          · cases h
      · obtain ⟨name, hname, -⟩ := bind_eq_ok h
        cases hname
    · cases h
  · cases h

/-- The names of declarations that were read are different. -/
theorem duplicate?_of_readDeclarations {src : Source} {seen : List Text} {xs : List SExpr} {ds : List Declaration}
    (h : readDeclarations src seen xs = .ok ds) : Package.duplicate? seen (ds.map (·.name)) = none := by
  induction xs generalizing seen ds with
  | nil =>
    cases h
    rfl
  | cons x rest ih =>
    rw [readDeclarations] at h
    obtain ⟨d, hfirst, h⟩ := bind_eq_ok h
    obtain ⟨ds', hrest, h⟩ := bind_eq_ok h
    cases h
    rw [List.map_cons, Package.duplicate?, not_seen_of_readDeclaration hfirst, if_neg Bool.false_ne_true]
    exact ih hrest

theorem duplicate?_of_parse {name text : Text} {ds : List Declaration} (h : parse name text = .ok ds) :
    Package.duplicate? [] (ds.map (·.name)) = none := by
  unfold parse at h
  dsimp only at h
  split at h
  · cases h
  · cases h
  · split at h
    · cases h
    · next hread =>
      cases h
      exact duplicate?_of_readDeclarations hread

end Program

end Lowering
