import Lowering.Proofs.Definedness.Check
import Lowering.Proofs.Renaming.Bodies

/-!
# Lowering a function twice

A declared function is lowered by itself and with the registers of another supply. Both attempts succeed or both end in
errors or faults of the same kind, and the procedures are the same up to the names of registers:
`Declaration.lower_twin`.
-/

namespace Lowering

/-! ### The registers of a whole function -/

namespace X86

variable {session : Session}

theorem Frame.create_nameable (name : Label) (escapes : List Bool) (session : Session) :
    ∀ t, .inReg t ∈ ((Frame.create name escapes).run session).1.formals →
      t.Nameable ((Frame.create name escapes).run session).2.temps := by
  obtain ⟨session', hrun, htemps⟩ := Frame.create_run name escapes session
  obtain ⟨-, hcounter, hregs, -⟩ := placeFormals_spec firstFormalOffset escapes session
  rw [hrun, htemps, hcounter]
  intro t ht
  have hmem := mem_registersOf ht
  rw [hregs] at hmem
  obtain ⟨hlow, hhigh⟩ := mem_freshRegisters hmem
  exact .inr (.inr ⟨by omega, hhigh⟩)

theorem Frame.saveRegisters_valid (regs : List Temp) (session : Session) :
    ∀ p ∈ ((Frame.saveRegisters regs).run session).1, p.2.Valid ((Frame.saveRegisters regs).run session).2.temps := by
  obtain ⟨hsaved, htemps⟩ := Frame.saveRegisters_spec regs session
  rw [hsaved, htemps]
  intro p hp
  obtain ⟨hlow, hhigh⟩ := mem_freshRegisters (List.of_mem_zip hp).2
  exact .inr ⟨by omega, hhigh⟩

/-- Entry code names the frame pointer and the registers of formals. -/
theorem Frame.temps_entryMoves {P : Temp → Prop} (hfp : P framePointer) {formals : List Access}
    (hformals : ∀ t, .inReg t ∈ formals → P t) (i : Nat) : ∀ s ∈ Frame.entryMoves i formals, ∀ t ∈ s.temps, P t := by
  induction formals generalizing i with
  | nil => exact List.forall_mem_nil _
  | cons a rest ih =>
    have hrest := ih (fun t ht => hformals t (List.mem_cons_of_mem a ht)) (i + 1)
    rw [Frame.entryMoves]
    split
    · exact hrest
    · refine List.forall_mem_cons.mpr ⟨List.forall_mem_append.mpr ⟨?_, ?_⟩, hrest⟩
      · exact Program.temps_access hfp fun t ht => hformals t (ht ▸ List.mem_cons_self)
      · exact Program.temps_access hfp fun _ ht => by cases ht

theorem Frame.wrap_valid {frame : Frame} {body : Stm} (hformals : ∀ t, .inReg t ∈ frame.formals → t.Valid session.temps)
    (hbody : ∀ t ∈ body.temps, t.Valid session.temps) :
    ∀ t ∈ ((frame.wrap body).run session).1.temps, t.Valid ((frame.wrap body).run session).2.temps := by
  have hle := (Frame.saveRegisters_run calleeSaved session).1
  have hsaved (p : Temp × Temp) (hp : p ∈ ((Frame.saveRegisters calleeSaved).run session).1) :
      p.1.Valid ((Frame.saveRegisters calleeSaved).run session).2.temps ∧
        p.2.Valid ((Frame.saveRegisters calleeSaved).run session).2.temps := by
    have hneg : ∀ a ∈ calleeSaved, a.id < 0 := by decide
    exact ⟨.inl (hneg p.1 ((Frame.saveRegisters_run calleeSaved session).2 p hp).1),
      Frame.saveRegisters_valid calleeSaved session p hp⟩
  intro t ht
  rw [Frame.wrap_eq] at ht
  obtain ⟨s, hs, hts⟩ := Program.exists_mem_of_temps_seqs ht
  rw [List.mem_append, List.mem_append, Frame.entry, List.mem_append, List.mem_map, List.mem_singleton, Frame.exit,
    List.mem_map] at hs
  obtain ((hmove | ⟨p, hp, rfl⟩) | rfl) | ⟨p, hp, rfl⟩ := hs
  · exact Frame.temps_entryMoves (.inl (by decide)) (fun t ht => (hformals t ht).mono hle) 0 s hmove t hts
  · exact List.forall_mem_cons.mpr ⟨(hsaved p hp).2, List.forall_mem_singleton.mpr (hsaved p hp).1⟩ t hts
  · exact (hbody t hts).mono hle
  · exact List.forall_mem_cons.mpr ⟨(hsaved p hp).1, List.forall_mem_singleton.mpr (hsaved p hp).2⟩ t hts

/-! ### Procedures -/

theorem Frame.withExit_rename (r : Renaming) (code : List Instr) :
    (Frame.withExit code).map (Instr.rename r) = Frame.withExit (code.map (Instr.rename r)) := by
  simp [Frame.withExit, Frame.liveAtExit, calleeSaved, framePointer, Instr.rename]

theorem Frame.withExit_valid {n : Nat} {code : List Instr} (hcode : ∀ t ∈ Check.mentioned code [], t.Valid n) :
    ∀ t ∈ Check.mentioned (Frame.withExit code) [], t.Valid n := by
  have hlive : ∀ t ∈ Frame.liveAtExit, t.id < 0 := by decide
  rw [Frame.withExit, Check.mentioned_append]
  refine List.forall_mem_append.mpr ⟨hcode, fun t ht => .inl (hlive t ?_)⟩
  simpa [Check.mentioned, Instr.uses, Instr.defs] using ht

end X86

/-! ### Built bodies -/

/-- Lowering to x86, with or without the check for undefined registers. -/
def x86Checking (validate : Bool) : Options := { target := some .x86, validate }

/-- What lowering does with code: the check, if there is to be one, and the procedure. -/
def complete (validate : Bool) (frame : X86.Frame) (code : List Instr) : Backend LowerError X86.Procedure := do
  if validate then
    match checkDefined code [] with
    | .ok () => pure ()
    | .error why => throw (why.map .undefinedUse)
  Session.record (.lowered code.length)
  return frame.procedure code

/-- What lowering does with a body once it is built. -/
def lowerBuilt [S : Supply] (validate : Bool) (frame : X86.Frame) (body : Stm) : Backend LowerError X86.Procedure := do
  let whole ← frame.wrap body
  Session.record (.wholeTree whole)
  let code ← tile whole
  complete validate frame (X86.Frame.withExit code)

section Built

variable {validate : Bool} {frame : X86.Frame} {code : List Instr} {session session₁ : Session}

theorem complete_run_ok (hcheck : validate = true → checkDefined code [] = .ok ()) :
    (complete validate frame code).run.run session =
      (.ok (frame.procedure code), ((Session.record (.lowered code.length)).run session).2) := by
  cases validate with
  | false => rfl
  | true =>
    rw [complete, if_pos rfl, hcheck rfl]
    rfl

theorem complete_run_error {why : Stop UndefinedUse} (hcheck : checkDefined code [] = .error why) :
    (complete true frame code).run.run session = (.error (why.map .undefinedUse), session) := by
  rw [complete, if_pos rfl, hcheck]
  rfl

variable {body : Stm}

theorem lowerBuilt_run [S : Supply] (htile : (tile ((frame.wrap body).run session).1).run.run
    ((Session.record (.wholeTree ((frame.wrap body).run session).1)).run ((frame.wrap body).run session).2).2 =
      (.ok code, session₁)) :
    (lowerBuilt validate frame body).run.run session =
      (complete validate frame (X86.Frame.withExit code)).run.run session₁ :=
  bind_run_ok htile

theorem lowerBuilt_run_error [S : Supply] {why : Stop LowerError}
    (htile : (tile ((frame.wrap body).run session).1).run.run
      ((Session.record (.wholeTree ((frame.wrap body).run session).1)).run ((frame.wrap body).run session).2).2 =
        (.error why, session₁)) :
    (lowerBuilt validate frame body).run.run session = (.error why, session₁) :=
  bind_run_error (f := fun code => complete validate frame (X86.Frame.withExit code)) htile

theorem tile_of_lowers [S : Supply] {n n' : Nat} {s : Stm} {regs : List Temp} (h : X86.Lowers n [.stm s] code regs n')
    (hn : session.temps = n) : ∃ session₁, (tile s).run.run session = (.ok code, session₁) ∧ session₁.temps = n' := by
  obtain ⟨journal, hrun⟩ := X86.tileStm_run h { session } hn
  exact ⟨_, tile_run_ok hrun, rfl⟩

theorem tile_of_gap [S : Supply] {s : Stm} (hs : s.covered = true) (hgap : s.hasGap = true) (session : Session) :
    ∃ session₁, (tile s).run.run session = (.error (.fault .holeRead), session₁) := by
  obtain ⟨code, n', hfaults⟩ := X86.tileStm_faults hs hgap session.temps
  obtain ⟨journal, hrun⟩ := hfaults { session } rfl
  exact ⟨_, tile_run_error hrun⟩

theorem Temp.Valid.issued {n : Nat} {frame : X86.Frame} (h : ∀ t, .inReg t ∈ frame.formals → t.Valid n) :
    ∀ a ∈ frame.formals, Access.Issued n a := by
  intro a ha
  cases a with
  | inFrame offset => trivial
  | inReg t =>
    obtain hneg | ⟨-, hle⟩ := h t ha
    · exact Int.le_trans (Int.le_of_lt hneg) (Int.natCast_nonneg n)
    · exact hle

/-- A body that is lowered was wrapped in its frame and tiled. -/
theorem lowerBuilt_ok {void gap : Bool} (hframe : ∀ a ∈ frame.formals, Access.Issued session.temps a)
    (hbody : Program.StmBuilt void gap body session.temps) {p : X86.Procedure}
    (h : (lowerBuilt validate frame body).run.run session = (.ok p, session₁)) :
    ∃ code regs n',
      X86.Lowers ((frame.wrap body).run session).2.temps [.stm ((frame.wrap body).run session).1] code regs n' ∧
        p = frame.procedure (X86.Frame.withExit code) := by
  have hwhole := X86.Frame.wrap_built hframe hbody
  cases gap with
  | true =>
    obtain ⟨s₀, htile⟩ := tile_of_gap hwhole.there hwhole.gap _
    rw [lowerBuilt_run_error htile] at h
    cases h
  | false =>
    obtain ⟨code, regs, n', hlowers⟩ := X86.lowers_of_covered (x := .stm _) hwhole.there hwhole.gap
      ((frame.wrap body).run session).2.temps
    obtain ⟨s₀, htile, -⟩ := tile_of_lowers hlowers (Session.temps_record _ _)
    rw [lowerBuilt_run htile] at h
    refine ⟨code, regs, n', hlowers, ?_⟩
    by_cases hcheck : validate = true → checkDefined (X86.Frame.withExit code) [] = .ok ()
    · rw [complete_run_ok hcheck] at h
      cases h
      rfl
    · obtain ⟨rfl, hfails⟩ := Classical.not_imp.mp hcheck
      cases hresult : checkDefined (X86.Frame.withExit code) [] with
      | ok => exact absurd hresult hfails
      | error why =>
        rw [complete_run_error hresult] at h
        cases h

end Built

/-! ### Renamed trees -/

theorem Stm.isHole_rename (r : Temp → Temp) (s : Stm) : Kind.stm.isHole (s.rename r) = Kind.stm.isHole s := by
  cases s <;> rfl

theorem Exp.isPlace_rename (r : Temp → Temp) (e : Exp) : (e.rename r).isPlace = e.isPlace := by
  cases e <;> rfl

mutual

/-- Renaming neither covers a tree nor uncovers it, and it neither makes gaps nor fills them. -/
theorem Stm.cover_rename (r : Temp → Temp) (s : Stm) :
    (s.rename r).covered = s.covered ∧ (s.rename r).hasGap = s.hasGap := by
  cases s with
  | move dst src =>
    simp [Stm.rename, Stm.covered, Stm.hasGap, Exp.isPlace_rename, Exp.cover_rename r dst, Exp.cover_rename r src]
  | exp e => exact Exp.cover_rename r e
  | seq first second =>
    simp [Stm.rename, Stm.covered, Stm.hasGap, Stm.cover_rename r first, Stm.cover_rename r second]
  | jump target labels => exact Exp.cover_rename r target
  | cjump rel left right t f =>
    simp [Stm.rename, Stm.covered, Stm.hasGap, Exp.cover_rename r left, Exp.cover_rename r right]
  | hole | label => exact ⟨rfl, rfl⟩

theorem Exp.cover_rename (r : Temp → Temp) (e : Exp) :
    (e.rename r).covered = e.covered ∧ (e.rename r).hasGap = e.hasGap := by
  cases e with
  | bin op left right =>
    simp [Exp.rename, Exp.covered, Exp.hasGap, Exp.cover_rename r left, Exp.cover_rename r right]
  | mem addr => exact Exp.cover_rename r addr
  | call func args =>
    simp [Exp.rename, Exp.covered, Exp.hasGap, Exp.cover_rename r func, Exp.coverAll_rename r args]
  | eseq s e =>
    simp [Exp.rename, Exp.covered, Exp.hasGap, Stm.isHole_rename, Stm.cover_rename r s, Exp.cover_rename r e]
  | hole | const | temp | name => exact ⟨rfl, rfl⟩

theorem Exp.coverAll_rename (r : Temp → Temp) (es : List Exp) :
    Exp.coveredAll (Exp.renameAll r es) = Exp.coveredAll es ∧
      Exp.hasGapAny (Exp.renameAll r es) = Exp.hasGapAny es := by
  cases es with
  | nil => exact ⟨rfl, rfl⟩
  | cons e rest =>
    simp [Exp.renameAll, Exp.coveredAll, Exp.hasGapAny, Exp.cover_rename r e, Exp.coverAll_rename r rest]

end

/-! ### Two attempts -/

/-- Why two attempts stopped that went together: a body that cannot be built, a use without a definition, the same up to
names, or the same fault. -/
inductive StopsAlike (r : Renaming) : Stop LowerError → Stop LowerError → Prop where
  | form (e e' : Program.FormError) : StopsAlike r (.failed (.form e)) (.failed (.form e'))
  | undefinedUse (u : UndefinedUse) : StopsAlike r (.failed (.undefinedUse u)) (.failed (.undefinedUse (u.rename r)))
  | fault (f : Fault) : StopsAlike r (.fault f) (.fault f)

/-- How two attempts end that go together: with a procedure each, the same up to names, or alike without one. -/
inductive Function.EndsAlike (r : Renaming) (d : Nat) (name : Label) :
    Except (Stop LowerError) X86.Procedure × Session → Except (Stop LowerError) X86.Procedure × Session → Prop where
  | lowered {p : X86.Procedure} {s₀ s₁ : Session} (hname : p.frame.name = name) (hcounter : s₁.temps = s₀.temps + d)
    (hvalid : ∀ t ∈ Check.mentioned p.body [], t.Valid s₀.temps) :
    Function.EndsAlike r d name (.ok p, s₀) (.ok (p.rename r), s₁)
  | stopped {why why' : Stop LowerError} {s₀ s₁ : Session} (hwhy : StopsAlike r why why') :
    Function.EndsAlike r d name (.error why, s₀) (.error why', s₁)

section Twins

variable {S : Supply} {r : Renaming} {d n : Nat} (hr : S.Renames r d)

include hr

/-- A virtual register among the first `n` goes to the one that the supply hands out in its place. -/
theorem Temp.Valid.rename {t : Temp} (h : t.Valid n) (hvirtual : t.isFixed = false) :
    ∃ k, k < n ∧ t.id = (k : Int) + 1 ∧ r t = S.register (k + d) := by
  have hpos := h.pos hvirtual
  obtain hneg | ⟨-, hle⟩ := h
  · omega
  · refine ⟨t.id.toNat - 1, by omega, by omega, ?_⟩
    rw [hr]
    exact congrArg r (congrArg Temp.mk (by omega))

/-- The check gives the same answer with the registers of the supply, up to their names. -/
theorem checkDefined_supply (hincreasing : S.Increasing d) {code : List Instr}
    (hcode : ∀ t ∈ Check.mentioned code [], t.Valid n)
    (hfits : ∀ k, d ≤ k → k < n + d → (S.register k).id < 0x8000000000000000) :
    checkDefined (code.map (Instr.rename r)) [] =
      (checkDefined code []).mapError (Stop.map (UndefinedUse.rename r)) := by
  have hbounds (t : Temp) (ht : t ∈ Check.mentioned code []) (hvirtual : t.isFixed = false) :
      0 < (r t).id ∧ t.id ≤ (r t).id ∧ (r t).id < 0x8000000000000000 := by
    obtain ⟨k, hk, hid, heq⟩ := (hcode t ht).rename hr hvirtual
    have := hincreasing.le_id k
    have := hfits (k + d) (by omega) (by omega)
    rw [heq]
    omega
  change checkDefined (code.map (Instr.rename r)) (([] : List Temp).map r) = _
  refine checkDefined_rename ⟨?_, ?_, ?_⟩ fun t ht => ⟨(hcode t ht).ne_zero, ?_⟩
  · intro t _ hfixed
    exact r.keeps (Int.le_of_lt (of_decide_eq_true hfixed))
  · intro t ht hvirtual
    have := hbounds t ht hvirtual
    omega
  · intro t _ u _ _ _ heq
    exact r.injective heq
  · cases hfixed : t.isFixed with
    | true =>
      have : t.id < 0 := of_decide_eq_true hfixed
      omega
    | false =>
      have := hbounds t ht hfixed
      omega

omit hr in
theorem complete_twin {validate : Bool} {frame : X86.Frame} {code : List Instr} {s₀ s₁ : Session}
    (hcounter : s₁.temps = s₀.temps + d) (hvalid : ∀ t ∈ Check.mentioned code [], t.Valid s₀.temps)
    (hcheck : validate = true → checkDefined (code.map (Instr.rename r)) [] =
      (checkDefined code []).mapError (Stop.map (UndefinedUse.rename r))) :
    Function.EndsAlike r d frame.name ((complete validate frame code).run.run s₀)
      ((complete validate (frame.rename r) (code.map (Instr.rename r))).run.run s₁) := by
  have hok (h : validate = true → checkDefined code [] = .ok ())
      (h' : validate = true → checkDefined (code.map (Instr.rename r)) [] = .ok ()) :
      Function.EndsAlike r d frame.name ((complete validate frame code).run.run s₀)
        ((complete validate (frame.rename r) (code.map (Instr.rename r))).run.run s₁) := by
    rw [complete_run_ok h, complete_run_ok h']
    refine Function.EndsAlike.lowered (p := frame.procedure code) rfl ?_ ?_
    · rw [Session.temps_record, Session.temps_record, hcounter]
    · rw [Session.temps_record]
      exact hvalid
  cases validate with
  | false => exact hok nofun nofun
  | true =>
    have hcheck := hcheck rfl
    cases h : checkDefined code [] with
    | ok =>
      rw [h] at hcheck
      exact hok (fun _ => h) fun _ => hcheck
    | error why =>
      rw [h] at hcheck
      rw [complete_run_error h, complete_run_error hcheck]
      refine .stopped ?_
      cases why with
      | failed u => exact .undefinedUse u
      | fault f => exact .fault f

omit hr in
theorem temps_complete (validate : Bool) (frame : X86.Frame) (code : List Instr) (session : Session) :
    ((complete validate frame code).run.run session).2.temps = session.temps := by
  by_cases hcheck : validate = true → checkDefined code [] = .ok ()
  · rw [complete_run_ok hcheck, Session.temps_record]
  · obtain ⟨rfl, hfails⟩ := Classical.not_imp.mp hcheck
    cases hresult : checkDefined code [] with
    | ok => exact absurd hresult hfails
    | error why => rw [complete_run_error hresult]

/-- A body that is built twice is lowered twice or stops twice. -/
theorem lowerBuilt_twin (validate : Bool) {void gap : Bool} {frame : X86.Frame} {body : Stm}
    {session session' : Session} (hincreasing : S.Increasing d) (hcounter : session'.temps = session.temps + d)
    (hbody : Program.StmBuilt void gap body session.temps)
    (hformals : ∀ t, .inReg t ∈ frame.formals → t.Valid session.temps)
    (htemps : ∀ t ∈ body.temps, t.Valid session.temps)
    (hfits : validate = true → ∀ k, d ≤ k →
      k < ((lowerBuilt (S := S) validate (frame.rename r) (body.rename r)).run.run session').2.temps →
        (S.register k).id < 0x8000000000000000) :
    Function.EndsAlike r d frame.name ((lowerBuilt (S := .inOrder) validate frame body).run.run session)
      ((lowerBuilt (S := S) validate (frame.rename r) (body.rename r)).run.run session') := by
  obtain ⟨hwrap, hwrapCounter⟩ := X86.Frame.wrap_rename hr frame body hcounter
  have hwhole := X86.Frame.wrap_built (Temp.Valid.issued hformals) hbody
  cases gap with
  | true =>
    obtain ⟨hcovered, hgap⟩ := Stm.cover_rename r ((frame.wrap (S := .inOrder) body).run session).1
    rw [← hwrap] at hcovered hgap
    obtain ⟨s₀, htile⟩ := tile_of_gap (S := .inOrder) hwhole.there hwhole.gap _
    obtain ⟨s₁, htile'⟩ := tile_of_gap (S := S) (hcovered.trans hwhole.there) (hgap.trans hwhole.gap) _
    rw [lowerBuilt_run_error (S := .inOrder) htile, lowerBuilt_run_error (S := S) htile']
    exact .stopped (.fault _)
  | false =>
    obtain ⟨code, regs, n', hlowers⟩ := X86.lowers_of_covered (S := .inOrder) (x := .stm _) hwhole.there hwhole.gap
      ((frame.wrap (S := .inOrder) body).run session).2.temps
    have hlowers' := hlowers.rename hr
    rw [List.map_singleton, Subtree.rename, ← hwrap, ← hwrapCounter] at hlowers'
    obtain ⟨s₀, htile, rfl⟩ := tile_of_lowers (S := .inOrder) hlowers (Session.temps_record _ _)
    obtain ⟨s₁, htile', hs₁⟩ := tile_of_lowers (S := S) hlowers' (Session.temps_record _ _)
    have hrun : (lowerBuilt (S := .inOrder) validate frame body).run.run session = _ :=
      lowerBuilt_run (S := .inOrder) htile
    have hrun' : (lowerBuilt (S := S) validate (frame.rename r) (body.rename r)).run.run session' = _ :=
      lowerBuilt_run (S := S) htile'
    rw [← X86.Frame.withExit_rename] at hrun'
    obtain ⟨hvalid, -⟩ := hlowers.valid (List.forall_mem_singleton.mpr (X86.Frame.wrap_valid hformals htemps))
    have hvalid := X86.Frame.withExit_valid hvalid
    rw [hrun', temps_complete, hs₁] at hfits
    rw [hrun, hrun']
    exact complete_twin hs₁ hvalid fun hvalidate => checkDefined_supply hr hincreasing hvalid (hfits hvalidate)

end Twins

/-- Lowering a function begins with its frame and its body. -/
theorem Function.lower_eq [S : Supply] (fn : Function) (validate : Bool) (session : Session) :
    (fn.lower (x86Checking validate)).run.run session =
      (fn.body.build (fn.frame session).1 >>= fun p => lowerBuilt validate p.2 p.1).run.run (fn.frame session).2 :=
  rfl

namespace Program.Declaration

theorem lower_eq [S : Supply] (d : Declaration) (validate : Bool) (session : Session) :
    (d.function.lower (x86Checking validate)).run.run session =
      ((Body.declared d).build (d.frame session).1 >>= fun p => lowerBuilt validate p.2 p.1).run.run
        (d.frame session).2 :=
  d.function.lower_eq validate session

/-- What is built is in the frame of the function, and names registers that were handed out. -/
theorem build_nameable {d : Declaration} {session : Session} {s : Stm} {w : Workspace}
    (h : d.build (d.frame session).1 (d.frame session).2 = (.ok s, w)) :
    w.frame.name = d.name ∧ (∀ t, .inReg t ∈ w.frame.formals → t.Nameable w.session.temps) ∧
      ∀ t ∈ s.temps, t.Nameable w.session.temps := by
  have hstart : Naming.Nameable (d.frame session).2.temps (d.frame session).1.formals ⟨fun _ => none, fun _ => none⟩ :=
    ⟨nofun, nofun, X86.Frame.create_nameable d.name d.escapes _⟩
  have hbuilds : Building.Builds (buildStm d.source d.body)
      { frame := (d.frame session).1, session := (d.frame session).2 } _ := buildStm_builds d.source d.body rfl
  obtain ⟨w', hreach, ⟨s', hrun, hs'⟩ | ⟨e, hrun⟩⟩ := hbuilds rfl
  · cases h.symm.trans hrun
    have hend := hreach.nameable hstart
    have hs := (hs' _ (.refl _)).nameable (hreach.formals ▸ hend)
    exact ⟨hreach.name, hend.formals, hs⟩
  · cases (Prod.mk.inj (h.symm.trans hrun)).1

theorem built_of_build {d : Declaration} {session : Session} {s : Stm} {w : Workspace}
    (h : d.build (d.frame session).1 (d.frame session).2 = (.ok s, w)) :
    w.Sane ∧ StmBuilt d.body.isVoid d.body.hasGap s w.session.temps := by
  obtain ⟨w', hsane, ⟨s', hrun, hbuilt⟩ | ⟨e, hrun⟩⟩ := d.build_outcome session
  · cases h.symm.trans hrun
    exact ⟨hsane, hbuilt⟩
  · cases (Prod.mk.inj (h.symm.trans hrun)).1

/-- A function that is lowered, whatever the options, was built and then wrapped and tiled. -/
theorem lower_ok {d : Declaration} {options : Options} {session session' : Session} {p : X86.Procedure}
    (h : (d.function.lower options).run.run session = (.ok p, session')) :
    ∃ s w code regs n', d.build (d.frame session).1 (d.frame session).2 = (.ok s, w) ∧
      X86.Lowers ((w.frame.wrap s).run w.session).2.temps [.stm ((w.frame.wrap s).run w.session).1] code regs n' ∧
      p = w.frame.procedure (X86.Frame.withExit code) := by
  obtain ⟨target, validate, canceled⟩ := options
  cases canceled with
  | true => cases h
  | false =>
    cases target with
    | none => cases h
    | some target =>
      have hlower : (d.function.lower (x86Checking validate)).run.run session = (.ok p, session') := h
      rw [lower_eq] at hlower
      obtain ⟨w, hsane, ⟨s, hbuild, hbuilt⟩ | ⟨e, hbuild⟩⟩ := d.build_outcome session
      · rw [bind_run_ok (Body.build_run_ok hbuild)] at hlower
        obtain ⟨code, regs, n', hlowers, hp⟩ := lowerBuilt_ok hsane.formals hbuilt hlower
        exact ⟨s, w, code, regs, n', hbuild, hlowers, hp⟩
      · rw [bind_run_error (Body.build_run_error hbuild)] at hlower
        cases hlower

/-- A function is lowered alike by itself and with the registers of an increasing supply. -/
theorem lower_twin {S : Supply} {session : Session} (hincreasing : S.Increasing session.temps) (d : Declaration)
    (validate : Bool)
    (hfits : validate = true → ∀ k, session.temps ≤ k →
      k < ((d.function.lower (S := S) (x86Checking validate)).run.run session).2.temps →
        (S.register k).id < 0x8000000000000000) :
    Function.EndsAlike (S.toRenaming hincreasing) session.temps d.name
      ((d.function.lower (S := .inOrder) (x86Checking validate)).run.run {})
      ((d.function.lower (S := S) (x86Checking validate)).run.run session) := by
  have hr := S.toRenaming_renames hincreasing
  rw [lower_eq (S := S)] at hfits
  rw [lower_eq (S := .inOrder), lower_eq (S := S)]
  have hcounter : ((Session.record (.function d.name d.escapes)).run session).2.temps =
      ((Session.record (.function d.name d.escapes)).run {}).2.temps + session.temps := by
    rw [Session.temps_record, Session.temps_record, Nat.zero_add]
  obtain ⟨hframe, hframeCounter⟩ := X86.Frame.create_rename hr d.name d.escapes hcounter
  have hends : Building.EndsAhead _ _ _ (d.build (S := .inOrder) (d.frame (S := .inOrder) {}).1
        (d.frame (S := .inOrder) {}).2)
      (d.build (S := S) (d.frame (S := S) session).1 (d.frame (S := S) session).2) :=
    buildStm_twin hr d.source d.body _ _ ⟨hframeCounter, hframe, rfl, rfl⟩
  generalize hbuild : d.build (S := .inOrder) (d.frame (S := .inOrder) {}).1 (d.frame (S := .inOrder) {}).2 = built
    at hends
  generalize hbuild' : d.build (S := S) (d.frame (S := S) session).1 (d.frame (S := S) session).2 = built' at hends
  cases hends with
  | ok hahead =>
    rw [bind_run_ok (Body.build_run_ok (S := S) hbuild'), hahead.frame] at hfits
    rw [bind_run_ok (Body.build_run_ok (S := .inOrder) hbuild), bind_run_ok (Body.build_run_ok (S := S) hbuild'),
      hahead.frame]
    obtain ⟨hname, hformals, htemps⟩ := build_nameable hbuild
    obtain ⟨-, hbuilt⟩ := built_of_build hbuild
    rw [← hname]
    exact lowerBuilt_twin hr validate hincreasing hahead.counter hbuilt (fun t ht => (hformals t ht).valid)
      (fun t ht => (htemps t ht).valid) hfits
  | stop halike hcounter =>
    rw [bind_run_error (Body.build_run_error (S := .inOrder) hbuild),
      bind_run_error (Body.build_run_error (S := S) hbuild')]
    refine .stopped ?_
    cases halike with
    | failed e e' => exact .form e e'
    | fault f => exact .fault f

end Program.Declaration

end Lowering
