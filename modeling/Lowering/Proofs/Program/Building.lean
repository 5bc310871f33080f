import Lowering.Program.Build
import Lowering.Proofs.Selecting

/-!
# Steps of building

What the builder does is stated as contracts of its steps. A step starts in a workspace that is sane: its frame takes
locals, and all registers in use were handed out. It leaves a sane workspace, whether it succeeds or fails, it never
meets a fault, and what it yields meets a condition in which the number of registers handed out may occur. That
number only grows, so conditions that bound registers by it survive later steps.
-/

namespace Lowering

/-- Was the register that a variable lives in, if it lives in one, among the first `n` handed out? -/
def Access.Issued (n : Nat) : Access → Prop
  | .inFrame _ => True
  | .inReg t => t.id ≤ n

theorem Access.Issued.mono {n n' : Nat} {a : Access} (h : Access.Issued n a) (hn : n ≤ n') : Access.Issued n' a := by
  cases a with
  | inFrame offset => trivial
  | inReg t => exact Int.le_trans h (Int.ofNat_le.mpr hn)

theorem Session.temps_record (e : Event) (s : Session) : ((Session.record e).run s).2.temps = s.temps := by
  change (if s.journaling then _ else s : Session).temps = _
  split <;> rfl

namespace Program

/-- A workspace whose frame takes locals and whose registers were all handed out. -/
structure Workspace.Sane (w : Workspace) : Prop where
  unsealed : w.frame.sealed = false
  temps : ∀ name t, (name, t) ∈ w.temps → t.id ≤ w.session.temps
  locals : ∀ name a, (name, a) ∈ w.locals → Access.Issued w.session.temps a
  formals : ∀ a ∈ w.frame.formals, Access.Issued w.session.temps a

namespace Building

variable {α β : Type}

/-- From a sane workspace the step succeeds with a value for which `P` holds, or fails with an error of its own; it
leaves a sane workspace with no fewer registers handed out. -/
def Ensures (x : Building α) (w : Workspace) (P : α → Nat → Prop) : Prop :=
  w.Sane → ∃ w', w'.Sane ∧ w.session.temps ≤ w'.session.temps ∧
    ((∃ a, x.run.run w = (.ok a, w') ∧ P a w'.session.temps) ∨ ∃ e, x.run.run w = (.error (.failed e), w'))

theorem within_run (step : Step) (x : Building α) (w : Workspace) :
    (Building.within step x).run.run w =
      match x.run.run w with
      | (.ok a, w') => (.ok a, w')
      | (.error why, w') => (.error (why.map (·.within step)), w') := by
  change (ExceptT.tryCatch x _).run.run w = _
  rw [ExceptT.tryCatch, ExceptT.run_mk, StateT.run_bind, ExceptT.run]
  obtain ⟨r, w'⟩ := StateT.run x w
  cases r <;> rfl

namespace Ensures

variable {x : Building α} {f : α → Building β} {w : Workspace} {P : α → Nat → Prop} {Q : β → Nat → Prop}

theorem pure {a : α} (ha : P a w.session.temps) : Ensures (Pure.pure a) w P :=
  fun hw => ⟨w, hw, Nat.le_refl _, .inl ⟨a, rfl, ha⟩⟩

theorem bind (hx : Ensures x w P)
    (hf : ∀ a w₁, w.session.temps ≤ w₁.session.temps → P a w₁.session.temps → Ensures (f a) w₁ Q) :
    Ensures (x >>= f) w Q := by
  intro hw
  obtain ⟨w₁, hw₁, hle, ⟨a, hrun, ha⟩ | ⟨e, hrun⟩⟩ := hx hw
  · obtain ⟨w₂, hw₂, hle', hend⟩ := hf a w₁ hle ha hw₁
    rw [← bind_run_ok hrun] at hend
    exact ⟨w₂, hw₂, Nat.le_trans hle hle', hend⟩
  · exact ⟨w₁, hw₁, hle, .inr ⟨e, bind_run_error hrun⟩⟩

theorem fail (src : Source) (x : SExpr) (problem : Problem) : Ensures (Building.fail src x problem) w P :=
  fun hw => ⟨w, hw, Nat.le_refl _, .inr ⟨_, rfl⟩⟩

theorem wrongArity (src : Source) (span : Span) (items : List SExpr) (takes : Nat) :
    Ensures (Program.wrongArity src span items takes) w P :=
  fail src _ _

theorem ofExcept {r : Except FormError α} (hr : ∀ a, r = .ok a → P a w.session.temps) :
    Ensures (Building.ofExcept r) w P := by
  intro hw
  cases r with
  | ok a => exact ⟨w, hw, Nat.le_refl _, .inl ⟨a, rfl, hr a rfl⟩⟩
  | error e => exact ⟨w, hw, Nat.le_refl _, .inr ⟨e, rfl⟩⟩

/-- A step around a part only shows in the errors of the part. -/
theorem within (step : Step) (hx : Ensures x w P) : Ensures (Building.within step x) w P := by
  intro hw
  obtain ⟨w₁, hw₁, hle, ⟨a, hrun, ha⟩ | ⟨e, hrun⟩⟩ := hx hw
  · exact ⟨w₁, hw₁, hle, .inl ⟨a, by rw [within_run, hrun], ha⟩⟩
  · exact ⟨w₁, hw₁, hle, .inr ⟨e.within step, by rw [within_run, hrun]; rfl⟩⟩

/-- What is read of the workspace may be used as that of a sane one. -/
theorem get_bind {f : Workspace → Building β} (hf : w.Sane → Ensures (f w) w Q) : Ensures (get >>= f) w Q := by
  intro hw
  obtain ⟨w', hw', hle, hend⟩ := hf hw hw
  exact ⟨w', hw', hle, hend⟩

end Ensures

end Building

theorem mem_of_lookup {α : Type} {name : Text} {a : α} {l : List (Text × α)} (h : l.lookup name = some a) :
    (name, a) ∈ l := by
  obtain ⟨before, after, rfl, -⟩ := List.lookup_eq_some_iff.mp h
  exact List.mem_append_right before (List.mem_cons_self ..)

/-- A sane workspace stays one when registers are handed out and a name is given to one of them. -/
theorem Workspace.Sane.addTemp {w : Workspace} (hw : w.Sane) (name : Text) :
    Workspace.Sane { w with
      session := (Session.freshTemp.run w.session).2
      temps := (name, (Session.freshTemp.run w.session).1) :: w.temps } where
  unsealed := hw.unsealed
  temps n t ht := by
    obtain heq | ht := List.mem_cons.mp ht
    · cases heq
      exact Int.le_refl _
    · exact Int.le_trans (hw.temps n t ht) (Int.ofNat_le.mpr (Nat.le_succ _))
  locals n a ha := (hw.locals n a ha).mono (Nat.le_succ _)
  formals a ha := (hw.formals a ha).mono (Nat.le_succ _)

namespace Building

/-- A name stands for a register that was handed out. -/
theorem namedTemp_ensures (name : Text) (w : Workspace) : Ensures (namedTemp name) w fun t n => t.id ≤ n := by
  apply Ensures.get_bind
  intro hw
  cases hlookup : w.temps.lookup name with
  | some t => exact .pure (hw.temps name t (mem_of_lookup hlookup))
  | none => exact fun _ => ⟨_, hw.addTemp name, Nat.le_succ _, .inl ⟨_, rfl, Int.le_refl _⟩⟩

/-- A frame that is not sealed takes one more local. -/
theorem addLocal_run {frame : X86.Frame} (hframe : frame.sealed = false) (escapes : Bool) (session : Session) :
    ∃ a frame' session', (frame.addLocal escapes).run session = (.ok (a, frame'), session') ∧
      Access.Issued session'.temps a ∧ session.temps ≤ session'.temps ∧
      frame'.sealed = false ∧ frame'.formals = frame.formals := by
  obtain ⟨name, formals, locals, sealed⟩ := frame
  obtain rfl : sealed = false := hframe
  cases escapes with
  | true => exact ⟨_, _, _, rfl, trivial, Nat.le_of_eq (Session.temps_record _ session).symm, rfl, rfl⟩
  | false =>
    have htemps := Session.temps_record (.newLocal name false (.inReg ⟨session.temps + 1⟩))
      { session with temps := session.temps + 1 }
    refine ⟨.inReg ⟨session.temps + 1⟩, _, _, rfl, ?_, ?_, rfl, rfl⟩
    · exact Int.le_of_eq (congrArg Int.ofNat htemps.symm)
    · exact Nat.le_trans (Nat.le_succ _) (Nat.le_of_eq htemps.symm)

/-- The storage of a local was handed out. -/
theorem namedLocal_ensures (name : Text) (escapes : Bool) (w : Workspace) :
    Ensures (namedLocal name escapes) w fun a n => Access.Issued n a := by
  apply Ensures.get_bind
  intro hw
  cases hlookup : w.locals.lookup name with
  | some a => exact .pure (hw.locals name a (mem_of_lookup hlookup))
  | none =>
    obtain ⟨a, frame, session, hadd, ha, hle, hsealed, hformals⟩ := addLocal_run hw.unsealed escapes w.session
    refine fun _ => ⟨{ w with session, frame, locals := (name, a) :: w.locals }, ?_, hle, .inl ⟨a, ?_, ha⟩⟩
    · exact
        { unsealed := hsealed
          temps := fun n t ht => Int.le_trans (hw.temps n t ht) (Int.ofNat_le.mpr hle)
          locals := fun n b hb => by
            obtain heq | hb := List.mem_cons.mp hb
            · cases heq
              exact ha
            · exact (hw.locals n b hb).mono hle
          formals := fun b hb => (hw.formals b (hformals ▸ hb)).mono hle }
    · dsimp only
      rw [hadd]
      rfl

end Building

end Program

end Lowering
