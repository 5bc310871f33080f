import Lowering.Proofs.Depth
import Lowering.Proofs.Runs.Jobs

/-!
# In turn

Lowering the functions of a package in turn is one of the runs of the package, and so is compiling a program in turn.
The counter of registers is never set back, whatever a function comes to, so the registers of each function lie above
those of the functions before it; and nothing is taken once a function has failed.
-/

namespace Lowering

/-! ### Growing counters -/

namespace Selecting

/-- The counter of registers is not set back. -/
def Grows {α : Type} (x : Selecting α) : Prop := ∀ log, log.session.temps ≤ (x.run.run log).2.session.temps

namespace Grows

variable {α β : Type} {x : Selecting α} {f : α → Selecting β}

theorem pure (a : α) : Grows (Pure.pure a) := fun _ => Nat.le_refl _

theorem stop (why : Stop Refusal) : Grows (throw why : Selecting α) := fun _ => Nat.le_refl _

theorem bind (hx : Grows x) (hf : ∀ a, Grows (f a)) : Grows (x >>= f) := by
  intro log
  have hfirst := hx log
  cases hrun : x.run.run log with
  | mk r log' =>
    rw [hrun] at hfirst
    cases r with
    | error why =>
      rw [bind_run_error hrun]
      exact hfirst
    | ok a =>
      rw [bind_run_ok hrun]
      exact Nat.le_trans hfirst (hf a log')

theorem record (e : Event) : Grows (session (Session.record e)) :=
  fun log => Nat.le_of_eq (Session.temps_record e log.session).symm

theorem whenJournaling {step : Selecting Unit} (hstep : Grows step) : Grows (whenJournaling step) := by
  intro log
  change _ ≤ ((if log.session.journaling then step else Pure.pure ()).run.run log).2.session.temps
  split
  · exact hstep log
  · exact Nat.le_refl _

theorem noteStm (rule : Text) (s : Stm) : Grows (noteStm rule s) := by
  cases s with
  | hole => exact .whenJournaling (.stop _)
  | _ => exact .whenJournaling (.record _)

theorem noteExp (rule : Text) (e : Exp) (reg : Temp) : Grows (noteExp rule e reg) := by
  cases e with
  | hole => exact .whenJournaling (.stop _)
  | _ => exact .whenJournaling (.record _)

theorem run {stm : Stm → Selecting Unit} {exp : Exp → Selecting Temp} (hstm : ∀ s, Grows (stm s))
    (hexp : ∀ e, Grows (exp e)) (x : Action α) : Grows (x.run (handler stm exp)) := by
  induction x with
  | done a => exact .pure a
  | stm s next ih => exact (hstm s).bind fun _ => ih
  | exp e next ih => exact (hexp e).bind ih
  | fresh next ih => exact bind (fun _ => Nat.le_succ _) ih
  | emit code next ih => exact bind (fun _ => Nat.le_refl _) fun _ => ih
  | refuse why => exact .stop _
  | fault f => exact .stop _

/-- An attempt gives back code, but no registers. -/
theorem attempt (hx : Grows x) (unset : α) : Grows (attempt unset x) := by
  intro log
  have hle := hx log
  change _ ≤ (Selecting.attempt unset x log).2.session.temps
  change _ ≤ (x log).2.session.temps at hle
  rw [Selecting.attempt]
  split
  · next h =>
    rw [h] at hle
    exact hle
  · exact hle

end Grows

end Selecting

open Selecting in
theorem RuleBook.lower_grows (book : RuleBook) (n : Nat) :
    (∀ s, s.size ≤ n → Grows (book.lowerStm s)) ∧ ∀ e, e.size ≤ n → Grows (book.lowerExp e) := by
  induction n with
  | zero => exact ⟨fun s hs => absurd hs (Nat.not_le.mpr s.size_pos), fun e he => absurd he (Nat.not_le.mpr e.size_pos)⟩
  | succ n ih =>
    have hrun {α : Type} (x : Action α) {m : Nat} (hm : m ≤ n + 1) :
        Grows (x.run (handler (fun s' => if _h : s'.size < m then book.lowerStm s' else throw (.fault .endless))
          (fun e' => if _h : e'.size < m then book.lowerExp e' else throw (.fault .endless)))) := by
      refine .run (fun s' => ?_) (fun e' => ?_) x
      · split
        · exact ih.1 s' (by omega)
        · exact .stop _
      · split
        · exact ih.2 e' (by omega)
        · exact .stop _
    constructor
    · intro s hs
      rw [lowerStm]
      cases book.selectStm s with
      | error why => exact .stop _
      | ok chosen => exact (Grows.noteStm _ _).bind fun _ => hrun _ hs
    · intro e he
      rw [lowerExp]
      cases book.selectExp e with
      | error why => exact .stop _
      | ok chosen => exact (hrun _ he).bind fun t => (Grows.noteExp _ _ _).bind fun _ => .pure t

theorem temps_tile (s : Stm) (session : Session) : session.temps ≤ ((tile s).run.run session).2.temps := by
  have hgrows := (((X86.rules.lower_grows s.size).1 s (Nat.le_refl _)).attempt ()) { session }
  cases hrun : (X86.rules.tileStm s).run.run { session } with
  | mk r log =>
    change _ ≤ ((X86.rules.tileStm s).run.run { session }).2.session.temps at hgrows
    rw [hrun] at hgrows
    cases r with
    | ok => exact tile_run_ok hrun ▸ hgrows
    | error why => exact tile_run_error hrun ▸ hgrows

theorem temps_lowerBuilt (validate : Bool) (frame : X86.Frame) (body : Stm) (session : Session) :
    session.temps ≤ ((lowerBuilt validate frame body).run.run session).2.temps := by
  have hwrap : session.temps ≤ ((frame.wrap body).run session).2.temps :=
    (X86.Frame.saveRegisters_run X86.calleeSaved session).1
  have hrecord := Session.temps_record (.wholeTree ((frame.wrap body).run session).1) ((frame.wrap body).run session).2
  have htile := temps_tile ((frame.wrap body).run session).1
    ((Session.record (.wholeTree ((frame.wrap body).run session).1)).run ((frame.wrap body).run session).2).2
  cases hrun : (tile ((frame.wrap body).run session).1).run.run
      ((Session.record (.wholeTree ((frame.wrap body).run session).1)).run ((frame.wrap body).run session).2).2 with
  | mk r session₁ =>
    rw [hrun, hrecord] at htile
    cases r with
    | error why =>
      rw [lowerBuilt_run_error hrun]
      exact Nat.le_trans hwrap htile
    | ok code =>
      rw [lowerBuilt_run hrun, temps_complete]
      exact Nat.le_trans hwrap htile

namespace Function

theorem temps_frame (fn : Function) (session : Session) : session.temps ≤ (fn.frame session).2.temps := by
  obtain ⟨session₁, hrun, htemps⟩ := X86.Frame.create_run fn.name fn.escapes
    ((Session.record (.function fn.name fn.escapes)).run session).2
  have hplace := (X86.placeFormals_run X86.firstFormalOffset fn.escapes
    ((Session.record (.function fn.name fn.escapes)).run session).2).1
  rw [frame, hrun, htemps]
  exact Session.temps_record (.function fn.name fn.escapes) session ▸ hplace

theorem temps_build (fn : Function) (session : Session) :
    (fn.frame session).2.temps ≤ ((fn.body.build (fn.frame session).1).run.run (fn.frame session).2).2.temps := by
  cases fn.body with
  | tree s => exact Nat.le_refl _
  | refused message => exact Nat.le_refl _
  | declared d =>
    obtain ⟨w, -, hle, ⟨s, hbuild, -⟩ | ⟨e, hbuild⟩⟩ :=
      Program.buildStm_ensures d.source d.body _ (X86.Frame.create_sane fn.name fn.escapes _)
    · exact Body.build_run_ok hbuild ▸ hle
    · exact Body.build_run_error hbuild ▸ hle

/-- Lowering a function never sets the counter back, whatever comes of it. -/
theorem temps_lower (fn : Function) (options : Options) (session : Session) :
    session.temps ≤ ((fn.lower options).run.run session).2.temps := by
  obtain ⟨target, validate, canceled⟩ := options
  have hrecord := Session.temps_record (.function fn.name fn.escapes) session
  cases canceled with
  | true => exact Nat.le_of_eq hrecord.symm
  | false =>
    cases target with
    | none => exact Nat.le_of_eq hrecord.symm
    | some target =>
      have hle := Nat.le_trans (fn.temps_frame session) (fn.temps_build session)
      change _ ≤ ((fn.lower (x86Checking validate)).run.run session).2.temps
      rw [lower_eq]
      cases hrun : (fn.body.build (fn.frame session).1).run.run (fn.frame session).2 with
      | mk r session₁ =>
        rw [hrun] at hle
        cases r with
        | error why =>
          rw [bind_run_error hrun]
          exact hle
        | ok built =>
          rw [bind_run_ok hrun]
          exact Nat.le_trans hle (temps_lowerBuilt validate built.2 built.1 session₁)

end Function

/-! ### Jobs in turn -/

namespace Package

/-- The jobs of functions that are lowered in turn. After one that fails, the others are called off. -/
def inTurn (options : Options) : List Function → Session → List Job
  | [], _ => []
  | fn :: rest, session =>
    { function := fn, supply := .inOrder, session, late := false } ::
      match (fn.lower options).run.run session with
      | (.ok _, session') => inTurn options rest session'
      | (.error (.failed _), session') =>
        rest.map fun fn => { function := fn, supply := .inOrder, session := session', late := true }
      | (.error (.fault _), _) => []

variable {options : Options}

theorem lowerAll_cons (fn : Function) (rest : List Function) (session : Session) :
    (lowerAll options (fn :: rest)).run.run session =
      match (fn.lower options).run.run session with
      | (.ok p, session') =>
        (((lowerAll options rest).run.run session').1.map (p :: ·), ((lowerAll options rest).run.run session').2)
      | (.error why, session') => (.error (why.map (.function fn.name)), session') := by
  have hfirst := mapError_run (PackageError.function fn.name) (fn.lower options) session
  rw [lowerAll]
  cases hrun : (fn.lower options).run.run session with
  | mk r session₁ =>
    rw [hrun] at hfirst
    cases r with
    | error why => exact bind_run_error hfirst
    | ok p =>
      rw [bind_run_ok hfirst]
      dsimp only
      cases hrest : (lowerAll options rest).run.run session₁ with
      | mk r session₂ =>
        cases r with
        | error why => exact bind_run_error hrest
        | ok ps => exact bind_run_ok hrest

theorem takes_first {fn : Function} {session : Session} {t : Temp}
    (ht : Job.Takes options ⟨fn, .inOrder, session, false⟩ t) :
    session.temps < t.id ∧ t.id ≤ ((fn.lower options).run.run session).2.temps := by
  obtain ⟨k, hstart, hend, rfl⟩ := ht
  rw [Job.run_of_early rfl] at hend
  change (session.temps : Int) < (k : Int) + 1 ∧ (k : Int) + 1 ≤ _
  dsimp only at hstart hend
  omega

/-- The registers of functions lowered in turn lie between the counters before and after. -/
theorem inTurn_takes (fns : List Function) (session : Session) :
    session.temps ≤ ((lowerAll options fns).run.run session).2.temps ∧
      ∀ job ∈ inTurn options fns session, ∀ t, job.Takes options t →
        session.temps < t.id ∧ t.id ≤ ((lowerAll options fns).run.run session).2.temps := by
  induction fns generalizing session with
  | nil => exact ⟨Nat.le_refl _, List.forall_mem_nil _⟩
  | cons fn rest ih =>
    have hle := fn.temps_lower options session
    have hfirst (t : Temp) (ht : Job.Takes options ⟨fn, .inOrder, session, false⟩ t) := takes_first ht
    rw [lowerAll_cons, inTurn, List.forall_mem_cons]
    cases hrun : (fn.lower options).run.run session with
    | mk r session₁ =>
      rw [hrun] at hle hfirst
      cases r with
      | ok p =>
        obtain ⟨hgrows, hrest⟩ := ih session₁
        dsimp only at hle hfirst ⊢
        refine ⟨Nat.le_trans hle hgrows, fun t ht => ?_, fun job hjob t ht => ?_⟩
        · have := hfirst t ht
          omega
        · have := hrest job hjob t ht
          omega
      | error why =>
        refine ⟨hle, hfirst, ?_⟩
        cases why with
        | failed e =>
          intro job hjob t ht
          obtain ⟨fn', -, rfl⟩ := List.mem_map.mp hjob
          exact absurd ht (Job.not_takes_of_late rfl t)
        | fault f => exact List.forall_mem_nil _

theorem inTurn_run (fns : List Function) (session : Session) :
    Run options session.temps (inTurn options fns session) := by
  induction fns generalizing session with
  | nil => exact ⟨List.forall_mem_nil _, List.forall_mem_nil _, .nil, List.forall_mem_nil _⟩
  | cons fn rest ih =>
    have hfresh (job : Job) (hjob : job ∈ inTurn options (fn :: rest) session) (t : Temp)
        (ht : job.Takes options t) := ((inTurn_takes (fn :: rest) session).2 job hjob t ht).1
    have hfirst (t : Temp) (ht : Job.Takes options ⟨fn, .inOrder, session, false⟩ t) := takes_first ht
    rw [inTurn] at hfresh ⊢
    cases hrun : (fn.lower options).run.run session with
    | mk r session₁ =>
      rw [hrun] at hfresh hfirst
      cases r with
      | ok p =>
        obtain ⟨hincreasing, -, hapart, hlate⟩ := ih session₁
        refine ⟨List.forall_mem_cons.mpr ⟨Supply.inOrder_increasing _, hincreasing⟩, hfresh,
          List.pairwise_cons.mpr ⟨?_, hapart⟩, List.forall_mem_cons.mpr ⟨nofun, ?_⟩⟩
        -- What the first function took lies below the counter that the others begin with.
        · intro job hjob t ht ht'
          have hbelow := (hfirst t ht).2
          have habove := ((inTurn_takes rest session₁).2 job hjob t ht').1
          dsimp only at hbelow
          omega
        · intro job hjob h
          obtain ⟨first, hmem, hfails⟩ := hlate job hjob h
          exact ⟨first, List.mem_cons_of_mem _ hmem, hfails⟩
      | error why =>
        cases why with
        | failed e =>
          have hfails : Job.Fails options ⟨fn, .inOrder, session, false⟩ e :=
            ⟨rfl, (congrArg Prod.fst (Job.run_of_early rfl)).trans (congrArg Prod.fst hrun)⟩
          -- The others are called off, so they take nothing.
          refine ⟨List.forall_mem_cons.mpr ⟨Supply.inOrder_increasing _, ?_⟩, hfresh, List.pairwise_cons.mpr ⟨?_, ?_⟩,
            fun _ _ _ => ⟨_, List.mem_cons_self, e, hfails⟩⟩
          · exact List.forall_mem_map.mpr fun _ _ => Supply.inOrder_increasing _
          · exact List.forall_mem_map.mpr fun _ _ t _ => Job.not_takes_of_late rfl t
          · exact List.pairwise_map.mpr (List.pairwise_of_forall fun _ _ t _ => Job.not_takes_of_late rfl t)
        | fault f =>
          exact ⟨List.forall_mem_singleton.mpr (Supply.inOrder_increasing _), hfresh, List.pairwise_singleton _ _,
            List.forall_mem_singleton.mpr nofun⟩

theorem inTurn_outcome (fns : List Function) (session : Session) :
    Outcome options fns (inTurn options fns session) ((lowerAll options fns).run.run session).1 := by
  induction fns generalizing session with
  | nil => exact .lowered rfl rfl
  | cons fn rest ih =>
    have hfirst : Job.run options ⟨fn, .inOrder, session, false⟩ = (fn.lower options).run.run session :=
      Job.run_of_early rfl
    rw [lowerAll_cons, inTurn]
    cases hrun : (fn.lower options).run.run session with
    | mk r session₁ =>
      rw [hrun] at hfirst
      cases r with
      | ok p =>
        have hresult := ih session₁
        dsimp only
        generalize ((lowerAll options rest).run.run session₁).1 = result at hresult
        cases hresult with
        | lowered hall hok =>
          refine .lowered ?_ ?_
          · rw [List.map_cons, hall]
          · rw [List.map_cons, hok, hfirst, List.map_cons]
        | failed hall hcalm hmem hfails =>
          refine .failed ?_ (List.forall_mem_cons.mpr ⟨?_, hcalm⟩) (List.mem_cons_of_mem _ hmem) hfails
          · rw [List.map_cons, hall]
          · rw [hfirst]
            exact nofun
        | fault hsome hjob hfault => exact .fault (hsome.cons_cons _) (List.mem_cons_of_mem _ hjob) hfault
      | error why =>
        cases why with
        | failed e =>
          have hfails : Job.Fails options ⟨fn, .inOrder, session, false⟩ e := ⟨rfl, congrArg Prod.fst hfirst⟩
          refine .failed ?_ (List.forall_mem_cons.mpr ⟨?_, ?_⟩) List.mem_cons_self hfails
          · rw [List.map_cons, List.map_map]
            exact congrArg (fn :: ·) (List.map_id rest)
          · rw [hfirst]
            exact nofun
          · intro job hjob f hfault
            obtain ⟨fn', -, rfl⟩ := List.mem_map.mp hjob
            rw [(Job.run_of_late rfl).1] at hfault
            cases hfault
        | fault f =>
          exact .fault (List.Sublist.cons_cons _ (List.nil_sublist rest)) List.mem_cons_self (congrArg Prod.fst hfirst)

/-- Lowering a package in turn is one of its runs. -/
theorem lower_mayLower (options : Options) (fns : List Function) (session : Session) :
    MayLower options fns session.temps ((lower options fns).run.run session).1 := by
  rw [MayLower, lower]
  cases duplicate? [] (fns.map (·.name)) with
  | some name => rfl
  | none => exact ⟨_, inTurn_run fns session, inTurn_outcome fns session⟩

theorem compile_mayCompile (options : Options) (fns : List Function) (session : Session) :
    MayCompile options fns session.temps ((compile options fns).run.run session).1 := by
  have hlower := lower_mayLower options fns ((Session.record (.package fns.length)).run session).2
  rw [Session.temps_record] at hlower
  refine ⟨_, hlower, ?_⟩
  rw [compile, bind_run_ok (record_run _ session)]
  cases hrun : (lower options fns).run.run ((Session.record (.package fns.length)).run session).2 with
  | mk r session₁ =>
    cases r with
    | error why => exact congrArg Prod.fst (bind_run_error hrun)
    | ok ps =>
      rw [bind_run_ok hrun]
      change _ = (Listing.procedures ps).mapError Stop.fault
      cases Listing.procedures ps <;> rfl

end Package

/-- Compiling a program in turn is one of its runs. -/
theorem Program.compile_mayCompile (options : Options) (name text : Text) (session : Session) :
    MayCompile options name text session.temps ((compile options name text).run.run session).1 := by
  rw [MayCompile, compile]
  cases parse name text with
  | error why => rfl
  | ok ds => exact ⟨_, Package.compile_mayCompile options (ds.map (·.function)) session, rfl⟩

end Lowering
