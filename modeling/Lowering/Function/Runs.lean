import Lowering.Function.Package

/-!
# Runs of a package

The functions of a package may be lowered at the same time. They share the counter of registers, so each of them gets
its registers in increasing order and between them those are missing that the others took. A function that begins after
another one has failed finds its work called off. A fault ends the whole run, however far the functions have come;
otherwise all of them are waited for, and what is reported is the error of the one that failed first.

A run is told by what each function finds and not step by step, so that this holds for all schedules. `Package.lower`,
which lowers functions in turn, is one of the runs.
-/

namespace Lowering

/-- A function in a run. -/
structure Job where
  function : Function
  /-- The registers it gets. -/
  supply : Supply
  /-- The session it begins with. -/
  session : Session
  /-- Did it begin after another one had failed? -/
  late : Bool

namespace Job

/-- What becomes of the function. -/
def run (options : Options) (job : Job) : Except (Stop LowerError) X86.Procedure × Session :=
  (job.function.lower (S := job.supply)
    { options with canceled := options.canceled || job.late }).run.run job.session

/-- The function took the register from the counter. -/
def Takes (options : Options) (job : Job) (t : Temp) : Prop :=
  ∃ k, job.session.temps ≤ k ∧ k < (job.run options).2.temps ∧ t = job.supply.register k

/-- The function failed, and its work had not been called off. -/
def Fails (options : Options) (job : Job) (e : LowerError) : Prop :=
  job.late = false ∧ (job.run options).1 = .error (.failed e)

end Job

/-- The functions can go together, where the counter of registers has come to `start` before. -/
structure Run (options : Options) (start : Nat) (jobs : List Job) : Prop where
  increasing : ∀ job ∈ jobs, job.supply.Increasing job.session.temps
  fresh : ∀ job ∈ jobs, ∀ t, job.Takes options t → start < t.id
  /-- No register is taken twice. -/
  apart : jobs.Pairwise fun job other => ∀ t, job.Takes options t → ¬ other.Takes options t
  late : ∀ job ∈ jobs, job.late = true → ∃ first ∈ jobs, ∃ e, first.Fails options e

/-- How functions end that went this way. -/
inductive Outcome (options : Options) (fns : List Function) (jobs : List Job) :
    Except (Stop PackageError) (List X86.Procedure) → Prop where
  | lowered {ps : List X86.Procedure} (hall : jobs.map (·.function) = fns)
    (hok : jobs.map (fun job => (job.run options).1) = ps.map .ok) : Outcome options fns jobs (.ok ps)
  /-- Any of the functions that failed may have been the first. -/
  | failed {first : Job} {e : LowerError} (hall : jobs.map (·.function) = fns)
    (hcalm : ∀ job ∈ jobs, ∀ f, (job.run options).1 ≠ .error (.fault f)) (hfirst : first ∈ jobs)
    (hfails : first.Fails options e) : Outcome options fns jobs (.error (.failed (.function first.function.name e)))
  /-- There may be functions that had not begun, or had not come to an end. -/
  | fault {job : Job} {f : Fault} (hsome : (jobs.map (·.function)).Sublist fns) (hjob : job ∈ jobs)
    (hfault : (job.run options).1 = .error (.fault f)) : Outcome options fns jobs (.error (.fault f))

namespace Package

/-- There is a run in which lowering the functions of a package ends this way. -/
def MayLower (options : Options) (fns : List Function) (start : Nat)
    (result : Except (Stop PackageError) (List X86.Procedure)) : Prop :=
  match duplicate? [] (fns.map (·.name)) with
  | some name => result = .error (.failed (.duplicate name))
  | none => ∃ jobs, Run options start jobs ∧ Outcome options fns jobs result

/-- There is a run in which compiling the functions of a package ends this way. -/
def MayCompile (options : Options) (fns : List Function) (start : Nat) (result : Except (Stop PackageError) Text) :
    Prop :=
  ∃ lowered, MayLower options fns start lowered ∧
    result = lowered.bind fun ps => (Listing.procedures ps).mapError .fault

end Package

/-- There is a run in which compiling a program text ends this way. -/
def Program.MayCompile (options : Options) (name text : Text) (start : Nat)
    (result : Except (Stop CompileError) Text) : Prop :=
  match parse name text with
  | .error why => result = .error (why.map .program)
  | .ok ds => ∃ compiled, Package.MayCompile options (ds.map (·.function)) start compiled ∧
      result = compiled.mapError (Stop.map .package)

end Lowering
