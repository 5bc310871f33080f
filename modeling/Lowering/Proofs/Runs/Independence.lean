import Lowering.Proofs.Runs.Turns
import Mathlib.Data.List.Forall2

/-!
# Functions are lowered independently

The functions of a package share the counter of registers and nothing else. In every run, a package is lowered exactly
if each of its functions is lowered by itself. The procedures are then those of the functions by themselves, with the
registers that the functions took in the place of the first ones, and no two of them share a virtual register. So the
order in which the functions come to the counter is forgotten as soon as registers are numbered by first mention.
-/

namespace Lowering

/-- No virtual register occurs in the code of both. -/
def X86.Procedure.Apart (p q : X86.Procedure) : Prop :=
  ∀ t, t.isFixed = false → t ∈ Check.mentioned p.body [] → t ∉ Check.mentioned q.body []

namespace Program

/-- The function lowered by itself, with no registers handed out before. -/
def Declaration.alone (options : Options) (d : Declaration) : Except (Stop LowerError) X86.Procedure :=
  ((d.function.lower options).run.run {}).1

/-- The procedure belongs to the function: it is the function lowered by itself, with other registers. -/
def Declaration.Owns (options : Options) (d : Declaration) (p : X86.Procedure) : Prop :=
  p.frame.name = d.name ∧ ∃ q, d.alone options = .ok q ∧ ∃ r : Renaming, p = q.rename r

/-- There is a run in which lowering the functions ends this way; where registers are checked, their numbers fit 64
bits. -/
def Together (validate : Bool) (ds : List Declaration) (start : Nat)
    (result : Except (Stop PackageError) (List X86.Procedure)) : Prop :=
  ∃ jobs, Run (x86Checking validate) start jobs ∧ (validate = true → ∀ job ∈ jobs, job.Fits (x86Checking validate)) ∧
    Outcome (x86Checking validate) (ds.map (·.function)) jobs result

end Program

open Program

/-! ### One function of a run -/

namespace Job

variable {validate : Bool} {d : Declaration} {job : Job} (hincreasing : job.supply.Increasing job.session.temps)
  (hfits : validate = true → job.Fits (x86Checking validate)) (hd : job.function = d.function)

include hincreasing hfits hd

/-- The procedure belongs to the function, and its virtual registers were taken by the function. -/
theorem owns {p : X86.Procedure} (hp : (job.run (x86Checking validate)).1 = .ok p) :
    d.Owns (x86Checking validate) p ∧
      ∀ t ∈ Check.mentioned p.body [], t.isFixed = false → job.Takes (x86Checking validate) t := by
  have hearly := early_of_run hp nofun
  have hends := endsAlike hincreasing hfits hd hearly
  generalize halone : (d.function.lower (x86Checking validate)).run.run {} = alone at hends
  generalize hrun : job.run (x86Checking validate) = ended at hends hp
  cases hends with
  | stopped => cases hp
  | @lowered q s₀ s₁ hname hcounter hvalid =>
    cases hp
    refine ⟨⟨hname, q, congrArg Prod.fst halone, _, rfl⟩, fun t ht hvirtual => ?_⟩
    have hmap : t ∈ (Check.mentioned q.body []).map (job.supply.toRenaming hincreasing) := by
      rw [← Check.mentioned_rename]
      exact ht
    obtain ⟨u, hu, rfl⟩ := List.mem_map.mp hmap
    rw [Renaming.isFixed_apply] at hvirtual
    obtain ⟨k, hk, -, heq⟩ := (hvalid u hu).rename (job.supply.toRenaming_renames hincreasing) hvirtual
    refine ⟨k + job.session.temps, Nat.le_add_left _ _, ?_, heq⟩
    rw [hrun, hcounter]
    exact Nat.add_lt_add_right hk _

theorem alone_stops {why : Stop LowerError} (hearly : job.late = false)
    (hwhy : (job.run (x86Checking validate)).1 = .error why) (q : X86.Procedure) :
    d.alone (x86Checking validate) ≠ .ok q := by
  have hends := endsAlike hincreasing hfits hd hearly
  intro hq
  rw [Declaration.alone] at hq
  generalize (d.function.lower (x86Checking validate)).run.run {} = alone at hends hq
  generalize job.run (x86Checking validate) = ended at hends hwhy
  cases hends with
  | lowered => cases hwhy
  | stopped => cases hq

end Job

/-! ### All functions of a run -/

namespace Program

theorem alone_of_owns {options : Options} {ds : List Declaration} {ps : List X86.Procedure}
    (h : List.Forall₂ (Declaration.Owns options) ds ps) : ∀ d ∈ ds, ∃ q, d.alone options = .ok q := by
  induction h with
  | nil => exact List.forall_mem_nil _
  | cons hown _ ih =>
    obtain ⟨-, q, halone, -⟩ := hown
    exact List.forall_mem_cons.mpr ⟨⟨q, halone⟩, ih⟩

/-- Renumbered, the procedures are those of the functions by themselves. -/
theorem zip_renumbered {options : Options} {ds : List Declaration} {ps : List X86.Procedure}
    (h : List.Forall₂ (Declaration.Owns options) ds ps) :
    ds.zip (ps.map X86.Procedure.renumbered) =
      ds.filterMap fun d => (d.alone options).toOption.map fun q => (d, q.renumbered) := by
  induction h with
  | nil => rfl
  | @cons d p rest ps hown _ ih =>
    obtain ⟨-, q, halone, r, rfl⟩ := hown
    rw [List.map_cons, List.zip_cons_cons, ih, X86.Procedure.renumbered_rename]
    exact (List.filterMap_cons_some (by rw [halone]; rfl)).symm

/-- The procedures of a run belong to the functions, and their virtual registers were taken by the functions. -/
theorem owns_of_lowered {validate : Bool} {ds : List Declaration} {jobs : List Job} {ps : List X86.Procedure}
    (hincreasing : ∀ job ∈ jobs, job.supply.Increasing job.session.temps)
    (hfits : validate = true → ∀ job ∈ jobs, job.Fits (x86Checking validate))
    (hall : jobs.map (·.function) = ds.map (·.function))
    (hok : jobs.map (fun job => (job.run (x86Checking validate)).1) = ps.map .ok) :
    List.Forall₂ (Declaration.Owns (x86Checking validate)) ds ps ∧
      List.Forall₂ (fun job p => ∀ t ∈ Check.mentioned p.body [], t.isFixed = false →
        Job.Takes (x86Checking validate) job t) jobs ps := by
  induction jobs generalizing ds ps with
  | nil =>
    obtain rfl : ds = [] := List.map_eq_nil_iff.mp hall.symm
    obtain rfl : ps = [] := List.map_eq_nil_iff.mp hok.symm
    exact ⟨.nil, .nil⟩
  | cons job rest ih =>
    obtain ⟨d, ds, rfl, hd, hds⟩ := List.map_eq_cons_iff.mp hall.symm
    obtain ⟨p, ps, rfl, hp, hps⟩ := List.map_eq_cons_iff.mp hok.symm
    obtain ⟨hfirst, hincreasing⟩ := List.forall_mem_cons.mp hincreasing
    obtain ⟨hown, htakes⟩ := Job.owns hfirst (fun h => (hfits h) job List.mem_cons_self) hd.symm hp.symm
    obtain ⟨howns, htake⟩ := ih hincreasing (fun h => (List.forall_mem_cons.mp (hfits h)).2) hds.symm hps.symm
    exact ⟨.cons hown howns, .cons htakes htake⟩

theorem apart_of_takes {options : Options} {jobs : List Job} {ps : List X86.Procedure}
    (hapart : jobs.Pairwise fun job other => ∀ t, job.Takes options t → ¬ other.Takes options t)
    (htakes : List.Forall₂ (fun job p => ∀ t ∈ Check.mentioned p.body [], t.isFixed = false →
      Job.Takes options job t) jobs ps) : ps.Pairwise X86.Procedure.Apart := by
  rw [List.pairwise_iff_getElem] at hapart ⊢
  intro i j hi hj hij t hvirtual ht htq
  have hlength := htakes.length_eq
  exact hapart i j (by omega) (by omega) hij t (htakes.get (by omega) hi t ht hvirtual)
    (htakes.get (by omega) hj t htq hvirtual)

/-- If a run ends without procedures, so does one of its functions by itself. -/
theorem exists_alone_stops {validate : Bool} {ds : List Declaration} {start : Nat} {why : Stop PackageError}
    (h : Together validate ds start (.error why)) : ∃ d ∈ ds, ∀ q, d.alone (x86Checking validate) ≠ .ok q := by
  obtain ⟨jobs, hrun, hfits, houtcome⟩ := h
  -- One of the functions that had begun ended without a procedure, and it had not been called off.
  obtain ⟨job, hjob, hearly, why', hwhy⟩ : ∃ job ∈ jobs, job.late = false ∧ ∃ why',
      (job.run (x86Checking validate)).1 = .error why' := by
    cases houtcome with
    | failed _ _ hfirst hfails => exact ⟨_, hfirst, hfails.1, _, hfails.2⟩
    | fault _ hjob hfault => exact ⟨_, hjob, Job.early_of_run hfault nofun, _, hfault⟩
  obtain ⟨d, hd, heq⟩ := Job.exists_declaration houtcome hjob
  exact ⟨d, hd, Job.alone_stops (hrun.increasing job hjob) (fun h => hfits h job hjob) heq hearly hwhy⟩

/-- How the functions of a package end in a run. -/
theorem together_outcome {validate : Bool} {ds : List Declaration} {start : Nat}
    {result : Except (Stop PackageError) (List X86.Procedure)} (h : Together validate ds start result) :
    (∃ ps, result = .ok ps ∧ List.Forall₂ (Declaration.Owns (x86Checking validate)) ds ps ∧
        ps.Pairwise X86.Procedure.Apart) ∨
      (∃ why, result = .error why) ∧ ∃ d ∈ ds, ∀ q, d.alone (x86Checking validate) ≠ .ok q := by
  cases result with
  | error why => exact .inr ⟨⟨why, rfl⟩, exists_alone_stops h⟩
  | ok ps =>
    obtain ⟨jobs, hrun, hfits, houtcome⟩ := h
    cases houtcome with
    | lowered hall hok =>
      obtain ⟨howns, htakes⟩ := owns_of_lowered hrun.increasing hfits hall hok
      exact .inl ⟨ps, rfl, howns, apart_of_takes hrun.apart htakes⟩

/-! ### In turn -/

theorem duplicate?_of_nodup {seen names : List Label} (hnames : names.Nodup) (hseen : ∀ name ∈ names, name ∉ seen) :
    Package.duplicate? seen names = none := by
  induction names generalizing seen with
  | nil => rfl
  | cons name rest ih =>
    obtain ⟨hnotin, hrest⟩ := List.nodup_cons.mp hnames
    obtain ⟨hname, hlater⟩ := List.forall_mem_cons.mp hseen
    rw [Package.duplicate?, if_neg (by simpa using hname)]
    refine ih hrest fun later hmem hlaterSeen => ?_
    obtain rfl | hlaterSeen := List.mem_cons.mp hlaterSeen
    · exact hnotin hmem
    · exact hlater later hmem hlaterSeen

/-- Lowering functions in turn is one of the runs. -/
theorem lower_together {ds : List Declaration} (hnames : (ds.map (·.name)).Nodup) (validate : Bool) (session : Session)
    (hfits : validate = true →
      ((Package.lower (x86Checking validate) (ds.map (·.function))).run.run session).2.temps < 0x8000000000000000) :
    Together validate ds session.temps
      ((Package.lower (x86Checking validate) (ds.map (·.function))).run.run session).1 := by
  have hdistinct : Package.duplicate? [] ((ds.map (·.function)).map (·.name)) = none := by
    rw [List.map_map]
    exact duplicate?_of_nodup hnames fun _ _ => List.not_mem_nil
  rw [Package.lower, hdistinct] at hfits ⊢
  refine ⟨_, Package.inTurn_run _ session, fun h job hjob t ht => ?_, Package.inTurn_outcome _ session⟩
  have hle := ((Package.inTurn_takes _ session).2 job hjob t ht).2
  have hlt := hfits h
  dsimp only at hlt
  omega

/-- Functions are lowered independently of each other. In turn or in any other run, a package succeeds exactly if each
of its functions does by itself; the procedures are the same up to renamings, and share no virtual register; and every
other run, in whatever order and from whatever counter, gives each function the same procedure once registers are
renumbered. -/
theorem functions_lowered_independently (ds : List Declaration) (hnames : (ds.map (·.name)).Nodup) (validate : Bool) :
    (∀ session, (validate = true →
        ((Package.lower (x86Checking validate) (ds.map (·.function))).run.run session).2.temps < 0x8000000000000000) →
      Together validate ds session.temps
        ((Package.lower (x86Checking validate) (ds.map (·.function))).run.run session).1) ∧
    ∀ start result, Together validate ds start result →
      ((∃ ps, result = .ok ps) ↔ ∀ d ∈ ds, ∃ q, d.alone (x86Checking validate) = .ok q) ∧
      ∀ ps, result = .ok ps →
        List.Forall₂ (Declaration.Owns (x86Checking validate)) ds ps ∧ ps.Pairwise X86.Procedure.Apart ∧
        ∀ ds' start' result', ds'.Perm ds → Together validate ds' start' result' → ∃ ps', result' = .ok ps' ∧
          (ds'.zip (ps'.map X86.Procedure.renumbered)).Perm (ds.zip (ps.map X86.Procedure.renumbered)) := by
  refine ⟨lower_together hnames validate, fun start result hresult => ?_⟩
  obtain ⟨ps, rfl, howns, hapart⟩ | ⟨⟨why, rfl⟩, d, hd, hstops⟩ := together_outcome hresult
  · have halone := alone_of_owns howns
    refine ⟨⟨fun _ => halone, fun _ => ⟨ps, rfl⟩⟩, ?_⟩
    rintro _ ⟨⟩
    refine ⟨howns, hapart, fun ds' start' result' hperm hresult' => ?_⟩
    obtain ⟨ps', rfl, howns', -⟩ | ⟨-, d, hd, hstops⟩ := together_outcome hresult'
    · refine ⟨ps', rfl, ?_⟩
      rw [zip_renumbered howns', zip_renumbered howns]
      exact hperm.filterMap _
    · obtain ⟨q, hq⟩ := halone d (hperm.mem_iff.mp hd)
      exact absurd hq (hstops q)
  · refine ⟨⟨nofun, fun halone => ?_⟩, nofun⟩
    obtain ⟨q, hq⟩ := halone d hd
    exact absurd hq (hstops q)

/-- `(func f (false) (move rv (+ (formal 0) (formal 0))))` and
`(func g () (seq (move (temp x) 1) (move rv (temp x))))`. -/
def doubleAndOne : List Declaration := [
  { name := "f"
    escapes := [false]
    source := Source.ofFile "f.ir" "(func f (false) (move rv (+ (formal 0) (formal 0))))"
    body := .list ⟨16, 51⟩ [.atom ⟨17, 21⟩ "move", .atom ⟨22, 24⟩ "rv",
      .list ⟨25, 50⟩ [.atom ⟨26, 27⟩ "+", .list ⟨28, 38⟩ [.atom ⟨29, 35⟩ "formal", .int ⟨36, 37⟩ 0],
        .list ⟨39, 49⟩ [.atom ⟨40, 46⟩ "formal", .int ⟨47, 48⟩ 0]]] },
  { name := "g"
    escapes := []
    source := Source.ofFile "g.ir" "(func g () (seq (move (temp x) 1) (move rv (temp x))))"
    body := .list ⟨11, 53⟩ [.atom ⟨12, 15⟩ "seq",
      .list ⟨16, 33⟩ [.atom ⟨17, 21⟩ "move", .list ⟨22, 30⟩ [.atom ⟨23, 27⟩ "temp", .atom ⟨28, 29⟩ "x"],
        .int ⟨31, 32⟩ 1],
      .list ⟨34, 52⟩ [.atom ⟨35, 39⟩ "move", .atom ⟨40, 42⟩ "rv",
        .list ⟨43, 51⟩ [.atom ⟨44, 48⟩ "temp", .atom ⟨49, 50⟩ "x"]]] }]

/-- Two functions come to the counter by turns: one takes the odd registers and the other the even ones. -/
@[reducible] def everySecond (i : Nat) : Supply := ⟨fun k => ⟨2 * k + i + 1⟩⟩

theorem everySecond_increasing (i n : Nat) : (everySecond i).Increasing n where
  positive := by
    change 0 < 2 * (n : Int) + i + 1
    omega
  increases k _ := by
    change 2 * (k : Int) + i + 1 < 2 * (k + 1 : Nat) + i + 1
    omega

def byTurns : List Job := doubleAndOne.zipIdx.map fun (d, i) => ⟨d.function, everySecond i, {}, false⟩

theorem byTurns_run : Run (x86Checking true) 0 byTurns where
  increasing := List.forall_mem_map.mpr fun (_, i) _ => everySecond_increasing i _
  fresh := by
    refine List.forall_mem_map.mpr fun (_, i) _ => ?_
    rintro _ ⟨k, -, -, rfl⟩
    change 0 < 2 * (k : Int) + i + 1
    omega
  apart := by
    refine .cons (List.forall_mem_singleton.mpr ?_) (List.pairwise_singleton _ _)
    rintro _ ⟨j, -, -, rfl⟩ ⟨k, -, -, heq⟩
    have hid : (2 * j + (0 : Nat) + 1 : Int) = 2 * k + (1 : Nat) + 1 := congrArg Temp.id heq
    omega
  late := List.forall_mem_map.mpr fun _ _ => nofun

theorem byTurns_fits : ∀ job ∈ byTurns, job.Fits (x86Checking true) := by
  have hsmall : ∀ job ∈ byTurns, (job.run (x86Checking true)).2.temps < 1000 := by decide +kernel
  intro job hjob
  rintro _ ⟨k, -, hk, rfl⟩
  have hlt := hsmall job hjob
  obtain ⟨⟨d, i⟩, hi, rfl⟩ := List.mem_map.mp hjob
  have hlength := List.snd_lt_of_mem_zipIdx hi
  change 2 * (k : Int) + i + 1 < _
  change i < 2 at hlength
  omega

theorem exists_ok {ε α : Type} {results : List (Except ε α)} (h : ∀ r ∈ results, r.isOk = true) :
    ∃ as : List α, results = as.map .ok := by
  induction results with
  | nil => exact ⟨[], rfl⟩
  | cons r rest ih =>
    obtain ⟨hr, hrest⟩ := List.forall_mem_cons.mp h
    obtain ⟨as, rfl⟩ := ih hrest
    cases r with
    | error => cases hr
    | ok a => exact ⟨a :: as, rfl⟩

/-- The functions come to the counter by turns, or one after the other and the second one first; each of them has the
same procedure in the end. -/
theorem doubleAndOne_lowered_independently :
    (doubleAndOne.map (·.name)).Nodup ∧ ∃ ps ps',
      Outcome (x86Checking true) (doubleAndOne.map (·.function)) byTurns (.ok ps) ∧
      ((Package.lower (x86Checking true) (doubleAndOne.reverse.map (·.function))).run.run { temps := 5 }).1 = .ok ps' ∧
      ps.Pairwise X86.Procedure.Apart ∧
      (doubleAndOne.reverse.zip (ps'.map X86.Procedure.renumbered)).Perm
        (doubleAndOne.zip (ps.map X86.Procedure.renumbered)) := by
  have hnames : (doubleAndOne.map (·.name)).Nodup := by decide
  obtain ⟨ps, hps⟩ : ∃ ps : List X86.Procedure, byTurns.map (fun job => (job.run (x86Checking true)).1) =
      ps.map .ok := exists_ok (by decide +kernel)
  have houtcome : Outcome (x86Checking true) (doubleAndOne.map (·.function)) byTurns (.ok ps) := .lowered rfl hps
  have htogether : Together true doubleAndOne 0 (.ok ps) := ⟨byTurns, byTurns_run, fun _ => byTurns_fits, houtcome⟩
  obtain ⟨-, hapart, hruns⟩ := ((functions_lowered_independently doubleAndOne hnames true).2 0 _ htogether).2 ps rfl
  have hreversed := (functions_lowered_independently doubleAndOne.reverse (by decide) true).1 { temps := 5 }
    fun _ => by decide +kernel
  obtain ⟨ps', hps', hperm⟩ := hruns _ _ _ (List.reverse_perm _) hreversed
  exact ⟨hnames, ps, ps', houtcome, hps', hapart, hperm⟩

end Program

end Lowering
