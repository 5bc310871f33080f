import Lowering.Proofs.Runs.Turns

/-!
# How compiling ends

A program text is refused when it is read, or its functions go their ways in a run. A function whose body cannot be
built fails, one whose body has a gap meets a fault, and any other is lowered to code that prints. So every run ends
with a listing, with the error of a body that cannot be built or with the fault of a missing statement; there is a run
with this fault exactly if there is a gap in a body that can be built.
-/

namespace Lowering

/-! ### One function -/

theorem Instr.text_rename (names : Temp → Text) (r : Temp → Temp) (x : Instr) :
    (x.rename r).text names = x.text (names ∘ r) := by
  cases x with
  | oper asm dst src jumps syms => simp [rename, text, operands, Instr.asm, targets, symbols]
  | move asm dst src => rfl
  | label asm name => rfl

theorem Instr.Prints.rename {x : Instr} (h : x.Prints) (r : Temp → Temp) : (x.rename r).Prints :=
  fun names => x.text_rename names r ▸ h (names ∘ r)

namespace Program

/-- The body can be built, in the frame of its function. -/
def Declaration.Builds (d : Declaration) : Prop := ∃ s, d.tree {} = .ok s

/-- How a function ends that is not called off. -/
inductive Declaration.Ends (d : Declaration) : Except (Stop LowerError) X86.Procedure → Prop where
  | lowered {p : X86.Procedure} (hbuilds : d.Builds) (hgap : d.body.hasGap = false) (hprints : ∀ x ∈ p.body, x.Prints) :
    Ends d (.ok p)
  | fault (hbuilds : d.Builds) (hgap : d.body.hasGap = true) : Ends d (.error (.fault .holeRead))
  | failed (hbuilds : ¬ d.Builds) (e : FormError) : Ends d (.error (.failed (.form e)))

end Program

open Program

theorem Job.ends {d : Declaration} {job : Job} (hincreasing : job.supply.Increasing job.session.temps)
    (hd : job.function = d.function) (hearly : job.late = false) {result : Except (Stop LowerError) X86.Procedure}
    (hresult : (job.run x86Options).1 = result) : d.Ends result := by
  subst hresult
  have hends : Function.EndsAlike (job.supply.toRenaming hincreasing) job.session.temps d.name
      ((d.function.lower x86Options).run.run {}) (job.run x86Options) :=
    job.endsAlike hincreasing (fun h : false = true => nomatch h) hd hearly
  generalize job.run x86Options = ended at hends
  obtain ⟨s₀, ⟨s, p, htree, hgap, halone, hprints⟩ | ⟨s, htree, hgap, halone⟩ | ⟨e, htree, halone⟩⟩ :=
    d.lower_outcome {}
  · rw [halone] at hends
    cases hends with
    | lowered =>
      refine .lowered ⟨s, htree⟩ hgap ?_
      exact List.forall_mem_map.mpr fun x hx => (hprints x hx).rename _
  · rw [halone] at hends
    cases hends with
    | stopped hwhy =>
      cases hwhy
      exact .fault ⟨s, htree⟩ hgap
  · rw [halone] at hends
    cases hends with
    | stopped hwhy =>
      cases hwhy
      refine .failed ?_ _
      rintro ⟨s, hs⟩
      cases htree.symm.trans hs

/-! ### Packages -/

namespace Program

variable {ds : List Declaration} {start : Nat}

/-- Every run of the functions ends in one of three ways. -/
inductive LoweredTo (ds : List Declaration) : Except (Stop PackageError) (List X86.Procedure) → Prop where
  | lowered {ps : List X86.Procedure} (hall : ∀ d ∈ ds, d.Builds ∧ d.body.hasGap = false)
    (hprints : ∀ p ∈ ps, ∀ x ∈ p.body, x.Prints) : LoweredTo ds (.ok ps)
  | failed {d : Declaration} (hd : d ∈ ds) (hbuilds : ¬ d.Builds) (e : FormError) :
    LoweredTo ds (.error (.failed (.function d.name (.form e))))
  | fault {d : Declaration} (hd : d ∈ ds) (hbuilds : d.Builds) (hgap : d.body.hasGap = true) :
    LoweredTo ds (.error (.fault .holeRead))

theorem loweredTo_of_outcome {jobs : List Job} {result : Except (Stop PackageError) (List X86.Procedure)}
    (hrun : Run x86Options start jobs) (h : Outcome x86Options (ds.map (·.function)) jobs result) :
    LoweredTo ds result := by
  have hdeclared (job : Job) (hjob : job ∈ jobs) := Job.exists_declaration h hjob
  cases h with
  | @lowered ps hall hok =>
    constructor
    · intro d hd
      have hfunction : d.function ∈ jobs.map (·.function) := hall ▸ List.mem_map_of_mem hd
      obtain ⟨job, hjob, heq⟩ := List.mem_map.mp hfunction
      have hresult : (job.run x86Options).1 ∈ ps.map .ok := hok ▸ List.mem_map_of_mem hjob
      obtain ⟨p, -, hp⟩ := List.mem_map.mp hresult
      cases job.ends (hrun.increasing job hjob) heq (Job.early_of_run hp.symm nofun) hp.symm with
      | lowered hbuilds hgap => exact ⟨hbuilds, hgap⟩
    · intro p hp
      have hresult : .ok p ∈ jobs.map (fun job => (job.run x86Options).1) := hok ▸ List.mem_map_of_mem hp
      obtain ⟨job, hjob, hp⟩ := List.mem_map.mp hresult
      obtain ⟨d, -, heq⟩ := hdeclared job hjob
      cases job.ends (hrun.increasing job hjob) heq (Job.early_of_run hp nofun) hp with
      | lowered _ _ hprints => exact hprints
  | @failed first e hall _ hfirst hfails =>
    obtain ⟨d, hd, heq⟩ := hdeclared first hfirst
    rw [heq]
    cases first.ends (hrun.increasing first hfirst) heq hfails.1 hfails.2 with
    | failed hbuilds e => exact .failed hd hbuilds e
  | @fault job f hsome hjob hfault =>
    obtain ⟨d, hd, heq⟩ := hdeclared job hjob
    cases job.ends (hrun.increasing job hjob) heq (Job.early_of_run hfault nofun) hfault with
    | fault hbuilds hgap => exact .fault hd hbuilds hgap

/-- A function whose body has a gap may be the first to come to its end. -/
theorem mayLower_fault {d : Declaration} (hd : d ∈ ds) (hbuilds : d.Builds) (hgap : d.body.hasGap = true) :
    ∃ jobs, Run x86Options start jobs ∧ Outcome x86Options (ds.map (·.function)) jobs (.error (.fault .holeRead)) := by
  let job : Job := ⟨d.function, .inOrder, { temps := start }, false⟩
  have hfault : (job.run x86Options).1 = .error (.fault .holeRead) := by
    have hends := job.ends (d := d) (Supply.inOrder_increasing _) rfl rfl rfl
    generalize (job.run x86Options).1 = result at hends
    cases hends with
    | lowered _ hnone => cases hgap.symm.trans hnone
    | fault => rfl
    | failed hnot => exact absurd hbuilds hnot
  refine ⟨[job], ⟨?_, ?_, List.pairwise_singleton _ _, ?_⟩, ?_⟩
  · exact List.forall_mem_singleton.mpr (Supply.inOrder_increasing _)
  · refine List.forall_mem_singleton.mpr ?_
    rintro _ ⟨k, hk, -, rfl⟩
    change start ≤ k at hk
    change (start : Int) < (k : Int) + 1
    omega
  · exact List.forall_mem_singleton.mpr nofun
  · exact .fault (List.singleton_sublist.mpr (List.mem_map_of_mem hd)) List.mem_cons_self hfault

/-! ### Programs -/

/-- Compiling a text to x86 without checks, in turn or in any other run, ends with the error of a text that cannot be
read, or in one of three ways: with a listing, if every body can be built and has no gap; with the error of a body that
cannot be built; or with the fault of a missing statement, if a body that can be built has a gap. If there is such a
body, then there is a run with this fault. -/
theorem compile_ends_without_fault_unless_gap (name text : Text) (session : Session) :
    MayCompile x86Options name text session.temps ((compile x86Options name text).run.run session).1 ∧
    ((∃ e, parse name text = .error (.failed e) ∧
        ∀ result, MayCompile x86Options name text session.temps result → result = .error (.failed (.program e))) ∨
      ∃ ds, parse name text = .ok ds ∧
        (∀ result, MayCompile x86Options name text session.temps result →
          ((∃ listing, result = .ok listing) ∧ ∀ d ∈ ds, d.Builds ∧ d.body.hasGap = false) ∨
          (∃ d ∈ ds, ¬ d.Builds ∧ ∃ e, result = .error (.failed (.package (.function d.name (.form e))))) ∨
          (result = .error (.fault .holeRead) ∧ ∃ d ∈ ds, d.Builds ∧ d.body.hasGap = true)) ∧
        ((∃ d ∈ ds, d.Builds ∧ d.body.hasGap = true) →
          MayCompile x86Options name text session.temps (.error (.fault .holeRead)))) := by
  refine ⟨compile_mayCompile x86Options name text session, ?_⟩
  simp only [MayCompile]
  cases hparse : parse name text with
  | error why =>
    obtain ⟨e, rfl⟩ := parse_failed hparse
    exact .inl ⟨e, rfl, fun result hresult => hresult⟩
  | ok ds =>
    have hnames : Package.duplicate? [] ((ds.map (·.function)).map (·.name)) = none := by
      rw [List.map_map]
      exact duplicate?_of_parse hparse
    refine .inr ⟨ds, rfl, ?_, ?_⟩
    · rintro _ ⟨_, ⟨lowered, hlowered, rfl⟩, rfl⟩
      rw [Package.MayLower, hnames] at hlowered
      obtain ⟨jobs, hrun, houtcome⟩ := hlowered
      cases loweredTo_of_outcome hrun houtcome with
      | lowered hall hprints =>
        obtain ⟨listing, hlisting⟩ := Listing.procedures_ok hprints
        refine .inl ⟨⟨listing, ?_⟩, hall⟩
        dsimp only [Except.bind]
        rw [hlisting]
        rfl
      | failed hd hbuilds e => exact .inr (.inl ⟨_, hd, hbuilds, e, rfl⟩)
      | fault hd hbuilds hgap => exact .inr (.inr ⟨rfl, _, hd, hbuilds, hgap⟩)
    · rintro ⟨d, hd, hbuilds, hgap⟩
      refine ⟨.error (.fault .holeRead), ⟨.error (.fault .holeRead), ?_, rfl⟩, rfl⟩
      rw [Package.MayLower, hnames]
      exact mayLower_fault hd hbuilds hgap

/-- Did the computation read a hole? -/
def readHole {ε α : Type} : Except (Stop ε) α → Bool
  | .error (.fault .holeRead) => true
  | _ => false

theorem eq_of_readHole {ε α : Type} {r : Except (Stop ε) α} (h : readHole r = true) :
    r = .error (.fault .holeRead) := by
  unfold readHole at h
  split at h
  · rfl
  · cases h

/-- An empty sequence in front of a value is such a gap. -/
theorem emptySeq_reads_hole :
    ((compile x86Options "a.ir" "(func f () (exp (eseq (seq) 1)))").run.run {}).1 = .error (.fault .holeRead) :=
  eq_of_readHole (by decide +kernel)

end Program

end Lowering
