import Lowering.Function.Runs
import Lowering.Proofs.Renaming.Functions

/-!
# One function of a run

What a function finds in a run is its registers, and whether its work has been called off. If it has not, the function
ends as it does by itself, with the registers it found in the place of the first ones: `Job.endsAlike`.
-/

namespace Lowering

namespace Job

/-- The numbers of the registers that the function takes fit 64 bits. -/
def Fits (options : Options) (job : Job) : Prop := ∀ t, job.Takes options t → t.id < 0x8000000000000000

variable {options : Options} {job : Job}

/-- Who is not late finds the options as they are. -/
theorem run_of_early (h : job.late = false) :
    job.run options = (job.function.lower (S := job.supply) options).run.run job.session := by
  rw [run, h, Bool.or_false]

theorem run_of_late (h : job.late = true) :
    (job.run options).1 = .error (.failed .canceled) ∧ (job.run options).2.temps = job.session.temps := by
  rw [run, h, Bool.or_true]
  exact ⟨rfl, Session.temps_record _ _⟩

theorem not_takes_of_late (h : job.late = true) (t : Temp) : ¬ job.Takes options t := by
  rintro ⟨k, hstart, hend, -⟩
  rw [(run_of_late h).2] at hend
  omega

theorem early_of_run {result : Except (Stop LowerError) X86.Procedure} (h : (job.run options).1 = result)
    (hresult : result ≠ .error (.failed .canceled)) : job.late = false :=
  Bool.eq_false_iff.mpr fun hlate => hresult (h.symm.trans (run_of_late hlate).1)

theorem exists_declaration {ds : List Program.Declaration} {jobs : List Job}
    {result : Except (Stop PackageError) (List X86.Procedure)}
    (h : Outcome options (ds.map (·.function)) jobs result) (hjob : job ∈ jobs) :
    ∃ d ∈ ds, job.function = d.function := by
  have hmem : job.function ∈ ds.map (·.function) := by
    cases h with
    | lowered hall => exact hall ▸ List.mem_map_of_mem hjob
    | failed hall => exact hall ▸ List.mem_map_of_mem hjob
    | fault hsome => exact hsome.subset (List.mem_map_of_mem hjob)
  obtain ⟨d, hd, heq⟩ := List.mem_map.mp hmem
  exact ⟨d, hd, heq.symm⟩

/-- In a run a function ends as it does by itself. -/
theorem endsAlike {validate : Bool} {d : Program.Declaration} (hincreasing : job.supply.Increasing job.session.temps)
    (hfits : validate = true → job.Fits (x86Checking validate)) (hd : job.function = d.function)
    (hearly : job.late = false) :
    Function.EndsAlike (job.supply.toRenaming hincreasing) job.session.temps d.name
      ((d.function.lower (x86Checking validate)).run.run {}) (job.run (x86Checking validate)) := by
  have hrun : job.run (x86Checking validate) =
      (d.function.lower (S := job.supply) (x86Checking validate)).run.run job.session := by
    rw [run_of_early hearly, hd]
  rw [hrun]
  refine d.lower_twin hincreasing validate fun hvalidate k hstart hend => hfits hvalidate _ ⟨k, hstart, ?_, rfl⟩
  rw [hrun]
  exact hend

end Job

end Lowering
