import Lowering.Proofs.Branching.Conditions
import Lowering.Proofs.Branching.Labels

/-!
# The two edges of a branch

The code of a conditional jump ends in a comparison and a branch. If the relation holds, control goes to the definition
of the first label. If it does not, the branch falls through: control is behind it, whatever the second label is. So the
second label is honoured exactly if the code behind the branch leads to its definition, through nothing but further
labels and jumps.
-/

namespace Lowering.X86

/-! ### The code of a branch -/

/-- The code of a conditional jump compares its operands, whose evaluation plain trees cannot notice, and ends in a
branch that is taken if the relation holds. -/
theorem Lowers.branches {k k' n : Nat} {rel : Rel} {left right : Exp} {t f : Label} {c : List Instr} {rs : List Temp}
    (h : Lowers k [.stm (.cjump rel left right t f)] c rs k') (hk : n ≤ k) (hrel : ∀ n, rel ≠ .other n)
    (hleft : left.plain n = true) (hright : right.plain n = true) {w : World} {m : Machine} {a b : Word}
    (ha : left.eval w.address m = .ok a) (hb : right.eval w.address m = .ok b) :
    ∃ before rel' m', c = before ++ [branch rel' t f] ∧ run w before m = .ok m' ∧ Agree n m' m ∧
      exec? w (branch rel' t f) m' = some (if rel.holds a b then .goto t else .next m') := by
  obtain ⟨before, cmp, rel', rfl, hcompares⟩ := h.compares hk hrel hleft hright
  obtain ⟨m₁, x, y, hrun, hagree, hcmp, hholds⟩ := hcompares.decides w m a b ha hb
  obtain ⟨hrun', hbranch⟩ := run_comparison hrun hcmp hcompares.listed t f
  rw [hholds] at hbranch
  refine ⟨before ++ [cmp], rel', _, ?_, hrun', hagree, hbranch⟩
  rw [List.append_assoc]
  rfl

/-- Code that ends in a branch is a path to the definition of the label, or to the position behind. -/
theorem path_of_branch {w : World} {pre before post : List Instr} {rel : Rel} {t f : Label} {m m' : Machine}
    {taken : Bool} {pt : Nat} (hrun : run w before m = .ok m')
    (hexec : exec? w (branch rel t f) m' = some (if taken then .goto t else .next m'))
    (hpt : DefinedAt (pre ++ (before ++ [branch rel t f]) ++ post) t pt) :
    Path w (pre ++ (before ++ [branch rel t f]) ++ post)
      (Within pre.length (pre ++ (before ++ [branch rel t f])).length) (pre.length, m)
      (if taken then pt else (pre ++ (before ++ [branch rel t f])).length, m') := by
  have hcode : pre ++ before ++ ([branch rel t f] ++ post) = pre ++ (before ++ [branch rel t f]) ++ post := by
    simp only [List.append_assoc]
  have hstop : (pre ++ (before ++ [branch rel t f])).length = (pre ++ before).length + 1 := by
    rw [← List.append_assoc, List.length_append, List.length_singleton]
  have hat : (pre ++ (before ++ [branch rel t f]) ++ post)[(pre ++ before).length]? = some (branch rel t f) := by
    rw [← hcode, List.getElem?_append_right (Nat.le_refl _), Nat.sub_self]
    rfl
  have hbefore := path_of_run hrun pre ([branch rel t f] ++ post)
  rw [hcode] at hbefore
  have hpath := hbefore.mono fun pc hpc => show Within pre.length (pre ++ (before ++ [branch rel t f])).length pc from
    ⟨hpc.1, by have := hpc.2; omega⟩
  have hinside : Within pre.length (pre ++ (before ++ [branch rel t f])).length (pre ++ before).length := by
    refine ⟨?_, ?_⟩
    · rw [List.length_append]
      exact Nat.le_add_right _ _
    · omega
  refine hpath.trans (.step hinside ?_ (.refl _))
  cases taken with
  | true => exact .goto hat hexec hpt
  | false =>
    rw [if_neg Bool.false_ne_true, hstop]
    exact .next hat hexec

/-! ### Where control continues -/

/-- A label, or a jump to one. -/
inductive Passes : Instr → Prop where
  | label (asm : Text) (l : Label) : Passes (.label asm l)
  | jump (l : Label) : Passes (.oper Form.jump.asm [] [] [l] [])

/-- At the position stands a label, or a jump to one. -/
def PassesAt (code : List Instr) (pc : Nat) : Prop := ∃ x, code[pc]? = some x ∧ Passes x

/-- Labels and jumps lead from a position to a definition of the label. -/
inductive Leads (code : List Instr) (l : Label) : Nat → Prop where
  | here {pc : Nat} (hdefined : DefinedAt code l pc) : Leads code l pc
  | label {pc : Nat} {l' : Label} (hlabel : DefinedAt code l' pc) (hnext : Leads code l (pc + 1)) : Leads code l pc
  | jump {pc pc' : Nat} {l' : Label} (hjump : code[pc]? = some (.oper Form.jump.asm [] [] [l'] []))
      (hdefined : DefinedAt code l' pc') (hnext : Leads code l pc') : Leads code l pc

theorem Leads.of_path {w : World} {code : List Instr} {l : Label} {c c' : Config}
    (hpath : Path w code (PassesAt code) c c') (hdefined : DefinedAt code l c'.1) : Leads code l c.1 := by
  induction hpath with
  | refl c => exact .here hdefined
  | step hinside hstep _ ih =>
    obtain ⟨x, hx, hpasses⟩ := hinside
    cases hstep with
    | next hx' hexec =>
      obtain rfl := Option.some.inj (hx.symm.trans hx')
      cases hpasses with
      | label asm l' => exact .label ⟨asm, hx⟩ (ih hdefined)
      | jump l' =>
        rw [exec_jump] at hexec
        cases hexec
    | goto hx' hexec hk =>
      obtain rfl := Option.some.inj (hx.symm.trans hx')
      cases hpasses with
      | label asm l' =>
        rw [exec_label] at hexec
        cases hexec
      | jump l' =>
        rw [exec_jump] at hexec
        cases hexec
        exact .jump hx hk (ih hdefined)

theorem Leads.path {code : List Instr} {l : Label} {pc : Nat} (h : Leads code l pc) (w : World) (m : Machine) :
    ∃ pc', DefinedAt code l pc' ∧ Path w code (PassesAt code) (pc, m) (pc', m) := by
  induction h with
  | here hdefined => exact ⟨_, hdefined, .refl _⟩
  | label hlabel _ ih =>
    obtain ⟨pc', hpc', hpath⟩ := ih
    obtain ⟨asm, hx⟩ := hlabel
    exact ⟨pc', hpc', .step ⟨_, hx, .label asm _⟩ (.next hx (exec_label w m asm _)) hpath⟩
  | jump hjump hdefined _ ih =>
    obtain ⟨pc', hpc', hpath⟩ := ih
    exact ⟨pc', hpc', .step ⟨_, hjump, .jump _⟩ (.goto hjump (exec_jump w m _) hdefined) hpath⟩

/-! ### The main result -/

/-- What a conditional jump does whose code stands from `start` up to `stop`, with the definitions of its labels at `pt`
and `pf`. -/
structure Edges (n : Nat) (code : List Instr) (start stop : Nat) (rel : Rel) (left right : Exp) (t f : Label)
    (pt pf : Nat) : Prop where
  /-- The first label is defined there and nowhere else. -/
  first : ∀ pc, DefinedAt code t pc ↔ pc = pt
  /-- The second label is defined there and nowhere else. -/
  second : ∀ pc, DefinedAt code f pc ↔ pc = pf
  /-- Control goes to the first label if the relation holds and falls through if it does not. -/
  runs : ∀ w m a b, left.eval w.address m = .ok a → right.eval w.address m = .ok b →
    ∃ m', Agree n m' m ∧
      Path w code (Within start stop) (start, m) (if rel.holds a b then pt else stop, m')
  /-- Having fallen through, control continues at the second label exactly if labels and jumps lead there. -/
  continues : ∀ w m, Path w code (PassesAt code) (stop, m) (pf, m) ↔ Leads code f stop

theorem definedAt_iff {code : List Instr} {l : Label} (hcode : (labelsOf code).Nodup) (hl : l ∈ labelsOf code) :
    ∃ pc, ∀ pc', DefinedAt code l pc' ↔ pc' = pc := by
  obtain ⟨pc, hpc⟩ := definedAt_of_mem hl
  refine ⟨pc, fun pc' => ⟨fun h => h.unique hcode hpc, ?_⟩⟩
  rintro rfl
  exact hpc

/-- Lowering comes to every conditional jump. The first label is honoured; the second one is not, unless the code behind
the branch leads to it. -/
theorem branch_falls_through_unless_taken (s : Stm) (log : Log) (hcovered : s.covered = true) (hgap : s.hasGap = false)
    (hlabels : s.labels.Nodup) :
    ∃ code log', (X86.rules.tileStm s).run.run log = (.ok (), log') ∧ log'.code = log.code ++ code ∧
      (∀ x ∈ s.cjumps, ∃ pre k, Visits log.session.temps [.stm s] pre (.stm x) k) ∧
      ∀ pre k rel left right t f,
        Visits log.session.temps [.stm s] pre (.stm (.cjump rel left right t f)) k →
        (∀ n, rel ≠ .other n) → left.plain log.session.temps = true → right.plain log.session.temps = true →
        t ∈ s.labels → f ∈ s.labels →
        ∃ c k' post pt pf, (X86.rules.tileStm (.cjump rel left right t f)).Yields k c (.ok ()) k' ∧
          code = pre ++ c ++ post ∧
          Edges log.session.temps code pre.length (pre ++ c).length rel left right t f pt pf := by
  obtain ⟨code, regs, n', hlowers⟩ := lowers_of_covered (x := .stm s) hcovered hgap log.session.temps
  obtain ⟨journal, hrun⟩ := tileStm_run hlowers log rfl
  refine ⟨code, _, hrun, rfl, fun x => hlowers.visits_cjump (List.mem_singleton_self _), ?_⟩
  intro pre k rel left right t f hvisits hrel hleft hright ht hf
  obtain ⟨c, rs, k', post, hc, hcode⟩ := hvisits.code hlowers
  have hdefs : labelsOf code = s.labels := by
    rw [hlowers.labels, Subtree.labelsAll, Subtree.labelsAll, List.append_nil]
    rfl
  rw [← hdefs] at hlabels ht hf
  obtain ⟨pt, hpt⟩ := definedAt_iff hlabels ht
  obtain ⟨pf, hpf⟩ := definedAt_iff hlabels hf
  refine ⟨c, k', post, pt, pf, tileStm_run hc, hcode, hpt, hpf, ?_, ?_⟩
  · intro w m a b ha hb
    obtain ⟨before, rel', m', rfl, hbefore, hagree, hexec⟩ := hc.branches hvisits.le hrel hleft hright ha hb
    subst hcode
    exact ⟨m', hagree, path_of_branch hbefore hexec ((hpt pt).mpr rfl)⟩
  · intro w m
    constructor
    · intro hpath
      exact Leads.of_path hpath ((hpf pf).mpr rfl)
    · intro hleads
      obtain ⟨pc, hpc, hpath⟩ := hleads.path w m
      rwa [(hpf pc).mp hpc] at hpath

/-- Compares a register with ten and, between two labels, puts one into the result register. -/
def setOneBetween (first second : Label) : Stm :=
  .seq (.cjump .lt (.temp ⟨1⟩) (.const 10) "T" "F")
    (.seq (.label first) (.seq (.move resultExp (.const 1)) (.label second)))

/-- The code of such a statement. -/
def setOneBetweenCode (first second : Label) : List Instr :=
  [oper (.cmpConst 10) [] [⟨1⟩], branch .lt "T" "F", .label (first ++ ":") first,
    oper (.loadConst 1) [resultRegister] [], .label (second ++ ":") second]

/-- With the second label right behind the branch, both labels are honoured. -/
theorem setOneBetween_honours_second_label :
    (setOneBetween "F" "T").covered = true ∧ (setOneBetween "F" "T").hasGap = false ∧
      (setOneBetween "F" "T").labels.Nodup ∧
      ∃ log', (X86.rules.tileStm (setOneBetween "F" "T")).run.run ⟨{ temps := 1 }, []⟩ = (.ok (), log') ∧
        log'.code = setOneBetweenCode "F" "T" ∧ DefinedAt log'.code "F" 2 ∧
        ∀ w m, Rel.lt.holds (m.regs ⟨1⟩) 10 = false →
          ∃ m', Agree 1 m' m ∧ Path w log'.code (Within 0 2) (0, m) (2, m') := by
  refine ⟨by decide, by decide, by decide, ?_⟩
  obtain ⟨code, log', hrun, hcode, -, hedges⟩ := branch_falls_through_unless_taken (setOneBetween "F" "T")
    ⟨{ temps := 1 }, []⟩ (by decide) (by decide) (by decide)
  have hlog : log'.code = setOneBetweenCode "F" "T" := by
    rw [show log' = ((X86.rules.tileStm (setOneBetween "F" "T")).run.run ⟨{ temps := 1 }, []⟩).2 by rw [hrun]]
    decide +kernel
  have hvisits : Visits 1 [.stm (setOneBetween "F" "T")] []
      (.stm (.cjump .lt (.temp ⟨1⟩) (.const 10) "T" "F")) 1 := .inside rfl (.here _ _ _)
  obtain ⟨c, k', post, pt, pf, hyields, hsplit, hedge⟩ := hedges [] 1 _ _ _ _ _ hvisits (fun _ => Rel.noConfusion)
    (by decide) (by decide) (by decide) (by decide)
  obtain ⟨journal, hrun'⟩ := hyields ⟨{ temps := 1 }, []⟩ rfl
  have hc : [] ++ c = [oper (.cmpConst 10) [] [⟨1⟩], branch .lt "T" "F"] := by
    rw [show [] ++ c = ((X86.rules.tileStm (.cjump .lt (.temp ⟨1⟩) (.const 10) "T" "F")).run.run
      ⟨{ temps := 1 }, []⟩).2.code by rw [hrun']]
    decide +kernel
  rw [hc] at hedge
  refine ⟨log', hrun, hlog, ⟨"F:", by rw [hlog]; rfl⟩, ?_⟩
  intro w m hholds
  obtain ⟨m', hagree, hpath⟩ := hedge.runs w m (m.regs ⟨1⟩) 10 rfl rfl
  rw [hholds, if_neg Bool.false_ne_true] at hpath
  exact ⟨m', hagree, hcode ▸ hpath⟩

/-- With the first label right behind the branch, the second one is missed: if the relation does not hold, control comes
to the first label all the same and on to the code behind it. -/
theorem setOneBetween_misses_second_label :
    (setOneBetween "T" "F").covered = true ∧ (setOneBetween "T" "F").hasGap = false ∧
      (setOneBetween "T" "F").labels.Nodup ∧ (setOneBetween "T" "F").labels = [("T" : Label), "F"] ∧
      ((X86.rules.tileStm (setOneBetween "T" "F")).run.run ⟨{ temps := 1 }, []⟩).2.code = setOneBetweenCode "T" "F" ∧
      DefinedAt (setOneBetweenCode "T" "F") "T" 2 ∧ DefinedAt (setOneBetweenCode "T" "F") "F" 4 ∧
      ¬ Leads (setOneBetweenCode "T" "F") "F" 2 ∧
      ∀ w m, Rel.lt.holds (m.regs ⟨1⟩) 10 = false →
        ∃ m', Path w (setOneBetweenCode "T" "F") (Within 0 4) (0, m) (4, m') ∧ m'.regs resultRegister = 1 := by
  refine ⟨by decide, by decide, by decide, by decide, by decide +kernel, ⟨_, rfl⟩, ⟨_, rfl⟩, ?_, ?_⟩
  · -- Behind the label stands an assignment, which is neither a label nor a jump.
    have hstops : ¬ Leads (setOneBetweenCode "T" "F") "F" 3 := by
      intro h
      cases h with
      | here h =>
        obtain ⟨asm, h⟩ := h
        cases h
      | label h _ =>
        obtain ⟨asm, h⟩ := h
        cases h
      | jump h _ _ => cases congrArg (Option.map Instr.defs) h
    intro h
    cases h with
    | here h =>
      obtain ⟨asm, h⟩ := h
      exact absurd (Instr.label.inj (Option.some.inj h)).2 (by decide)
    | label _ h => exact hstops h
    | jump h _ _ => cases h
  · intro w m hholds
    obtain ⟨-, hbranch⟩ := run_comparison (run_nil w m) (exec_cmpConst w m 10 ⟨1⟩)
      (show ∀ n, Rel.lt ≠ .other n from fun _ => Rel.noConfusion) "T" "F"
    rw [hholds, if_neg Bool.false_ne_true] at hbranch
    have hfour : run w ((setOneBetweenCode "T" "F").take 4) m =
        .ok (Machine.set { m with flags := some (Flags.compare (m.regs ⟨1⟩) 10) } resultRegister 1) := by
      refine (run_next (exec_cmpConst w m 10 ⟨1⟩) _).trans ((run_next hbranch _).trans ?_)
      refine (run_next (exec_label w _ _ _) _).trans ((run_next (exec_loadConst w _ 1 resultRegister) _).trans ?_)
      exact run_nil w _
    exact ⟨_, path_of_run hfour [] [.label ("F" ++ ":") "F"], Machine.set_self ..⟩

end Lowering.X86
