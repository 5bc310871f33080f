import Lowering.Proofs.Branching.Relations
import Lowering.Proofs.Preservation.Statements
import Lowering.Proofs.Tiling.Coverage
import Lowering.Proofs.Tiling.Places

/-!
# Conditional jumps decide as their relation does

The code of a conditional jump computes what it cannot compare as it stands, compares, and branches. There are three
ways to compare: two registers, a register with a constant on the right, and a constant on the left, which changes sides
and has the relation commuted. All of them leave flags from which the branch reads off whether the relation holds.
-/

namespace Lowering.X86

/-- Code that ends in a comparison of `x` and `y` and a branch on how they compare. -/
theorem run_comparison {w : World} {m m₁ : Machine} {before : List Instr} {cmp : Instr} {x y : Word} {rel : Rel}
    (hrun : run w before m = .ok m₁)
    (hcmp : exec? w cmp m₁ = some (.next { m₁ with flags := some (Flags.compare x y) }))
    (hrel : ∀ n, rel ≠ .other n) (t f : Label) :
    run w (before ++ [cmp]) m = .ok { m₁ with flags := some (Flags.compare x y) } ∧
      exec? w (branch rel t f) { m₁ with flags := some (Flags.compare x y) } =
        some (if rel.holds x y then .goto t else .next { m₁ with flags := some (Flags.compare x y) }) := by
  constructor
  · rw [run_append, hrun]
    exact run_next hcmp []
  · refine (exec_branch w _ hrel t f).trans ?_
    change (condition? rel (Flags.compare x y)).map _ = _
    rw [condition?_compare x y hrel]
    rfl

/-- Behind `before`, the instruction `cmp` compares two words that are in `rel'` exactly if `left` and `right` are in
`rel`. Trees that see `n` registers do not notice. -/
structure Compares (n : Nat) (rel : Rel) (left right : Exp) (before : List Instr) (cmp : Instr) (rel' : Rel) :
    Prop where
  spelled : ∃ x y, Assembly.read? cmp.asm = some ⟨.cmp, [x, y]⟩
  listed : ∀ k, rel' ≠ .other k
  decides : ∀ w m a b, left.eval w.address m = .ok a → right.eval w.address m = .ok b →
    ∃ m₁ x y, run w before m = .ok m₁ ∧ Agree n m₁ m ∧
      exec? w cmp m₁ = some (.next { m₁ with flags := some (Flags.compare x y) }) ∧ rel'.holds x y = rel.holds a b

/-- The code of a conditional jump ends in a comparison and a branch. -/
theorem Lowers.compares {k k' n : Nat} {rel : Rel} {left right : Exp} {t f : Label} {c : List Instr} {rs : List Temp}
    (h : Lowers k [.stm (.cjump rel left right t f)] c rs k') (hk : n ≤ k) (hrel : ∀ n, rel ≠ .other n)
    (hleft : left.plain n = true) (hright : right.plain n = true) :
    ∃ before cmp rel', c = before ++ [cmp, branch rel' t f] ∧ Compares n rel left right before cmp rel' := by
  obtain ⟨cp, rs', n₁, hparts, rfl, -, -⟩ := h.node (show tile? _ = some (branchTile rel left right t f) from rfl)
  have hcovers := Covers.of_branchTile rel left right t f
  generalize branchTile rel left right t f = tile at hparts hcovers
  -- Whatever the parts are, their code leaves alone what plain trees see.
  have hcomputes (w : World) (m : Machine) (vs : List Word) (hplain : PlainExps n tile.parts)
      (hvs : evalAll w.address m tile.parts = .ok vs) :
      ∃ m₁, run w cp m = .ok m₁ ∧ rs'.map m₁.regs = vs ∧ Agree n m₁ m := by
    obtain ⟨m₁, hrun, hmap, hmem, hkept⟩ := ((hparts.evaluates hk hplain w).2 m).computes vs hvs
    exact ⟨m₁, hrun, hmap, hmem, fun t ht => hkept t (kept_of_visible hk ht)⟩
  cases hcovers with
  | branchConst rel left i =>
    refine ⟨cp, _, rel, rfl, ⟨_, _, read_asm (.cmpConst i) fun _ => Form.noConfusion⟩, hrel, ?_⟩
    intro w m a b ha hb
    cases hb
    obtain ⟨m₁, hrun, hmap, hagree⟩ := hcomputes w m [a] (List.forall_mem_singleton.mpr ⟨left, rfl, hleft⟩) (by
      rw [Tile.parts, evalAll, ha]
      rfl)
    refine ⟨m₁, a, i, hrun, hagree, ?_, rfl⟩
    rw [show a = m₁.regs (rs'.getD 0 ⟨0⟩) from getD_map hmap 0]
    exact exec_cmpConst w m₁ i _
  | branchConstLeft rel right i =>
    refine ⟨cp, _, rel.commute, rfl, ⟨_, _, read_asm (.cmpConst i) fun _ => Form.noConfusion⟩,
      Rel.commute_ne_other hrel, ?_⟩
    intro w m a b ha hb
    cases ha
    obtain ⟨m₁, hrun, hmap, hagree⟩ := hcomputes w m [b] (List.forall_mem_singleton.mpr ⟨right, rfl, hright⟩) (by
      rw [Tile.parts, evalAll, hb]
      rfl)
    refine ⟨m₁, b, i, hrun, hagree, ?_, Rel.holds_commute rel i b⟩
    rw [show b = m₁.regs (rs'.getD 0 ⟨0⟩) from getD_map hmap 0]
    exact exec_cmpConst w m₁ i _
  | branch rel left right =>
    refine ⟨cp, _, rel, rfl, ⟨_, _, read_asm .cmp fun _ => Form.noConfusion⟩, hrel, ?_⟩
    intro w m a b ha hb
    have hplain : PlainExps n [.exp left, .exp right] :=
      List.forall_mem_cons.mpr ⟨⟨left, rfl, hleft⟩, List.forall_mem_singleton.mpr ⟨right, rfl, hright⟩⟩
    obtain ⟨m₁, hrun, hmap, hagree⟩ := hcomputes w m [a, b] hplain (by
      rw [Tile.parts, evalAll, ha, evalAll, hb]
      rfl)
    refine ⟨m₁, a, b, hrun, hagree, ?_, rfl⟩
    rw [show a = m₁.regs (rs'.getD 0 ⟨0⟩) from getD_map hmap 0, show b = m₁.regs (rs'.getD 1 ⟨0⟩) from getD_map hmap 1]
    exact exec_cmp w m₁ _ _

/-- A conditional jump on plain operands is lowered to code that ends in a comparison and a branch, and the branch is
taken exactly if the relation holds between the values of the operands. -/
theorem branch_taken_iff_relation_holds (rel : Rel) (left right : Exp) (t f : Label) (log : Log)
    (hrel : rel ∈ Rel.listed) (hleft : left.plain log.session.temps = true)
    (hright : right.plain log.session.temps = true) :
    ∃ before cmp jump log',
      (X86.rules.tileStm (.cjump rel left right t f)).run.run log = (.ok (), log') ∧
      log'.code = log.code ++ (before ++ [cmp, jump]) ∧
      (∃ x y, Assembly.read? cmp.asm = some ⟨.cmp, [x, y]⟩) ∧
      (∃ rel', Assembly.read? jump.asm = some ⟨.jcc rel', [.target 0]⟩) ∧ jump.targets = [t, f] ∧
      ∀ w m a b, left.eval w.address m = .ok a → right.eval w.address m = .ok b →
        ∃ m₁ m₂, run w before m = .ok m₁ ∧ exec? w cmp m₁ = some (.next m₂) ∧ Agree log.session.temps m₂ m ∧
          exec? w jump m₂ = some (if rel.holds a b then .goto t else .next m₂) := by
  have hrel : ∀ k, rel ≠ .other k := by
    rintro k rfl
    simp [Rel.listed] at hrel
  obtain ⟨hcleft, hgleft⟩ := exp_covered_of_plain hleft
  obtain ⟨hcright, hgright⟩ := exp_covered_of_plain hright
  obtain ⟨code, regs, n', hlowers⟩ := lowers_of_covered (x := .stm (.cjump rel left right t f))
    (Bool.and_eq_true_iff.mpr ⟨hcleft, hcright⟩) (Bool.or_eq_false_iff.mpr ⟨hgleft, hgright⟩) log.session.temps
  obtain ⟨journal, hrun⟩ := tileStm_run hlowers log rfl
  obtain ⟨before, cmp, rel', rfl, hcompares⟩ := hlowers.compares (Nat.le_refl _) hrel hleft hright
  have hspelled := read_asm (.branch rel') fun k h => hcompares.listed k (Form.branch.inj h)
  refine ⟨before, cmp, branch rel' t f, _, hrun, rfl, hcompares.spelled, ⟨rel', hspelled⟩, rfl, ?_⟩
  intro w m a b ha hb
  obtain ⟨m₁, x, y, hbefore, hagree, hcmp, hholds⟩ := hcompares.decides w m a b ha hb
  refine ⟨m₁, _, hbefore, hcmp, hagree, ?_⟩
  rw [← hholds]
  exact (run_comparison hbefore hcmp hcompares.listed t f).2

/-- The least word is below the greatest one as a signed number. As an unsigned one it is below a word in memory exactly
if that word has a larger value, though it is the word in memory that is compared with it. -/
theorem leastWord_branches_by_order :
    let signed : Stm := .cjump .lt (.const 0x80000000) (.const 0x7fffffff) "T" "F"
    let unsigned : Stm := .cjump .ult (.const 0x80000000) (.mem (.temp ⟨1⟩)) "T" "F"
    (∃ before jump log', (X86.rules.tileStm signed).run.run {} = (.ok (), log') ∧ log'.code = before ++ [jump] ∧
      ∀ w m, ∃ m', run w before m = .ok m' ∧ exec? w jump m' = some (.goto "T")) ∧
    ∃ before jump log', (X86.rules.tileStm unsigned).run.run ⟨{ temps := 1 }, []⟩ = (.ok (), log') ∧
      log'.code = before ++ [jump] ∧
      ∀ w m, ∃ m', run w before m = .ok m' ∧
        exec? w jump m' = some (if 0x80000000 < (m.mem.load (m.regs ⟨1⟩)).toNat then .goto "T" else .next m') := by
  intro signed unsigned
  constructor
  · obtain ⟨before, cmp, jump, log', hrun, hcode, -, -, -, htaken⟩ := branch_taken_iff_relation_holds .lt
      (.const 0x80000000) (.const 0x7fffffff) "T" "F" {} (by decide) (by decide) (by decide)
    refine ⟨before ++ [cmp], jump, log', hrun, by rw [hcode, List.append_assoc]; rfl, ?_⟩
    intro w m
    obtain ⟨m₁, m₂, hbefore, hcmp, -, hjump⟩ := htaken w m _ _ rfl rfl
    refine ⟨m₂, ?_, hjump⟩
    rw [run_append, hbefore]
    exact run_next hcmp []
  · obtain ⟨before, cmp, jump, log', hrun, hcode, -, -, -, htaken⟩ := branch_taken_iff_relation_holds .ult
      (.const 0x80000000) (.mem (.temp ⟨1⟩)) "T" "F" ⟨{ temps := 1 }, []⟩ (by decide) (by decide) (by decide)
    refine ⟨before ++ [cmp], jump, log', hrun, by rw [hcode, List.append_assoc]; rfl, ?_⟩
    intro w m
    obtain ⟨m₁, m₂, hbefore, hcmp, -, hjump⟩ := htaken w m _ _ rfl rfl
    refine ⟨m₂, ?_, hjump.trans (by simp [Rel.holds])⟩
    rw [run_append, hbefore]
    exact run_next hcmp []

end Lowering.X86
