import Lowering.Proofs.Preservation.Expressions
import Lowering.X86.Frame

/-!
# Code of statements does what they mean

The main result of this part: a plain statement is always lowered, and its code, run from any registers and any
memory, traps if and only if direct evaluation of the statement traps, and otherwise ends with the same memory, the
same frame pointer and the same words in all registers that were handed out before.
-/

namespace Lowering

open X86

namespace X86

/-- Machines that plain trees cannot tell apart when `n` registers were handed out. -/
def Agree (n : Nat) (m m' : Machine) : Prop := m.mem = m'.mem ∧ ∀ t, Visible n t → m.regs t = m'.regs t

/-- What the tile of a plain statement does with the values of its parts. -/
def Tile.act (m : Machine) : Tile → Word → Word → Machine
  | .store _ _ disp, a, b => m.store (a + disp) b
  | .storeConst _ disp value, a, _ => m.store (a + disp) value
  | .storeAt addr _, a, _ => m.store addr a
  | .setConst dst value, _, _ => m.set dst value
  | .setLoad dst _ disp, a, _ => m.set dst (m.mem.load (a + disp))
  | .setCopy dst _, a, _ => m.set dst a
  | _, _, _ => m

/-- Runs statements one after the other. -/
def runAll (address : Label → Word) : List Subtree → Machine → Except Halt Machine
  | [], m => .ok m
  | .stm s :: rest, m => (s.run address m).bind (runAll address rest)
  | .exp _ :: _, _ => .error .stuck

theorem Covers.run {s : Stm} {tile : Tile} (hcovers : Covers (.stm s) tile) {n : Nat} (hs : s.plain n = true)
    (hseq : ∀ first second, s ≠ .seq first second) (address : Label → Word) (m : Machine) (d : Word) :
    s.run address m =
      (evalAll address m tile.parts).bind fun vs => .ok (tile.act m (vs.getD 0 d) (vs.getD 1 d)) := by
  cases hcovers with
  | seq first second => exact absurd rfl (hseq first second)
  | label => cases hs
  | jump => cases hs
  | jumpReg => cases hs
  | branchConst => cases hs
  | branchConstLeft => cases hs
  | branch => cases hs
  | setConst => rfl
  | store addr src =>
    rw [Tile.parts, evalAll_two, Stm.run]
    cases addr.eval address m with
    | error => rfl
    | ok a =>
      cases src.eval address m with
      | error => rfl
      | ok v => exact congrArg (fun a => Except.ok (m.store a v)) (BitVec.add_zero a).symm
  | storeSum e src i =>
    rw [Tile.parts, evalAll_two, Stm.run, eval_sum]
    cases e.eval address m <;> cases src.eval address m <;> rfl
  | storeSumLeft e src i =>
    rw [Tile.parts, evalAll_two, Stm.run, eval_sumLeft]
    cases e.eval address m <;> cases src.eval address m <;> rfl
  | storeDifference e src i =>
    rw [Tile.parts, evalAll_two, Stm.run, eval_difference]
    cases e.eval address m <;> cases src.eval address m <;> rfl
  | storeAt i src =>
    rw [Tile.parts, evalAll_one, Stm.run]
    cases src.eval address m <;> rfl
  | storeConst addr j =>
    rw [Tile.parts, evalAll_one, Stm.run]
    cases addr.eval address m with
    | error => rfl
    | ok a => exact congrArg (fun a => Except.ok (m.store a j)) (BitVec.add_zero a).symm
  | storeConstSum e i j =>
    rw [Tile.parts, evalAll_one, Stm.run, eval_sum]
    cases e.eval address m <;> rfl
  | setLoad dst e i =>
    rw [Tile.parts, evalAll_one, Stm.run, Exp.eval, eval_sum]
    cases e.eval address m <;> rfl
  | setCopy dst src =>
    rw [Tile.parts, evalAll_one, Stm.run]
    cases src.eval address m <;> rfl
  | drop e =>
    rw [Tile.parts, evalAll_one, Stm.run]
    cases e.eval address m <;> rfl

/-- The block of a plain statement does what its tile does. -/
theorem Covers.run_block {s : Stm} {tile : Tile} (hcovers : Covers (.stm s) tile) {n : Nat} (hs : s.plain n = true)
    (hseq : ∀ first second, s ≠ .seq first second) (w : World) (m : Machine) (regs : List Temp) (f : Temp) :
    X86.run w (tile.block regs f) m =
      .ok (tile.act m (m.regs (regs.getD 0 ⟨0⟩)) (m.regs (regs.getD 1 ⟨0⟩))) := by
  cases hcovers with
  | seq first second => exact absurd rfl (hseq first second)
  | label => cases hs
  | jump => cases hs
  | jumpReg => cases hs
  | branchConst => cases hs
  | branchConstLeft => cases hs
  | branch => cases hs
  | store => exact run_next (exec_store ..) []
  | storeSum => exact run_next (exec_store ..) []
  | storeSumLeft => exact run_next (exec_store ..) []
  | storeDifference => exact run_next (exec_store ..) []
  | storeAt => exact run_next (exec_storeAt ..) []
  | storeConst => exact run_next (exec_storeConst ..) []
  | storeConstSum => exact run_next (exec_storeConst ..) []
  | setConst => exact run_next (exec_loadConst ..) []
  | setLoad => exact run_next (exec_load ..) []
  | setCopy => exact run_next (exec_copy ..) []
  | drop => rfl

theorem Covers.plain_parts_stm {s : Stm} {tile : Tile} (hcovers : Covers (.stm s) tile) {n : Nat}
    (hs : s.plain n = true) (hseq : ∀ first second, s ≠ .seq first second) : PlainExps n tile.parts := by
  cases hcovers with
  | seq first second => exact absurd rfl (hseq first second)
  | _ => simp_all [PlainExps, Tile.parts, Stm.plain, Exp.plain]

namespace Agree

variable {n : Nat} {m m' : Machine} (h : Agree n m m')

include h

theorem set (t : Temp) (v : Word) : Agree n (m.set t v) (m'.set t v) := by
  refine ⟨h.1, ?_⟩
  intro u hu
  simp only [Machine.set, h.2 u hu]

theorem store (a v : Word) : Agree n (m.store a v) (m'.store a v) :=
  ⟨congrArg (fun mem : Memory => mem.store a v) h.1, h.2⟩

theorem act (tile : Tile) (a b : Word) : Agree n (tile.act m a b) (tile.act m' a b) := by
  cases tile with
  | setLoad dst addr disp =>
    simp only [Tile.act, h.1]
    exact h.set dst _
  | store addr src disp => exact h.store _ _
  | storeConst addr disp value => exact h.store _ _
  | storeAt addr src => exact h.store _ _
  | setConst dst value => exact h.set _ _
  | setCopy dst src => exact h.set _ _
  | _ => exact h

end Agree

/-! ### Runs of statements -/

/-- The trees are plain statements. -/
def PlainStms (n : Nat) (xs : List Subtree) : Prop := ∀ x ∈ xs, ∃ s, x = .stm s ∧ s.plain n = true

/-- What code does from `m` if `result` is what direct evaluation comes to. -/
structure Follows (w : World) (k : Nat) (result : Except Halt Machine) (code : List Instr) (m : Machine) : Prop where
  traps : result = .error .trap → run w code m = .error .trap
  ends : ∀ m', result = .ok m' → ∃ m₁, run w code m = .ok m₁ ∧ Agree k m₁ m'

theorem follows_simple {s : Stm} {tile : Tile} (hcovers : Covers (.stm s) tile) {k n n₁ : Nat} (hs : s.plain k = true)
    (hseq : ∀ first second, s ≠ .seq first second) (hk : k ≤ n) {code : List Instr} {regs : List Temp}
    (hparts : Lowers n tile.parts code regs n₁) (w : World) {m m₀ : Machine} (hagree : Agree k m m₀) (f : Temp) :
    Follows w k (s.run w.address m₀) (code ++ tile.block regs f) m := by
  have hplain := hcovers.plain_parts_stm hs hseq
  have hsame : evalAll w.address m tile.parts = evalAll w.address m₀ tile.parts :=
    evalAll_congr hplain w.address hagree.2 hagree.1
  obtain ⟨-, heval⟩ := hparts.evaluates hk hplain w
  cases hvs : evalAll w.address m tile.parts with
  | error h =>
    have hrun := hcovers.run hs hseq w.address m₀ 0
    rw [← hsame, hvs] at hrun
    refine ⟨fun htrap => ?_, fun m' hm' => ?_⟩
    · rw [htrap] at hrun
      cases hrun
      rw [run_append, (heval m).traps hvs]
      rfl
    · rw [hm'] at hrun
      cases hrun
  | ok vs =>
    obtain ⟨m₁, hrun₁, hmap, hmem, hkept⟩ := (heval m).computes vs hvs
    have hagree₁ : Agree k m₁ m₀ :=
      ⟨hmem.trans hagree.1, fun t ht => (hkept t (kept_of_visible hk ht)).trans (hagree.2 t ht)⟩
    have hrun := hcovers.run hs hseq w.address m₀ (m₁.regs ⟨0⟩)
    rw [← hsame, hvs] at hrun
    refine ⟨fun htrap => ?_, fun m' hm' => ?_⟩
    · rw [htrap] at hrun
      cases hrun
    · rw [hm'] at hrun
      cases hrun
      refine ⟨_, ?_, hagree₁.act tile _ _⟩
      rw [run_append, hrun₁, getD_map hmap, getD_map hmap]
      exact hcovers.run_block hs hseq w m₁ regs f

theorem Follows.bind {w : World} {k : Nat} {r : Except Halt Machine} {g : Machine → Except Halt Machine}
    {code code' : List Instr} {m : Machine} (h : Follows w k r code m)
    (hg : ∀ m' m₁, Agree k m₁ m' → Follows w k (g m') code' m₁) : Follows w k (r.bind g) (code ++ code') m := by
  cases r with
  | error why =>
    refine ⟨fun htrap => ?_, fun m' hm' => ?_⟩
    · rw [run_append, h.traps htrap]
      rfl
    · cases hm'
  | ok m' =>
    obtain ⟨m₁, hrun, hagree⟩ := h.ends m' rfl
    have hnext := hg m' m₁ hagree
    refine ⟨fun htrap => ?_, fun m'' hm'' => ?_⟩
    · rw [run_append, hrun]
      exact hnext.traps htrap
    · obtain ⟨m₂, hrun₂, hagree₂⟩ := hnext.ends m'' hm''
      refine ⟨m₂, ?_, hagree₂⟩
      rw [run_append, hrun]
      exact hrun₂

/-- The code of plain statements follows their direct evaluation. -/
theorem Lowers.follows {n n' k : Nat} {xs : List Subtree} {code : List Instr} {regs : List Temp}
    (h : Lowers n xs code regs n') (hk : k ≤ n) (hxs : PlainStms k xs) (w : World) {m m₀ : Machine}
    (hagree : Agree k m m₀) : Follows w k (runAll w.address xs m₀) code m := by
  induction h generalizing m m₀ with
  | nil n => exact ⟨fun htrap => (nomatch htrap), fun m' hm' => ⟨m, rfl, by cases hm'; exact hagree⟩⟩
  | @cons n n₁ n₂ x rest tile code code' regs regs' htile hparts hrest ihparts ihrest =>
    obtain ⟨⟨s, rfl, hs⟩, hplain⟩ := List.forall_mem_cons.mp hxs
    have hcovers := covers_of_tile? htile
    have hn := hparts.le
    have hnext := tile.le_next n₁
    have hnode : Follows w k (s.run w.address m₀) (code ++ tile.block regs (tile.fresh n₁)) m := by
      by_cases hseq : ∃ first second, s = .seq first second
      · obtain ⟨first, second, rfl⟩ := hseq
        cases htile
        have hboth : PlainStms k [.stm first, .stm second] := by
          simpa [PlainStms, Stm.plain] using hs
        have hrun : runAll w.address [.stm first, .stm second] m₀ = (Stm.seq first second).run w.address m₀ := by
          rw [Stm.run, runAll]
          refine congrArg (Except.bind (first.run w.address m₀)) (funext fun m₁ => ?_)
          rw [runAll]
          cases second.run w.address m₁ <;> rfl
        change Follows w k _ (code ++ []) m
        rw [← hrun, List.append_nil]
        exact ihparts hk hboth hagree
      · have hseq (first second : Stm) : s ≠ .seq first second := fun h => hseq ⟨first, second, h⟩
        exact follows_simple hcovers hs hseq hk hparts w hagree _
    exact hnode.bind fun m' m₁ hagree₁ => ihrest (by omega) hplain hagree₁

theorem stm_trap_or_ok {n : Nat} {s : Stm} (hs : s.plain n = true) (address : Label → Word) (m : Machine) :
    s.run address m = .error .trap ∨ ∃ m', s.run address m = .ok m' := by
  fun_induction Stm.plain n s generalizing m with
  | case1 first second ihf ihs =>
    simp only [Bool.and_eq_true] at hs
    rw [Stm.run]
    obtain h | ⟨m₁, h⟩ := ihf hs.1 m
    · exact .inl (by rw [h]; rfl)
    · rw [h]
      exact ihs hs.2 m₁
  | case2 e =>
    rw [Stm.run]
    obtain h | ⟨v, h⟩ := eval_trap_or_ok hs address m
    · exact .inl (by rw [h]; rfl)
    · exact .inr ⟨m, by rw [h]; rfl⟩
  | case3 t src =>
    simp only [Bool.and_eq_true] at hs
    rw [Stm.run]
    obtain h | ⟨v, h⟩ := eval_trap_or_ok hs.2 address m
    · exact .inl (by rw [h]; rfl)
    · exact .inr ⟨m.set t v, by rw [h]; rfl⟩
  | case4 addr src =>
    simp only [Bool.and_eq_true] at hs
    rw [Stm.run]
    obtain h | ⟨a, h⟩ := eval_trap_or_ok hs.1 address m
    · exact .inl (by rw [h]; rfl)
    obtain h' | ⟨v, h'⟩ := eval_trap_or_ok hs.2 address m
    · exact .inl (by rw [h, h']; rfl)
    · exact .inr ⟨m.store a v, by rw [h, h']; rfl⟩
  | case5 => cases hs

theorem exp_covered_of_plain {n : Nat} {e : Exp} (he : e.plain n = true) : e.covered = true ∧ e.hasGap = false := by
  fun_induction Exp.plain n e <;> simp_all [Exp.covered, Exp.hasGap]

theorem stm_covered_of_plain {n : Nat} {s : Stm} (hs : s.plain n = true) : s.covered = true ∧ s.hasGap = false := by
  fun_induction Stm.plain n s <;>
    simp_all [Stm.covered, Stm.hasGap, Exp.isPlace, Exp.covered, Exp.hasGap, exp_covered_of_plain (n := n)]

end X86

/-- Code that does what a statement means when `n` registers were handed out before: from any registers, memory
and addresses it traps if and only if direct evaluation traps, and otherwise ends with the same memory, frame pointer
and registers handed out. -/
def PreservesMeaning (n : Nat) (s : Stm) (code : List Instr) : Prop :=
  ∀ (w : World) (m : Machine),
    (run w code m = .error .trap ↔ s.run w.address m = .error .trap) ∧
    (run w code m ≠ .error .trap → ∃ m₁ m₂, run w code m = .ok m₁ ∧ s.run w.address m = .ok m₂ ∧
      m₁.mem = m₂.mem ∧ m₁.regs framePointer = m₂.regs framePointer ∧
      ∀ i : Int, 0 < i → i ≤ n → m₁.regs ⟨i⟩ = m₂.regs ⟨i⟩)

/-- Plain statements are lowered, to code that does what they mean. -/
theorem lowered_code_preserves_meaning (s : Stm) (log : Log) (hs : s.plain log.session.temps = true) :
    ∃ code log', (X86.rules.tileStm s).run.run log = (.ok (), log') ∧ log'.code = log.code ++ code ∧
      PreservesMeaning log.session.temps s code := by
  obtain ⟨hcovered, hgap⟩ := stm_covered_of_plain hs
  obtain ⟨code, regs, n', hlowers⟩ := lowers_of_covered (x := .stm s) hcovered hgap log.session.temps
  obtain ⟨journal, hrun⟩ := tileStm_run hlowers log rfl
  refine ⟨code, _, hrun, rfl, fun w m => ?_⟩
  have hfollows : Follows w log.session.temps (runAll w.address [.stm s] m) code m :=
    hlowers.follows (Nat.le_refl _) (by simpa [PlainStms] using hs) w ⟨rfl, fun _ _ => rfl⟩
  have hone : runAll w.address [.stm s] m = s.run w.address m := by
    rw [runAll]
    cases s.run w.address m <;> rfl
  rw [hone] at hfollows
  obtain htrap | ⟨m₂, hm₂⟩ := stm_trap_or_ok hs w.address m
  · have hcode := hfollows.traps htrap
    exact ⟨⟨fun _ => htrap, fun _ => hcode⟩, fun hne => absurd hcode hne⟩
  · obtain ⟨m₁, hm₁, hagree⟩ := hfollows.ends m₂ hm₂
    refine ⟨⟨fun h => ?_, fun h => ?_⟩, fun _ => ⟨m₁, m₂, hm₁, hm₂, hagree.1, hagree.2 _ (.inl rfl), ?_⟩⟩
    · rw [hm₁] at h
      cases h
    · rw [hm₂] at h
      cases h
    · intro i hpos hle
      exact hagree.2 ⟨i⟩ (.inr ⟨hpos, hle⟩)

/-- A division that may trap, then a store whose displacement is its own negative. -/
def divideThenStore : Stm :=
  .seq (.move (.temp ⟨1⟩) (.bin .div (.temp ⟨2⟩) (.mem (.bin .plus framePointerExp (.const 8)))))
    (.move (.mem (.bin .minus (.temp ⟨1⟩) (.const (-2147483648)))) (.bin .shl (.const 3) (.temp ⟨2⟩)))

theorem divideThenStore_preserves_meaning :
    divideThenStore.plain 2 = true ∧
      ∃ code log', (X86.rules.tileStm divideThenStore).run.run ⟨{ temps := 2 }, []⟩ = (.ok (), log') ∧
        log'.code = [] ++ code ∧ PreservesMeaning 2 divideThenStore code :=
  ⟨by decide, lowered_code_preserves_meaning divideThenStore ⟨{ temps := 2 }, []⟩ (by decide)⟩

end Lowering
