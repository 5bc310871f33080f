import Lowering.Proofs.Meaning
import Lowering.Proofs.Tiling.Coverage

/-!
# Code of expressions computes their values

The code of a plain expression leaves its value in the register that lowering yields, traps if evaluation traps,
and touches nothing else that matters: memory stays, and so does every register that was handed out before, the
three that a call may change apart. A tile does its part of this in two steps: what its tree means is what the
tile does with the meanings of its parts, and what its block computes is the same.
-/

namespace Lowering

open X86

/-! ### Evaluation -/

theorem Exp.eval_congr {n : Nat} {e : Exp} (he : e.plain n = true) (address : Label → Word) {m m' : Machine}
    (hregs : ∀ t, Visible n t → m'.regs t = m.regs t) (hmem : m'.mem = m.mem) :
    e.eval address m' = e.eval address m := by
  fun_induction Exp.plain n e with
  | case1 v => rfl
  | case2 t => rw [Exp.eval, Exp.eval, hregs t (of_decide_eq_true he)]
  | case3 l => rfl
  | case4 addr ih => rw [Exp.eval, Exp.eval, ih he, hmem]
  | case5 op left right ihl ihr =>
    simp only [Bool.and_eq_true] at he
    rw [Exp.eval, Exp.eval, ihl he.1.2, ihr he.2]
  | case6 => cases he
  | case7 => cases he
  | case8 => cases he

namespace X86

/-- The values of a list of expressions. -/
def evalAll (address : Label → Word) (m : Machine) : List Subtree → Except Halt (List Word)
  | [] => .ok []
  | .stm _ :: _ => .error .stuck
  | .exp e :: rest => do
    let v ← e.eval address m
    let vs ← evalAll address m rest
    return v :: vs

/-- What the tile of a plain expression does with the values of its parts. -/
def Tile.denote (address : Label → Word) (m : Machine) : Tile → Word → Word → Except Halt Word
  | .load _ disp, a, _ => .ok (m.mem.load (a + disp))
  | .loadAt addr, _, _ => .ok (m.mem.load addr)
  | .arithConst op _ i, a, _ => .ok (op.apply a i)
  | .arith op _ _, a, b => .ok (op.apply a b)
  | .mulConst _ i, a, _ => .ok (a * i)
  | .mul _ _, a, b => .ok (a * b)
  | .div _ _, a, b => Word.quotient a b
  | .shiftConst op _ i, a, _ => .ok (op.apply a i)
  | .shift op _ _, a, b => .ok (op.apply a b)
  | .const v, _, _ => .ok v
  | .temp t, _, _ => .ok (m.regs t)
  | .name l, _, _ => .ok (address l)
  | _, _, _ => .error .stuck

theorem Arith.apply_op (o : Arith) (a b : Word) : o.op.apply a b = .ok (o.apply a b) := by
  cases o <;> rfl

theorem Shift.apply_op (o : Shift) (a b : Word) : o.op.apply a b = .ok (o.apply a b) := by
  cases o <;> rfl

theorem Arith.apply_comm {o : Arith} (ho : o.commutes = true) (a b : Word) : o.apply a b = o.apply b a := by
  cases o with
  | add => exact BitVec.add_comm a b
  | sub => cases ho
  | and => exact BitVec.and_comm a b
  | or => exact BitVec.or_comm a b
  | xor => exact BitVec.xor_comm a b

theorem Shift.apply_mask (o : Shift) (a i : Word) : o.apply a (i &&& 31) = o.apply a i := by
  have hmask : (i &&& 31).toNat % 32 = i.toNat % 32 := by
    have hand : (i &&& 31).toNat = i.toNat % 32 := by
      rw [BitVec.toNat_and]
      exact Nat.and_two_pow_sub_one_eq_mod i.toNat 5
    omega
  cases o <;> simp only [Shift.apply, hmask]

section Parts

variable (address : Label → Word) (m : Machine) {α : Type} (k : List Word → Except Halt α)

theorem evalAll_one (e : Exp) :
    (evalAll address m [.exp e]).bind k = (e.eval address m).bind fun v => k [v] := by
  cases h : e.eval address m <;> simp [evalAll, h, bind, Except.bind, pure, Except.pure]

theorem evalAll_two (e f : Exp) :
    (evalAll address m [.exp e, .exp f]).bind k =
      (e.eval address m).bind fun v => (f.eval address m).bind fun u => k [v, u] := by
  cases he : e.eval address m <;> cases hf : f.eval address m <;>
    simp [evalAll, he, hf, bind, Except.bind, pure, Except.pure]

/-! The addresses that instructions write as a register and a displacement. -/

theorem eval_sum (e : Exp) (i : Word) :
    (Exp.bin .plus e (.const i)).eval address m = (e.eval address m).bind fun v => .ok (v + i) := rfl

theorem eval_sumLeft (e : Exp) (i : Word) :
    (Exp.bin .plus (.const i) e).eval address m = (e.eval address m).bind fun v => .ok (v + i) := by
  rw [Exp.eval]
  cases e.eval address m with
  | error => rfl
  | ok v => exact congrArg Except.ok (BitVec.add_comm i v)

theorem eval_difference (e : Exp) (i : Word) :
    (Exp.bin .minus e (.const i)).eval address m = (e.eval address m).bind fun v => .ok (v + -i) := by
  rw [Exp.eval]
  cases e.eval address m with
  | error => rfl
  | ok v => exact congrArg Except.ok (BitVec.sub_eq_add_neg v i)

end Parts

/-- What a tree means is what its tile does with the meanings of its parts. -/
theorem Covers.eval {e : Exp} {tile : Tile} (hcovers : Covers (.exp e) tile) {n : Nat} (he : e.plain n = true)
    (address : Label → Word) (m : Machine) (d : Word) :
    e.eval address m =
      (evalAll address m tile.parts).bind fun vs => tile.denote address m (vs.getD 0 d) (vs.getD 1 d) := by
  cases hcovers with
  | call => cases he
  | callReg => cases he
  | eseq => cases he
  | const => rfl
  | temp => rfl
  | name => rfl
  | loadAt => rfl
  | load addr =>
    rw [Tile.parts, evalAll_one, Exp.eval]
    cases h : addr.eval address m with
    | error => rfl
    | ok v => exact congrArg (fun a => Except.ok (m.mem.load a)) (BitVec.add_zero v).symm
  | loadSum e i =>
    rw [Tile.parts, evalAll_one, Exp.eval, eval_sum]
    cases e.eval address m <;> rfl
  | loadSumLeft e i =>
    rw [Tile.parts, evalAll_one, Exp.eval, eval_sumLeft]
    cases e.eval address m <;> rfl
  | loadDifference e i =>
    rw [Tile.parts, evalAll_one, Exp.eval, eval_difference]
    cases e.eval address m <;> rfl
  | arithConst o e i =>
    rw [Tile.parts, evalAll_one, Exp.eval]
    simp only [Arith.apply_op]
    rfl
  | arithConstLeft o e i hcommutes =>
    rw [Tile.parts, evalAll_one, Exp.eval]
    cases h : e.eval address m with
    | error => rfl
    | ok v => exact (Arith.apply_op o i v).trans (congrArg Except.ok (Arith.apply_comm hcommutes i v))
  | arith o left right =>
    rw [Tile.parts, evalAll_two, Exp.eval]
    simp only [Arith.apply_op]
    rfl
  | mulConst e i =>
    rw [Tile.parts, evalAll_one, Exp.eval]
    rfl
  | mulConstLeft e i =>
    rw [Tile.parts, evalAll_one, Exp.eval]
    cases h : e.eval address m with
    | error => rfl
    | ok v => exact congrArg Except.ok (BitVec.mul_comm i v)
  | mul left right =>
    rw [Tile.parts, evalAll_two, Exp.eval]
    rfl
  | div left right =>
    rw [Tile.parts, evalAll_two, Exp.eval]
    rfl
  | shiftConst o e i =>
    rw [Tile.parts, evalAll_one, Exp.eval]
    simp only [Shift.apply_op, Tile.denote, Shift.apply_mask]
    rfl
  | shift o left right =>
    rw [Tile.parts, evalAll_two, Exp.eval]
    simp only [Shift.apply_op]
    rfl

/-! ### Blocks -/

/-- Registers that code of plain trees keeps when `n` were handed out before. -/
def Kept (n : Nat) (t : Temp) : Prop := t.id ≤ n ∧ t ∉ callerSaved

/-- From `m`, the code puts `v` into `reg`; memory and all registers that are kept stay as they are. -/
def Computes (w : World) (n : Nat) (code : List Instr) (m : Machine) (reg : Temp) (v : Word) : Prop :=
  ∃ m', run w code m = .ok m' ∧ m'.regs reg = v ∧ m'.mem = m.mem ∧ ∀ t, Kept n t → m'.regs t = m.regs t

theorem toInt_signWord_append (a : Word) : (signWord a ++ a : BitVec 64).toInt = a.toInt := by
  rw [BitVec.toInt_append, BitVec.toInt_eq_msb_cond (x := a), signWord]
  cases a.msb <;> simp
  omega

/-- The quotient of two words fits a word but in one case. -/
theorem tdiv_overflows_iff {x k : Int} (hx : -2147483648 ≤ x ∧ x ≤ 2147483647) :
    x.tdiv k < -2147483648 ∨ 2147483647 < x.tdiv k ↔ x = -2147483648 ∧ k = -1 := by
  by_cases hone : k = 1
  · subst hone
    rw [Int.tdiv_one]
    omega
  by_cases hminus : k = -1
  · subst hminus
    rw [Int.tdiv_neg, Int.tdiv_one]
    omega
  have habs : (x.tdiv k).natAbs = x.natAbs / k.natAbs := Int.natAbs_tdiv x k
  have hhalf : (x.tdiv k).natAbs ≤ x.natAbs / 2 := by
    by_cases hzero : k = 0
    · subst hzero
      rw [habs, Int.natAbs_zero, Nat.div_zero]
      exact Nat.zero_le _
    · rw [habs]
      exact Nat.div_le_div_left (by omega) (by omega)
  omega

/-- Division of a number whose sign was extended is division of words. -/
theorem divide_signWord (a b : Word) :
    divide? (signWord a) a b =
      match Word.quotient a b with
      | .error _ => none
      | .ok q => some (q, BitVec.ofInt 32 (a.toInt.tmod b.toInt)) := by
  have ha : -2147483648 ≤ a.toInt ∧ a.toInt ≤ 2147483647 := by
    have hlow := BitVec.le_toInt a
    have hhigh := BitVec.toInt_lt (x := a)
    omega
  have hzero : b.toInt = 0 ↔ b = 0 := BitVec.toInt_inj (y := 0)
  have hmin : a.toInt = -2147483648 ↔ a = -2147483648 := BitVec.toInt_inj (y := -2147483648)
  have hminus : b.toInt = -1 ↔ b = -1 := BitVec.toInt_inj (y := -1)
  have hiff := tdiv_overflows_iff (k := b.toInt) ha
  rw [hmin, hminus] at hiff
  rw [divide?, Word.quotient, toInt_signWord_append]
  simp only [hzero, hiff]
  split <;> rfl

theorem Kept.ne_fresh {n : Nat} {t : Temp} (ht : Kept n t) : t ≠ ⟨(n : Int) + 1⟩ := by
  rintro rfl
  have hle : (n : Int) + 1 ≤ n := ht.1
  omega

theorem Kept.ne_of_mem {n : Nat} {t u : Temp} (ht : Kept n t) (hu : u ∈ callerSaved) : t ≠ u := by
  rintro rfl
  exact ht.2 hu

theorem Machine.set_set (m : Machine) (t : Temp) (u v : Word) : (m.set t u).set t v = m.set t v := by
  simp only [Machine.set, Machine.mk.injEq, and_true]
  funext s
  split <;> rfl

section Block

variable (w : World) (m : Machine) {n : Nat}

/-- Code that only sets the fresh register computes. -/
theorem computes_of_set {code : List Instr} {v : Word} (flags : Option Flags)
    (hrun : run w code m = .ok { m.set ⟨(n : Int) + 1⟩ v with flags }) :
    Computes w n code m ⟨(n : Int) + 1⟩ v := by
  refine ⟨_, hrun, m.set_self _ v, rfl, ?_⟩
  intro t ht
  exact m.set_of_ne v ht.ne_fresh

/-- A copy into the fresh register that is then updated computes. -/
theorem computes_of_update {a : Temp} {x : Instr} {v : Word}
    (hx : exec? w x (m.set ⟨(n : Int) + 1⟩ (m.regs a)) =
      some (.next ((m.set ⟨(n : Int) + 1⟩ (m.regs a)).set ⟨(n : Int) + 1⟩ v).forget)) :
    Computes w n [copy ⟨(n : Int) + 1⟩ a, x] m ⟨(n : Int) + 1⟩ v := by
  refine computes_of_set w m none ?_
  rw [run_next (exec_copy w m _ a), run_next hx, run_nil, Machine.set_set]
  rfl

variable {a b : Temp}

theorem computes_shift (op : Shift) (left right : Exp) (hb : Kept n b) :
    Computes w n ((Tile.shift op left right).block [a, b] ⟨(n : Int) + 1⟩) m ⟨(n : Int) + 1⟩
      (op.apply (m.regs a) (m.regs b)) := by
  have hecx : Register.ecx.temp ≠ (⟨(n : Int) + 1⟩ : Temp) := by
    intro h
    have hid : (-2 : Int) = n + 1 := congrArg Temp.id h
    omega
  refine ⟨_, (run_next (exec_copy w m _ a) _).trans ((run_next (exec_copy w _ _ b) _).trans
    (run_next (exec_shift w _ op _ _) _)), ?_, rfl, ?_⟩
  · rw [Machine.forget_regs, Machine.set_self, Machine.set_self, Machine.set_of_ne _ _ hecx.symm, Machine.set_self,
      Machine.set_of_ne _ _ hb.ne_fresh]
  · intro t ht
    rw [Machine.forget_regs, Machine.set_of_ne _ _ ht.ne_fresh, Machine.set_of_ne _ _ (ht.ne_of_mem (by decide)),
      Machine.set_of_ne _ _ ht.ne_fresh]

/-- The machine when a division is about to be made. -/
def dividing (m : Machine) (a : Temp) : Machine :=
  (m.set Register.eax.temp (m.regs a)).set Register.edx.temp (signWord (m.regs a))

theorem run_div (left right : Exp) (f : Temp) (hb : Kept n b) :
    run w ((Tile.div left right).block [a, b] f) m =
      match Word.quotient (m.regs a) (m.regs b) with
      | .error _ => .error .trap
      | .ok q => .ok ((((dividing m a).set Register.eax.temp q).set Register.edx.temp
          (BitVec.ofInt 32 ((m.regs a).toInt.tmod (m.regs b).toInt))).forget.set f q) := by
  have heax : (dividing m a).regs Register.eax.temp = m.regs a := rfl
  have hedx : (dividing m a).regs Register.edx.temp = signWord (m.regs a) := rfl
  have hright : (dividing m a).regs b = m.regs b := by
    rw [dividing, Machine.set_of_ne _ _ (hb.ne_of_mem (by decide)), Machine.set_of_ne _ _ (hb.ne_of_mem (by decide))]
  have hdiv := exec_div w (dividing m a) [Register.eax.temp, Register.edx.temp] b [Register.eax.temp, Register.edx.temp]
  rw [heax, hedx, hright, divide_signWord] at hdiv
  refine (run_next (exec_copy w m _ a) _).trans ((run_next (exec_signExtend w _ _ _) _).trans ?_)
  rw [Machine.set_self]
  cases hq : Word.quotient (m.regs a) (m.regs b) with
  | error h =>
    rw [hq] at hdiv
    exact run_trap hdiv _
  | ok q =>
    rw [hq] at hdiv
    exact (run_next hdiv _).trans (run_next (exec_copy w _ _ _) [])

theorem computes_div (left right : Exp) {q : Word} (hb : Kept n b)
    (hq : Word.quotient (m.regs a) (m.regs b) = .ok q) :
    Computes w n ((Tile.div left right).block [a, b] ⟨(n : Int) + 1⟩) m ⟨(n : Int) + 1⟩ q := by
  have hrun := run_div w m (a := a) left right ⟨(n : Int) + 1⟩ hb
  rw [hq] at hrun
  refine ⟨_, hrun, Machine.set_self .., rfl, ?_⟩
  intro t ht
  have heax := ht.ne_of_mem (u := Register.eax.temp) (by decide)
  have hedx := ht.ne_of_mem (u := Register.edx.temp) (by decide)
  rw [Machine.set_of_ne _ _ ht.ne_fresh, Machine.forget_regs, Machine.set_of_ne _ _ hedx, Machine.set_of_ne _ _ heax,
    dividing, Machine.set_of_ne _ _ hedx, Machine.set_of_ne _ _ heax]

theorem Kept.getD {regs : List Temp} (hregs : ∀ t ∈ regs, Kept n t) (i : Nat) : Kept n (regs.getD i ⟨0⟩) := by
  cases h : regs[i]? with
  | some t =>
    rw [List.getD_eq_getElem?_getD, h]
    exact hregs t (List.mem_of_getElem? h)
  | none =>
    rw [List.getD_eq_getElem?_getD, h]
    exact ⟨Int.natCast_nonneg n, by decide⟩

/-- The block of a tile computes what the tile means. -/
theorem Tile.computes (tile : Tile) {regs : List Temp} (hregs : ∀ t ∈ regs, Kept n t) {v : Word}
    (hv : tile.denote w.address m (m.regs (regs.getD 0 ⟨0⟩)) (m.regs (regs.getD 1 ⟨0⟩)) = .ok v) :
    Computes w n (tile.block regs (tile.fresh n)) m (tile.value regs (tile.fresh n)) v := by
  have hb := Kept.getD hregs 1
  cases tile with
  | load addr disp =>
    cases hv
    exact computes_of_set w m m.flags (run_next (exec_load ..) [])
  | loadAt addr =>
    cases hv
    exact computes_of_set w m m.flags (run_next (exec_loadAt ..) [])
  | arithConst op left i =>
    cases hv
    refine computes_of_update w m ((exec_arithConst w _ op i ⟨(n : Int) + 1⟩).trans ?_)
    rw [Machine.set_self]
  | arith op left right =>
    cases hv
    refine computes_of_update w m ((exec_arith w _ op ⟨(n : Int) + 1⟩ _).trans ?_)
    rw [Machine.set_self, Machine.set_of_ne _ _ hb.ne_fresh]
  | mulConst left i =>
    cases hv
    exact computes_of_set w m none (run_next (exec_mulConst ..) [])
  | mul left right =>
    cases hv
    refine computes_of_update w m ((exec_mul w _ ⟨(n : Int) + 1⟩ _).trans ?_)
    rw [Machine.set_self, Machine.set_of_ne _ _ hb.ne_fresh]
  | div left right => exact computes_div w m left right hb hv
  | shiftConst op left i =>
    cases hv
    refine computes_of_update w m ((exec_shiftConst w _ op i ⟨(n : Int) + 1⟩ _).trans ?_)
    rw [Machine.set_self]
  | shift op left right =>
    cases hv
    exact computes_shift w m op left right hb
  | const i =>
    cases hv
    exact computes_of_set w m m.flags (run_next (exec_loadConst ..) [])
  | temp t =>
    cases hv
    exact ⟨m, rfl, rfl, rfl, fun _ _ => rfl⟩
  | name l =>
    cases hv
    exact computes_of_set w m m.flags (run_next (exec_loadSymbol ..) [])
  | _ => cases hv

/-- The block of a tile traps if what the tile means does. -/
theorem Tile.traps (tile : Tile) {regs : List Temp} (hregs : ∀ t ∈ regs, Kept n t)
    (hv : tile.denote w.address m (m.regs (regs.getD 0 ⟨0⟩)) (m.regs (regs.getD 1 ⟨0⟩)) = .error .trap) (f : Temp) :
    run w (tile.block regs f) m = .error .trap := by
  cases tile with
  | div left right =>
    have hq : Word.quotient (m.regs (regs.getD 0 ⟨0⟩)) (m.regs (regs.getD 1 ⟨0⟩)) = .error .trap := hv
    have hrun := run_div w m (a := regs.getD 0 ⟨0⟩) left right f (Kept.getD hregs 1)
    rw [hq] at hrun
    exact hrun
  | _ => cases hv

end Block

/-! ### Lists of expressions -/

theorem quotient_trap_or_ok (a b : Word) : Word.quotient a b = .error .trap ∨ ∃ q, Word.quotient a b = .ok q := by
  rw [Word.quotient]
  split
  · exact .inl rfl
  · exact .inr ⟨_, rfl⟩

theorem apply_trap_or_ok {op : Op} (hop : op ∈ Op.listed) (a b : Word) :
    op.apply a b = .error .trap ∨ ∃ v, op.apply a b = .ok v := by
  cases op with
  | div => exact quotient_trap_or_ok a b
  | other n => simp [Op.listed] at hop
  | _ => exact .inr ⟨_, rfl⟩

theorem eval_trap_or_ok {n : Nat} {e : Exp} (he : e.plain n = true) (address : Label → Word) (m : Machine) :
    e.eval address m = .error .trap ∨ ∃ v, e.eval address m = .ok v := by
  fun_induction Exp.plain n e with
  | case1 v => exact .inr ⟨v, rfl⟩
  | case2 t => exact .inr ⟨_, rfl⟩
  | case3 l => exact .inr ⟨_, rfl⟩
  | case4 addr ih =>
    rw [Exp.eval]
    obtain h | ⟨a, h⟩ := ih he
    · exact .inl (by rw [h]; rfl)
    · exact .inr ⟨m.mem.load a, by rw [h]; rfl⟩
  | case5 op left right ihl ihr =>
    simp only [Bool.and_eq_true, decide_eq_true_eq] at he
    rw [Exp.eval]
    obtain hl | ⟨a, hl⟩ := ihl he.1.2
    · exact .inl (by rw [hl]; rfl)
    obtain hr | ⟨b, hr⟩ := ihr he.2
    · exact .inl (by rw [hl, hr]; rfl)
    rw [hl, hr]
    exact apply_trap_or_ok he.1.1 a b
  | case6 => cases he
  | case7 => cases he
  | case8 => cases he

/-- The trees are plain expressions. -/
def PlainExps (n : Nat) (xs : List Subtree) : Prop := ∀ x ∈ xs, ∃ e, x = .exp e ∧ e.plain n = true

theorem evalAll_congr {n : Nat} {xs : List Subtree} (hxs : PlainExps n xs) (address : Label → Word) {m m' : Machine}
    (hregs : ∀ t, Visible n t → m'.regs t = m.regs t) (hmem : m'.mem = m.mem) :
    evalAll address m' xs = evalAll address m xs := by
  induction xs with
  | nil => rfl
  | cons x rest ih =>
    obtain ⟨⟨e, rfl, he⟩, hrest⟩ := List.forall_mem_cons.mp hxs
    rw [evalAll, evalAll, Exp.eval_congr he address hregs hmem, ih hrest]

theorem kept_of_visible {k n : Nat} (hkn : k ≤ n) {t : Temp} (ht : Visible k t) : Kept n t := by
  obtain rfl | ⟨hpos, hle⟩ := ht
  · exact ⟨Int.le_trans (by decide) (Int.natCast_nonneg n), by decide⟩
  · refine ⟨by omega, ?_⟩
    intro hmem
    simp only [callerSaved, List.mem_cons, List.not_mem_nil, or_false] at hmem
    obtain rfl | rfl | rfl := hmem <;> revert hpos <;> decide

theorem Covers.plain_parts {e : Exp} {tile : Tile} (hcovers : Covers (.exp e) tile) {n : Nat} (he : e.plain n = true) :
    PlainExps n tile.parts := by
  cases hcovers with
  | _ => simp_all [PlainExps, Tile.parts, Exp.plain]

theorem kept_fresh (n : Nat) : Kept (n + 1) ⟨(n : Int) + 1⟩ := by
  refine ⟨Int.le_refl _, ?_⟩
  intro hmem
  simp only [callerSaved, List.mem_cons, List.not_mem_nil, or_false] at hmem
  obtain h | h | h := hmem
  · have hid : (n : Int) + 1 = -1 := congrArg Temp.id h
    omega
  · have hid : (n : Int) + 1 = -2 := congrArg Temp.id h
    omega
  · have hid : (n : Int) + 1 = -3 := congrArg Temp.id h
    omega

theorem Covers.kept_value {e : Exp} {tile : Tile} (hcovers : Covers (.exp e) tile) {k n : Nat}
    (he : e.plain k = true) (hk : k ≤ n) (regs : List Temp) :
    Kept (tile.next n) (tile.value regs (tile.fresh n)) := by
  cases hcovers with
  | call => cases he
  | callReg => cases he
  | eseq => cases he
  | temp t => exact kept_of_visible hk (of_decide_eq_true he)
  | _ => exact kept_fresh n

/-- What code for trees does from `m`: it traps if their evaluation does, and otherwise leaves their values in
registers, keeps memory and keeps registers. -/
structure Evaluates (w : World) (n : Nat) (xs : List Subtree) (code : List Instr) (regs : List Temp) (m : Machine) :
    Prop where
  traps : evalAll w.address m xs = .error .trap → run w code m = .error .trap
  computes : ∀ vs, evalAll w.address m xs = .ok vs → ∃ m', run w code m = .ok m' ∧ regs.map m'.regs = vs ∧
    m'.mem = m.mem ∧ ∀ t, Kept n t → m'.regs t = m.regs t

theorem getD_map {m : Machine} {regs : List Temp} {vs : List Word} (hmap : regs.map m.regs = vs) (i : Nat) :
    vs.getD i (m.regs ⟨0⟩) = m.regs (regs.getD i ⟨0⟩) := by
  rw [← hmap, List.getD_eq_getElem?_getD, List.getD_eq_getElem?_getD, List.getElem?_map]
  cases regs[i]? <;> rfl

section Node

variable {w : World} {k n n₁ : Nat} {e : Exp} {tile : Tile} {code : List Instr} {regs : List Temp} {m : Machine}

/-- Once the parts are evaluated, the meaning of the tree is what the tile does with the registers. -/
theorem Covers.eval_after (hcovers : Covers (.exp e) tile) (he : e.plain k = true) (hk : k ≤ n) {vs : List Word}
    (hvs : evalAll w.address m tile.parts = .ok vs) {m₁ : Machine} (hregs : regs.map m₁.regs = vs)
    (hmem : m₁.mem = m.mem) (hkept : ∀ t, Kept n t → m₁.regs t = m.regs t) :
    e.eval w.address m =
      tile.denote w.address m₁ (m₁.regs (regs.getD 0 ⟨0⟩)) (m₁.regs (regs.getD 1 ⟨0⟩)) := by
  have hvisible (t : Temp) (ht : Visible k t) : m₁.regs t = m.regs t := hkept t (kept_of_visible hk ht)
  rw [← Exp.eval_congr he w.address hvisible hmem, hcovers.eval he w.address m₁ (m₁.regs ⟨0⟩),
    evalAll_congr (hcovers.plain_parts he) w.address hvisible hmem, hvs, ← getD_map hregs 0, ← getD_map hregs 1]
  rfl

variable (hcovers : Covers (.exp e) tile) (he : e.plain k = true) (hk : k ≤ n) (hn : n ≤ n₁)
  (hregs : ∀ t ∈ regs, Kept n₁ t) (hparts : Evaluates w n tile.parts code regs m)

include hcovers he hk hregs hparts

theorem node_traps (htrap : e.eval w.address m = .error .trap) :
    run w (code ++ tile.block regs (tile.fresh n₁)) m = .error .trap := by
  have heval := hcovers.eval he w.address m 0
  rw [run_append]
  cases hvs : evalAll w.address m tile.parts with
  | error h =>
    rw [hvs, htrap] at heval
    cases heval
    rw [hparts.traps hvs]
    rfl
  | ok vs =>
    obtain ⟨m₁, hrun, hmap, hmem, hkept⟩ := hparts.computes vs hvs
    have hafter := hcovers.eval_after he hk hvs hmap hmem hkept
    rw [htrap] at hafter
    rw [hrun]
    exact tile.traps w m₁ hregs hafter.symm _

include hn

theorem node_computes {v : Word} (hv : e.eval w.address m = .ok v) :
    Computes w n (code ++ tile.block regs (tile.fresh n₁)) m (tile.value regs (tile.fresh n₁)) v := by
  have heval := hcovers.eval he w.address m 0
  cases hvs : evalAll w.address m tile.parts with
  | error h =>
    rw [hvs, hv] at heval
    cases heval
  | ok vs =>
    obtain ⟨m₁, hrun, hmap, hmem, hkept⟩ := hparts.computes vs hvs
    have hafter := hcovers.eval_after he hk hvs hmap hmem hkept
    rw [hv] at hafter
    obtain ⟨m₂, hrun₂, hvalue, hmem₂, hkept₂⟩ := tile.computes w m₁ hregs hafter.symm
    refine ⟨m₂, ?_, hvalue, hmem₂.trans hmem, ?_⟩
    · rw [run_append, hrun]
      exact hrun₂
    · intro t ht
      exact (hkept₂ t ⟨by have := ht.1; omega, ht.2⟩).trans (hkept t ht)

end Node

theorem Kept.mono {n n' : Nat} (hn : n ≤ n') {t : Temp} (ht : Kept n t) : Kept n' t :=
  ⟨by have := ht.1; omega, ht.2⟩

/-- The code of plain expressions evaluates them. -/
theorem Lowers.evaluates {n n' k : Nat} {xs : List Subtree} {code : List Instr} {regs : List Temp}
    (h : Lowers n xs code regs n') (hk : k ≤ n) (hxs : PlainExps k xs) (w : World) :
    (∀ t ∈ regs, Kept n' t) ∧ ∀ m, Evaluates w n xs code regs m := by
  induction h with
  | nil n =>
    refine ⟨fun t ht => (nomatch ht), fun m => ⟨fun htrap => (nomatch htrap), ?_⟩⟩
    intro vs hvs
    cases hvs
    exact ⟨m, rfl, rfl, rfl, fun _ _ => rfl⟩
  | @cons n n₁ n₂ x rest tile code code' regs regs' htile hparts hrest ihparts ihrest =>
    obtain ⟨⟨e, rfl, he⟩, hplain⟩ := List.forall_mem_cons.mp hxs
    have hcovers := covers_of_tile? htile
    have hn := hparts.le
    have hnext := tile.le_next n₁
    obtain ⟨hregs, hparts⟩ := ihparts hk (hcovers.plain_parts he)
    obtain ⟨hregs', hrest'⟩ := ihrest (by omega) hplain
    have hvalue := hcovers.kept_value he (Nat.le_trans hk hn) regs
    refine ⟨List.forall_mem_cons.mpr ⟨hvalue.mono hrest.le, hregs'⟩, fun m => ?_⟩
    obtain htrap | ⟨v, hv⟩ := eval_trap_or_ok he w.address m
    · have hnode := node_traps hcovers he hk hregs (hparts m) htrap
      refine ⟨fun _ => by rw [run_append, hnode]; rfl, fun vs hvs => ?_⟩
      rw [evalAll, htrap] at hvs
      cases hvs
    obtain ⟨m₁, hrun, hreg, hmem, hkept⟩ := node_computes hcovers he hk hn hregs (hparts m) hv
    -- Expressions change nothing that the trees behind them can see.
    have hsame : evalAll w.address m₁ rest = evalAll w.address m rest :=
      evalAll_congr hplain w.address (fun t ht => hkept t (kept_of_visible hk ht)) hmem
    have hall : evalAll w.address m (.exp e :: rest) = (evalAll w.address m₁ rest).bind fun vs => .ok (v :: vs) := by
      rw [evalAll, hv, hsame]
      rfl
    have hrun_all : run w (code ++ tile.block regs (tile.fresh n₁) ++ code') m = run w code' m₁ := by
      rw [run_append, hrun]
      rfl
    refine ⟨fun htrap => ?_, fun vs hvs => ?_⟩
    · rw [hrun_all]
      refine (hrest' m₁).traps ?_
      cases h : evalAll w.address m₁ rest with
      | error _ =>
        rw [hall, h] at htrap
        exact htrap
      | ok us =>
        rw [hall, h] at htrap
        cases htrap
    · cases h : evalAll w.address m₁ rest with
      | error _ =>
        rw [hall, h] at hvs
        cases hvs
      | ok us =>
        rw [hall, h] at hvs
        cases hvs
        obtain ⟨m₂, hrun₂, hmap, hmem₂, hkept₂⟩ := (hrest' m₁).computes us h
        refine ⟨m₂, hrun_all.trans hrun₂, ?_, hmem₂.trans hmem, ?_⟩
        · change m₂.regs _ :: regs'.map m₂.regs = v :: us
          rw [hkept₂ _ hvalue, hreg, hmap]
        · intro t ht
          exact (hkept₂ t (ht.mono (by omega))).trans (hkept t ht)

end X86

end Lowering
