import Lowering.Proofs.Operands.Writes
import Lowering.Proofs.Renaming.Registers
import Mathlib.Data.List.Basic

/-!
# Tiling renamed trees

Tiles look at the shape of a tree and at its constants, never at its registers, so a renamed tree has the renamed tile.
The code of a tree is therefore the same wherever its fresh registers come from, up to their names: `Lowers.rename`.
Every register that the code mentions is fixed or was handed out by then: `Lowers.valid`.
-/

namespace Lowering

/-- The subtree with other registers. -/
def Subtree.rename (r : Temp → Temp) : Subtree → Subtree
  | .stm s => .stm (s.rename r)
  | .exp e => .exp (e.rename r)

theorem Subtree.results_rename (r : Temp → Temp) (x : Subtree) (t : Temp) :
    (x.rename r).results (r t) = (x.results t).map r := by
  cases x <;> rfl

/-- Does the subtree have a value? -/
def Subtree.isExp : Subtree → Bool
  | .stm _ => false
  | .exp _ => true

/-- A fixed register, or one of the first `n` that were handed out. -/
def Temp.Valid (n : Nat) (t : Temp) : Prop := t.id < 0 ∨ 0 < t.id ∧ t.id ≤ n

theorem Temp.Valid.mono {n n' : Nat} {t : Temp} (h : t.Valid n) (hle : n ≤ n') : t.Valid n' := by
  obtain hneg | ⟨hpos, ht⟩ := h
  · exact .inl hneg
  · exact .inr ⟨hpos, by omega⟩

theorem Temp.Valid.pos {n : Nat} {t : Temp} (h : t.Valid n) (ht : t.isFixed = false) : 0 < t.id := by
  obtain hneg | ⟨hpos, -⟩ := h
  · exact absurd (decide_eq_true hneg) (Bool.eq_false_iff.mp ht)
  · exact hpos

theorem Temp.Valid.ne_zero {n : Nat} {t : Temp} (h : t.Valid n) : t.id ≠ 0 := by
  obtain hneg | ⟨hpos, -⟩ := h
  · omega
  · omega

theorem Temp.valid_fresh (n : Nat) : Temp.Valid (n + 1) ⟨(n : Int) + 1⟩ :=
  .inr ⟨by simp only; omega, by simp⟩

/-- A register that a body can name: the frame pointer, the result register, or one of the first `n` that were handed
out. -/
def Temp.Nameable (n : Nat) (t : Temp) : Prop :=
  t = X86.framePointer ∨ t = X86.resultRegister ∨ 0 < t.id ∧ t.id ≤ n

theorem Temp.Nameable.mono {n n' : Nat} {t : Temp} (h : t.Nameable n) (hle : n ≤ n') : t.Nameable n' := by
  obtain hfp | hrv | ⟨hpos, ht⟩ := h
  · exact .inl hfp
  · exact .inr (.inl hrv)
  · exact .inr (.inr ⟨hpos, by omega⟩)

theorem Temp.Nameable.valid {n : Nat} {t : Temp} (h : t.Nameable n) : t.Valid n := by
  obtain rfl | rfl | hfresh := h
  · exact .inl (by decide)
  · exact .inl (by decide)
  · exact .inr hfresh

theorem Temp.nameable_fresh (n : Nat) : Temp.Nameable (n + 1) ⟨(n : Int) + 1⟩ :=
  .inr (.inr ⟨by simp only; omega, by simp⟩)

namespace X86

/-- The tile with other registers. -/
def Tile.rename (r : Temp → Temp) : Tile → Tile
  | .store addr src disp => .store (addr.rename r) (src.rename r) disp
  | .storeConst addr disp value => .storeConst (addr.rename r) disp value
  | .storeAt addr src => .storeAt addr (src.rename r)
  | .setConst dst value => .setConst (r dst) value
  | .setLoad dst addr disp => .setLoad (r dst) (addr.rename r) disp
  | .setCopy dst src => .setCopy (r dst) (src.rename r)
  | .drop e => .drop (e.rename r)
  | .label l => .label l
  | .seq first second => .seq (first.rename r) (second.rename r)
  | .jump l => .jump l
  | .jumpReg target labels => .jumpReg (target.rename r) labels
  | .branchConst rel left right t f => .branchConst rel (left.rename r) right t f
  | .branch rel left right t f => .branch rel (left.rename r) (right.rename r) t f
  | .load addr disp => .load (addr.rename r) disp
  | .loadAt addr => .loadAt addr
  | .arithConst op left right => .arithConst op (left.rename r) right
  | .arith op left right => .arith op (left.rename r) (right.rename r)
  | .mulConst left right => .mulConst (left.rename r) right
  | .mul left right => .mul (left.rename r) (right.rename r)
  | .div left right => .div (left.rename r) (right.rename r)
  | .shiftConst op left count => .shiftConst op (left.rename r) count
  | .shift op left count => .shift op (left.rename r) (count.rename r)
  | .const value => .const value
  | .temp reg => .temp (r reg)
  | .name l => .name l
  | .eseq s e => .eseq (s.rename r) (e.rename r)
  | .call func args => .call func (Exp.renameAll r args)
  | .callReg func args => .callReg (func.rename r) (Exp.renameAll r args)

/-! ### The tile of a renamed tree -/

section Choice

variable (r : Temp → Temp)

@[simp] theorem constOf?_rename (e : Exp) : constOf? (e.rename r) = constOf? e := by
  cases e <;> rfl

/-- The address with other registers. -/
def Address.rename : Address → Address
  | .based base disp takesConst => .based (base.rename r) disp takesConst
  | .absolute addr => .absolute addr

theorem addressOf_rename (e : Exp) : addressOf (e.rename r) = (addressOf e).rename r := by
  cases e with
  | bin op left right =>
    cases op with
    | plus =>
      simp only [Exp.rename, addressOf, constOf?_rename]
      cases constOf? right with
      | some i => rfl
      | none => cases constOf? left <;> rfl
    | minus =>
      simp only [Exp.rename, addressOf, constOf?_rename]
      cases constOf? right <;> rfl
    | _ => rfl
  | _ => rfl

theorem loadTile_rename (addr : Exp) : loadTile (addr.rename r) = (loadTile addr).rename r := by
  rw [loadTile, loadTile, addressOf_rename]
  cases addressOf addr <;> rfl

theorem storeTile_rename (addr src : Exp) :
    storeTile (addr.rename r) (src.rename r) = (storeTile addr src).rename r := by
  rw [storeTile, storeTile, addressOf_rename, constOf?_rename]
  cases addressOf addr with
  | based base disp takesConst =>
    cases takesConst with
    | true => cases constOf? src <;> rfl
    | false => rfl
  | absolute i => rfl

theorem setTile_rename (dst : Temp) (src : Exp) : setTile (r dst) (src.rename r) = (setTile dst src).rename r := by
  cases src with
  | mem addr =>
    cases addr with
    | bin op left right =>
      cases op with
      | plus =>
        simp only [Exp.rename, setTile, constOf?_rename]
        cases constOf? right <;> rfl
      | _ => rfl
    | _ => rfl
  | _ => rfl

theorem branchTile_rename (rel : Rel) (left right : Exp) (t f : Label) :
    branchTile rel (left.rename r) (right.rename r) t f = (branchTile rel left right t f).rename r := by
  rw [branchTile, branchTile, constOf?_rename, constOf?_rename]
  cases constOf? right with
  | some i => rfl
  | none => cases constOf? left <;> rfl

theorem arithTile_rename (op : Arith) (left right : Exp) :
    arithTile op (left.rename r) (right.rename r) = (arithTile op left right).rename r := by
  rw [arithTile, arithTile, constOf?_rename, constOf?_rename]
  cases constOf? right with
  | some i => rfl
  | none =>
    cases constOf? left with
    | some i =>
      dsimp only
      split <;> rfl
    | none => rfl

theorem mulTile_rename (left right : Exp) :
    mulTile (left.rename r) (right.rename r) = (mulTile left right).rename r := by
  rw [mulTile, mulTile, constOf?_rename, constOf?_rename]
  cases constOf? right with
  | some i => rfl
  | none => cases constOf? left <;> rfl

theorem shiftTile_rename (op : Shift) (left right : Exp) :
    shiftTile op (left.rename r) (right.rename r) = (shiftTile op left right).rename r := by
  rw [shiftTile, shiftTile, constOf?_rename]
  cases constOf? right <;> rfl

theorem opTile?_rename (op : Op) (left right : Exp) :
    opTile? op (left.rename r) (right.rename r) = (opTile? op left right).map (Tile.rename r) := by
  cases op with
  | mul => exact congrArg some (mulTile_rename r left right)
  | div | other => rfl
  | shl | shr | sar => exact congrArg some (shiftTile_rename r _ left right)
  | plus | minus | and | or | xor => exact congrArg some (arithTile_rename r _ left right)

/-- A renamed tree has the renamed tile. -/
theorem tile?_rename (x : Subtree) : tile? (x.rename r) = (tile? x).map (Tile.rename r) := by
  cases x with
  | stm s =>
    cases s with
    | move dst src =>
      cases dst with
      | mem addr => exact congrArg some (storeTile_rename r addr src)
      | temp dst => exact congrArg some (setTile_rename r dst src)
      | _ => rfl
    | jump target labels => cases target <;> rfl
    | cjump rel left right t f => exact congrArg some (branchTile_rename r rel left right t f)
    | _ => rfl
  | exp e =>
    cases e with
    | mem addr => exact congrArg some (loadTile_rename r addr)
    | bin op left right => exact opTile?_rename r op left right
    | call func args => cases func <;> rfl
    | _ => rfl

end Choice

/-! ### The code of a renamed tile -/

section Code

variable (r : Renaming)

@[simp] theorem apply_register (x : Register) : r x.temp = x.temp := r.keeps (by cases x <;> decide)

@[simp] theorem apply_stackPointer : r stackPointer = stackPointer := apply_register r .esp

@[simp] theorem apply_resultRegister : r resultRegister = resultRegister := apply_register r .eax

@[simp] theorem map_callerSaved : callerSaved.map r = callerSaved := by
  simp [callerSaved]

@[simp] theorem apply_getD (t : Option Temp) : (t.map r).getD ⟨0⟩ = r (t.getD ⟨0⟩) := by
  cases t with
  | none => exact r.apply_zero.symm
  | some t => rfl

theorem registerArgs_rename (args : List Exp) :
    registerArgs (Exp.renameAll r args) = (registerArgs args).map (Exp.rename r) := by
  rw [Exp.renameAll_eq_map, registerArgs, registerArgs, List.filter_map]
  exact congrArg _ (List.filter_congr fun e _ => by simp)

theorem placeArgs_rename (args : List Exp) (regs : List Temp) :
    placeArgs (Exp.renameAll r args) (regs.map r) = (placeArgs args regs).map (Sum.map id r) := by
  induction args generalizing regs with
  | nil => rfl
  | cons e rest ih =>
    have hhead : (regs.map r).headD ⟨0⟩ = r (regs.headD ⟨0⟩) := by
      cases regs with
      | nil => exact (r.apply_zero).symm
      | cons => rfl
    rw [Exp.renameAll, placeArgs, placeArgs, constOf?_rename]
    cases constOf? e with
    | some i => exact congrArg (_ :: ·) (ih regs)
    | none =>
      dsimp only
      rw [hhead, List.map_cons, ← ih, List.map_tail]
      rfl

theorem push_rename (v : Word ⊕ Temp) : (push v).rename r = push (v.map id r) := by
  cases v <;> simp [push, oper, Instr.rename]

theorem callBlock_rename (call : Instr) (args : List (Word ⊕ Temp)) (fresh : Temp) :
    (callBlock call args fresh).map (Instr.rename r) =
      callBlock (call.rename r) (args.map (Sum.map id r)) (r fresh) := by
  have hpop : (if args.length ≠ 0 then [oper (.pop (args.length * wordSize)) [stackPointer] [stackPointer]]
      else []).map (Instr.rename r) =
      if args.length ≠ 0 then [oper (.pop (args.length * wordSize)) [stackPointer] [stackPointer]] else [] := by
    split
    · simp [oper, Instr.rename]
    · rfl
  have hpushes : (args.reverse.map push).map (Instr.rename r) = (args.map (Sum.map id r)).reverse.map push := by
    simp [push_rename]
  simp only [callBlock, List.map_append, hpushes, hpop, List.length_map]
  simp [copy, Instr.rename]

namespace Tile

variable (tile : Tile) (regs : List Temp) (fresh : Temp)

theorem parts_rename : (tile.rename r).parts = tile.parts.map (Subtree.rename r) := by
  cases tile with
  | call func args =>
    simp [rename, parts, registerArgs_rename, Function.comp_def, Subtree.rename]
  | callReg func args =>
    simp [rename, parts, registerArgs_rename, Function.comp_def, Subtree.rename]
  | _ => rfl

theorem takesFresh_rename : (tile.rename r).takesFresh = tile.takesFresh := by
  cases tile <;> rfl

theorem block_rename : (tile.rename r).block (regs.map r) (r fresh) = (tile.block regs fresh).map (Instr.rename r) := by
  cases tile with
  | call func args =>
    rw [rename, block, block, placeArgs_rename, callBlock_rename]
    simp [Instr.rename]
  | callReg func args =>
    rw [rename, block, block, ← List.map_tail, placeArgs_rename, callBlock_rename]
    simp [Instr.rename, oper]
  | _ => simp [rename, block, oper, copy, X86.branch, Instr.rename]

theorem value_rename : (tile.rename r).value (regs.map r) (r fresh) = r (tile.value regs fresh) := by
  cases tile with
  | eseq s e => simp [rename, value]
  | _ => rfl

end Tile

end Code

/-! ### Derivations -/

section Supply

variable {S : Supply} {r : Renaming} {d : Nat} (hr : S.Renames r d)

include hr

theorem Tile.fresh_rename (tile : Tile) (n : Nat) :
    (tile.rename r).fresh (S := S) (n + d) = r (tile.fresh (S := .inOrder) n) := by
  change (if (tile.rename r).takesFresh then S.register (n + d) else ⟨0⟩) =
    r (if tile.takesFresh then ⟨(n : Int) + 1⟩ else ⟨0⟩)
  rw [takesFresh_rename]
  split
  · exact hr n
  · exact r.apply_zero.symm

omit hr in
theorem Tile.next_rename (r : Renaming) (d : Nat) (tile : Tile) (n : Nat) :
    (tile.rename r).next (n + d) = tile.next n + d := by
  rw [Tile.next, Tile.next, takesFresh_rename]
  split <;> omega

/-- Trees lowered with other registers have the same code, renamed. -/
theorem Lowers.rename {n n' : Nat} {xs : List Subtree} {code : List Instr} {regs : List Temp}
    (h : Lowers (S := .inOrder) n xs code regs n') :
    Lowers (S := S) (n + d) (xs.map (Subtree.rename r)) (code.map (Instr.rename r)) (regs.map r) (n' + d) := by
  induction h with
  | nil n => exact .nil (n + d)
  | @cons n n₁ n₂ x rest tile code code' regs regs' htile hparts hrest ihparts ihrest =>
    have htile' : tile? (x.rename r) = some (tile.rename r) := by
      rw [tile?_rename, htile]
      rfl
    rw [← Tile.parts_rename] at ihparts
    rw [← Tile.next_rename] at ihrest
    have h := Lowers.cons (S := S) htile' ihparts ihrest
    rw [Tile.fresh_rename hr, Tile.block_rename, Tile.value_rename, Subtree.results_rename] at h
    simpa only [List.map_append, List.map_cons] using h

end Supply

/-! ### The registers of code -/

/-- There is a register for every expression. -/
theorem Lowers.length_values {n n' : Nat} {xs : List Subtree} {code : List Instr} {regs : List Temp}
    (h : Lowers n xs code regs n') : regs.length = xs.countP Subtree.isExp := by
  induction h with
  | nil n => rfl
  | @cons n n₁ n₂ x rest tile code code' regs regs' _ _ _ _ ihrest =>
    rw [List.length_append, ihrest, List.countP_cons, Nat.add_comm]
    cases x <;> rfl

theorem mem_of_placeArgs {args : List Exp} {regs : List Temp} (hregs : regs.length = (registerArgs args).length)
    {t : Temp} (ht : Sum.inr t ∈ placeArgs args regs) : t ∈ regs := by
  induction args generalizing regs with
  | nil => cases ht
  | cons e rest ih =>
    rw [registerArgs] at hregs ih
    rw [placeArgs] at ht
    cases hconst : constOf? e with
    | some i =>
      rw [List.filter_cons_of_neg (by simp [hconst])] at hregs
      rw [hconst] at ht
      obtain ht | ht := List.mem_cons.mp ht
      · cases ht
      · exact ih hregs ht
    | none =>
      rw [List.filter_cons_of_pos (by simp [hconst])] at hregs
      rw [hconst] at ht
      cases regs with
      | nil => cases hregs
      | cons a regs =>
        obtain ht | ht := List.mem_cons.mp ht
        · cases ht
          exact List.mem_cons_self
        · exact List.mem_cons_of_mem a (ih (Nat.succ.inj hregs) ht)

theorem uses_callBlock {call x : Instr} {args : List (Word ⊕ Temp)} {fresh t : Temp}
    (hx : x ∈ callBlock call args fresh) (ht : t ∈ x.uses) : .inr t ∈ args ∨ t ∈ call.uses ∨ t.id < 0 := by
  have hpush (v : Word ⊕ Temp) (hv : v ∈ args) (ht : t ∈ (push v).uses) : .inr t ∈ args ∨ t = stackPointer := by
    cases v with
    | inl i => exact .inr (List.mem_singleton.mp ht)
    | inr u =>
      obtain rfl | ht := List.mem_cons.mp ht
      · exact .inl hv
      · exact .inr (List.mem_singleton.mp ht)
  simp only [callBlock, List.mem_append, List.mem_map, List.mem_reverse, List.mem_singleton] at hx
  obtain ((⟨v, hv, rfl⟩ | rfl) | hpop) | rfl := hx
  · obtain harg | rfl := hpush v hv ht
    · exact .inl harg
    · exact .inr (.inr (by decide))
  · exact .inr (.inl ht)
  · split at hpop
    · obtain rfl := List.mem_singleton.mp hpop
      obtain rfl := List.mem_singleton.mp ht
      exact .inr (.inr (by decide))
    · cases hpop
  · obtain rfl := List.mem_singleton.mp ht
    exact .inr (.inr (by decide))

theorem countP_isExp_map (es : List Exp) : (es.map Subtree.exp).countP Subtree.isExp = es.length := by
  rw [List.countP_map]
  exact List.countP_eq_length.mpr fun _ _ => rfl

section CallUses

variable {args : List Exp} {regs : List Temp} {fresh t : Temp} {x : Instr}

/-- A call uses the registers of its arguments. -/
theorem Tile.uses_call {func : Label} (hregs : regs.length = (Tile.call func args).parts.countP Subtree.isExp)
    (hx : x ∈ (Tile.call func args).block regs fresh) (ht : t ∈ x.uses) : t ∈ regs ∨ t.id < 0 := by
  obtain harg | hcall | hfixed := uses_callBlock hx ht
  · exact .inl (mem_of_placeArgs (hregs.trans (countP_isExp_map _)) harg)
  · cases hcall
  · exact .inr hfixed

/-- A call through a register uses this one and those of its arguments. -/
theorem Tile.uses_callReg {func : Exp} (hregs : regs.length = (Tile.callReg func args).parts.countP Subtree.isExp)
    (hx : x ∈ (Tile.callReg func args).block regs fresh) (ht : t ∈ x.uses) : t ∈ regs ∨ t.id < 0 := by
  rw [Tile.parts, List.countP_cons_of_pos rfl, countP_isExp_map] at hregs
  cases regs with
  | nil => cases hregs
  | cons a regs =>
    obtain harg | hcall | hfixed := uses_callBlock hx ht
    · exact .inl (List.mem_cons_of_mem a (mem_of_placeArgs (Nat.succ.inj hregs) harg))
    · exact .inl (List.mem_singleton.mp hcall ▸ List.mem_cons_self)
    · exact .inr hfixed

end CallUses

/-- A block uses the registers of its parts, the fresh one and fixed ones. -/
theorem Tile.uses_block {tile : Tile} {regs : List Temp} {fresh t : Temp}
    (hregs : regs.length = tile.parts.countP Subtree.isExp) {x : Instr} (hx : x ∈ tile.block regs fresh)
    (ht : t ∈ x.uses) : t ∈ regs ∨ t.id < 0 ∨ tile.takesFresh = true ∧ t = fresh := by
  cases tile with
  | call func args => exact (uses_call hregs hx ht).imp_right .inl
  | callReg func args => exact (uses_callReg hregs hx ht).imp_right .inl
  | store | branch | arith | mul | div | shift =>
    have hfixed (x : Register) : x.temp.id < 0 := by cases x <;> decide
    obtain ⟨a, b, rfl⟩ := List.length_eq_two.mp hregs
    simp only [Tile.block, List.mem_cons, List.not_mem_nil, or_false] at hx
    grind [oper, copy, X86.branch, Instr.uses, Tile.takesFresh]
  | storeConst | storeAt | setLoad | setCopy | jumpReg | branchConst | load | arithConst | mulConst | shiftConst =>
    obtain ⟨a, rfl⟩ := List.length_eq_one_iff.mp hregs
    simp only [Tile.block, List.mem_cons, List.not_mem_nil, or_false] at hx
    grind [oper, copy, X86.branch, Instr.uses, Tile.takesFresh]
  | setConst | label | jump | loadAt | const | name =>
    obtain rfl := List.mem_singleton.mp hx
    cases ht
  | drop | seq | temp | eseq => cases hx

/-- Code mentions only fixed registers and registers handed out by its end, if its trees do. -/
theorem Lowers.valid {n n' : Nat} {xs : List Subtree} {code : List Instr} {regs : List Temp}
    (h : Lowers n xs code regs n') (hxs : ∀ x ∈ xs, ∀ t ∈ x.temps, t.Valid n) :
    (∀ t ∈ Check.mentioned code [], t.Valid n') ∧ ∀ t ∈ regs, t.Valid n' := by
  induction h with
  | nil n => exact ⟨List.forall_mem_nil _, List.forall_mem_nil _⟩
  | @cons n n₁ n₂ x rest tile code code' regs regs' htile hparts hrest ihparts ihrest =>
    have hcovers := covers_of_tile? htile
    obtain ⟨hx, hrest'⟩ := List.forall_mem_cons.mp hxs
    have hn := hparts.le
    have hnext := tile.le_next n₁
    have hn₂ := hrest.le
    obtain ⟨hcode, hregs⟩ := ihparts fun y hy t ht => hx t (hcovers.temps_parts hy ht)
    obtain ⟨hcode', hregs'⟩ := ihrest fun y hy t ht => (hrest' y hy t ht).mono (Nat.le_trans hn hnext)
    have hregs₂ : ∀ t ∈ regs, t.Valid n₂ := fun t ht => (hregs t ht).mono (Nat.le_trans hnext hn₂)
    have hfresh (htakes : tile.takesFresh = true) : (tile.fresh n₁).Valid n₂ := by
      rw [Tile.next, if_pos htakes] at hn₂
      rw [Tile.fresh_inOrder htakes]
      exact (Temp.valid_fresh n₁).mono hn₂
    have hblock : ∀ t ∈ Check.mentioned (tile.block regs (tile.fresh n₁)) [], t.Valid n₂ := by
      intro t ht
      obtain hnone | ⟨i, hi, huse | hdef⟩ := Check.mem_mentioned.mp ht
      · cases hnone
      · obtain hreg | hneg | ⟨htakes, rfl⟩ := Tile.uses_block hparts.length_values hi huse
        · exact hregs₂ t hreg
        · exact .inl hneg
        · exact hfresh htakes
      · obtain hset | ⟨htakes, rfl⟩ := (tile.mem_definedBy_block regs _ t).mp (List.mem_flatMap.mpr ⟨i, hi, hdef⟩)
        · obtain hmem | hside := hcovers.temps_of_sets hset
          · exact (hx t hmem).mono (Nat.le_trans hn (Nat.le_trans hnext hn₂))
          · exact .inl (neg_of_mem_sideRegisters hside)
        · exact hfresh htakes
    have hvalue : ∀ t ∈ x.results (tile.value regs (tile.fresh n₁)), t.Valid n₂ := by
      intro t ht
      cases x with
      | stm s => cases ht
      | exp e =>
        obtain rfl := List.mem_singleton.mp ht
        cases hcovers with
        | temp t => exact (hx t List.mem_cons_self).mono (Nat.le_trans hn (Nat.le_trans hnext hn₂))
        | eseq s e =>
          obtain ⟨a, rfl⟩ := List.length_eq_one_iff.mp hparts.length_values
          exact hregs₂ a List.mem_cons_self
        | _ => exact hfresh rfl
    refine ⟨fun t ht => ?_, List.forall_mem_append.mpr ⟨hvalue, hregs'⟩⟩
    rw [Check.mentioned_append, Check.mentioned_append, List.mem_append, List.mem_append] at ht
    obtain (ht | ht) | ht := ht
    · exact (hcode t ht).mono (Nat.le_trans hnext hn₂)
    · exact hblock t ht
    · exact hcode' t ht

end X86

end Lowering
