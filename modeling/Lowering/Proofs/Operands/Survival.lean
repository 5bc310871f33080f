import Lowering.Proofs.Operands.Changes
import Lowering.Proofs.Tiling.Coverage
import Lowering.X86.Frame

/-!
# Operands between their evaluation and their use

A node with several operands has them evaluated from left to right and consumes them afterwards. In between, the code
of the later operands runs, and a division or a call sets up registers of its own. A value in a fresh register survives
this. A register that the tree names is handed on without a copy, so it survives only if nothing in between writes it;
`Lost` is that condition, read off the tree alone.
-/

namespace Lowering.X86

/-! ### Where a block consumes its operands -/

/-- The number of arguments behind the `i`-th one that needs a register. -/
def argsBehind : List Exp → Nat → Nat
  | [], _ => 0
  | e :: rest, i =>
    if (constOf? e).isSome then argsBehind rest i
    else if i = 0 then rest.length
    else argsBehind rest (i - 1)

/-- Arguments are pushed from right to left. -/
theorem getElem?_reverse_placeArgs {args : List Exp} {regs : List Temp} {i : Nat}
    (hregs : regs.length = (registerArgs args).length) (hi : i < regs.length) :
    argsBehind args i < args.length ∧
      (placeArgs args regs).reverse[argsBehind args i]? = some (.inr (regs.getD i ⟨0⟩)) := by
  induction args generalizing regs i with
  | nil =>
    have : regs.length = 0 := hregs
    omega
  | cons e rest ih =>
    rw [argsBehind, placeArgs]
    cases he : constOf? e with
    | some v =>
      have hregs : regs.length = (registerArgs rest).length := by simpa [registerArgs, he] using hregs
      obtain ⟨hlt, hget⟩ := ih hregs hi
      rw [Option.isSome_some, if_pos rfl, List.length_cons]
      refine ⟨by omega, ?_⟩
      rw [List.reverse_cons, List.getElem?_append_left (by rw [List.length_reverse, length_placeArgs]; exact hlt)]
      exact hget
    | none =>
      obtain _ | ⟨r, rs⟩ := regs
      · cases hi
      have hregs : rs.length = (registerArgs rest).length := by simpa [registerArgs, he] using hregs
      rw [Option.isSome_none, if_neg Bool.false_ne_true, List.length_cons]
      cases i with
      | zero =>
        rw [if_pos rfl]
        refine ⟨by omega, ?_⟩
        rw [List.reverse_cons,
          List.getElem?_append_right (Nat.le_of_eq (by rw [List.length_reverse, length_placeArgs]))]
        rw [List.length_reverse, length_placeArgs, Nat.sub_self]
        rfl
      | succ i =>
        obtain ⟨hlt, hget⟩ := ih hregs (Nat.lt_of_succ_lt_succ hi)
        rw [if_neg (Nat.succ_ne_zero i), Nat.add_sub_cancel]
        refine ⟨by omega, ?_⟩
        rw [List.reverse_cons, List.getElem?_append_left (by rw [List.length_reverse, length_placeArgs]; exact hlt)]
        exact hget

/-- The push of an argument, and what the pushes before it change. -/
theorem callBlock_push {args : List Exp} {regs : List Temp} {i : Nat}
    (hregs : regs.length = (registerArgs args).length) (hi : i < regs.length) (call : Instr) (fresh : Temp) :
    (callBlock call (placeArgs args regs) fresh)[argsBehind args i]? = some (push (.inr (regs.getD i ⟨0⟩))) := by
  obtain ⟨hlt, hget⟩ := getElem?_reverse_placeArgs hregs hi
  have hlength : ((placeArgs args regs).reverse.map push).length = args.length := by
    rw [List.length_map, List.length_reverse, length_placeArgs]
  rw [callBlock, List.append_assoc, List.append_assoc, List.getElem?_append_left (by omega), List.getElem?_map, hget]
  rfl

theorem mem_definedBy_take_callBlock {args : List Exp} {regs : List Temp} {k : Nat} (hk : k ≤ args.length)
    (call : Instr) (fresh t : Temp) :
    t ∈ definedBy ((callBlock call (placeArgs args regs) fresh).take k) ↔ t ∈ if k = 0 then [] else [stackPointer] := by
  have hlength : (placeArgs args regs).reverse.length = args.length := by rw [List.length_reverse, length_placeArgs]
  have htake : ((placeArgs args regs).reverse.take k ≠ []) ↔ k ≠ 0 := by
    rw [← List.length_pos_iff, List.length_take, hlength]
    omega
  rw [callBlock, List.append_assoc, List.append_assoc, List.take_append_of_le_length (by rw [List.length_map]; omega),
    ← List.map_take, mem_definedBy_pushes, htake]
  by_cases hzero : k = 0 <;> simp [hzero]

namespace Tile

/-- The position in the block of a tile at which it consumes the register of its `i`-th part. -/
def consumedAt : Tile → Nat → Nat
  | .arith .., i | .mul .., i | .shift .., i => i
  | .div .., i => 2 * i
  | .call _ args, i => argsBehind args i
  | .callReg _ args, 0 => args.length
  | .callReg _ args, i + 1 => argsBehind args i
  | _, _ => 0

/-- The registers that the block of a tile sets before it consumes its `i`-th part, the fresh one apart: a division
sets up its dividend, and a call moves the stack pointer with every argument it pushes. -/
def setUp : Tile → Nat → List Temp
  | .div .., i => if i = 0 then [] else [Register.eax.temp, Register.edx.temp]
  | .call func args, i => if (Tile.call func args).consumedAt i = 0 then [] else [stackPointer]
  | .callReg func args, i => if (Tile.callReg func args).consumedAt i = 0 then [] else [stackPointer]
  | _, _ => []

/-- Tiles with at least two parts, all of them expressions. -/
def HasOperands (tile : Tile) (es : List Exp) : Prop := tile.parts = es.map .exp ∧ 2 ≤ es.length

theorem HasOperands.two {tile : Tile} {es : List Exp} (h : tile.HasOperands es) {left right : Exp}
    (hparts : tile.parts = [.exp left, .exp right]) : es.length = 2 := by
  have hlength := congrArg List.length (hparts.symm.trans h.1)
  simpa using hlength.symm

/-- The register of every operand is used at its position. -/
theorem consumes {tile : Tile} {es : List Exp} (h : tile.HasOperands es) {regs : List Temp} (fresh : Temp)
    (hregs : regs.length = es.length) {i : Nat} (hi : i < es.length) :
    ∃ x, (tile.block regs fresh)[tile.consumedAt i]? = some x ∧ regs.getD i ⟨0⟩ ∈ x.uses := by
  have hlength : tile.parts.length = es.length := by rw [h.1, List.length_map]
  have htwo := h.2
  cases tile with
  | store | branch | arith | mul | div | shift =>
    obtain rfl | rfl : i = 0 ∨ i = 1 := by
      have := h.two rfl
      omega
    all_goals exact ⟨_, rfl, by simp [Instr.uses, oper, copy]⟩
  | call func args =>
    have hargs : regs.length = (registerArgs args).length := by
      rw [hregs, ← hlength, Tile.parts, List.length_map]
    exact ⟨_, callBlock_push hargs (by omega) _ fresh, List.mem_cons_self⟩
  | callReg func args =>
    obtain _ | ⟨f, rs⟩ := regs
    · rw [List.length_nil] at hregs
      omega
    have hargs : rs.length = (registerArgs args).length := by
      simpa [Tile.parts, ← hregs] using hlength.symm
    cases i with
    | zero =>
      refine ⟨oper .callReg callerSaved [f], ?_, List.mem_cons_self⟩
      rw [Tile.block, Tile.consumedAt, callBlock, List.append_assoc, List.append_assoc]
      rw [List.getElem?_append_right (by simp [length_placeArgs])]
      simp [length_placeArgs]
    | succ i => exact ⟨_, callBlock_push hargs (by rw [List.length_cons] at hregs; omega) _ fresh, List.mem_cons_self⟩
  | seq first second | eseq s e =>
    cases es <;> cases h.1
  | _ =>
    simp only [Tile.parts, List.length_cons, List.length_nil] at hlength
    omega

/-- Before that position the block changes what it sets up, and the fresh register. -/
theorem mem_definedBy_take {tile : Tile} {es : List Exp} (h : tile.HasOperands es) {regs : List Temp} {fresh t : Temp}
    (hregs : regs.length = es.length) {i : Nat} (hi : i < es.length) (ht : tile.takesFresh = true → t ≠ fresh) :
    t ∈ definedBy ((tile.block regs fresh).take (tile.consumedAt i)) ↔ t ∈ tile.setUp i := by
  have hlength : tile.parts.length = es.length := by rw [h.1, List.length_map]
  have htwo := h.2
  cases tile with
  | store | branch | arith | mul | div | shift =>
    obtain rfl | rfl : i = 0 ∨ i = 1 := by
      have := h.two rfl
      omega
    all_goals simp_all [Tile.block, Tile.consumedAt, Tile.setUp, Tile.takesFresh]
  | call func args =>
    have hargs : regs.length = (registerArgs args).length := by
      rw [hregs, ← hlength, Tile.parts, List.length_map]
    have hlt := (getElem?_reverse_placeArgs hargs (i := i) (by omega)).1
    exact mem_definedBy_take_callBlock (Nat.le_of_lt hlt) _ fresh t
  | callReg func args =>
    obtain _ | ⟨f, rs⟩ := regs
    · rw [List.length_nil] at hregs
      omega
    have hargs : rs.length = (registerArgs args).length := by
      simpa [Tile.parts, ← hregs] using hlength.symm
    cases i with
    | zero => exact mem_definedBy_take_callBlock (Nat.le_refl _) _ fresh t
    | succ i =>
      have hlt := (getElem?_reverse_placeArgs hargs (i := i) (by rw [List.length_cons] at hregs; omega)).1
      exact mem_definedBy_take_callBlock (Nat.le_of_lt hlt) _ fresh t
  | seq first second | eseq s e =>
    cases es <;> cases h.1
  | _ =>
    simp only [Tile.parts, List.length_cons, List.length_nil] at hlength
    omega

theorem setUp_neg {tile : Tile} {i : Nat} {t : Temp} (ht : t ∈ tile.setUp i) : t.id < 0 := by
  cases tile with
  | div left right =>
    rw [Tile.setUp] at ht
    split at ht
    · cases ht
    · simp only [List.mem_cons, List.not_mem_nil, or_false] at ht
      rcases ht with rfl | rfl <;> decide
  | call func args | callReg func args =>
    rw [Tile.setUp] at ht
    split at ht
    · cases ht
    · obtain rfl := List.mem_singleton.mp ht
      decide
  | _ => cases ht

end Tile

/-! ### Operands of a node -/

/-- The value of operand `e` is in a register of the tree, which the later operands or the node itself write before
it is consumed. -/
def Lost (tile : Tile) (i : Nat) (e : Exp) (later : List Exp) : Prop :=
  ∃ t, e.carrier = some t ∧ (t ∈ Exp.writesAll later ∨ t ∈ tile.setUp i)

instance (tile : Tile) (i : Nat) (e : Exp) (later : List Exp) : Decidable (Lost tile i e later) :=
  match he : e.carrier with
  | none => isFalse fun ⟨_, ht, _⟩ => nomatch he.symm.trans ht
  | some t => decidable_of_iff (t ∈ Exp.writesAll later ∨ t ∈ tile.setUp i)
      ⟨fun h => ⟨t, he, h⟩, fun ⟨_, hu, h⟩ => Option.some.inj (he.symm.trans hu) ▸ h⟩

/-- For a node whose code stands behind `pre`, with the counter at `n`: between the operands `earlier` and `later`,
the value of `e` is in `reg` from position `start` on, and is consumed at position `stop`. -/
inductive OperandAt (n : Nat) (pre : List Instr) (tile : Tile) (earlier : List Exp) (e : Exp) (later : List Exp) :
    (reg : Temp) → (start stop : Nat) → Prop where
  | mk {c₁ c₂ c₃ : List Instr} {r₁ r₃ : List Temp} {reg : Temp} {n₁ n₂ n₃ : Nat}
      (hearlier : Lowers n (earlier.map .exp) c₁ r₁ n₁) (he : Lowers n₁ [.exp e] c₂ [reg] n₂)
      (hlater : Lowers n₂ (later.map .exp) c₃ r₃ n₃) :
      OperandAt n pre tile earlier e later reg (pre ++ c₁ ++ c₂).length
        ((pre ++ c₁ ++ c₂ ++ c₃).length + tile.consumedAt earlier.length)

/-- What becomes of an operand between the positions where it is computed and where it is consumed. -/
structure OperandFate (code : List Instr) (reg : Temp) (start stop : Nat) (lost : Prop) : Prop where
  consumed : ∃ x, code[stop]? = some x ∧ reg ∈ x.uses
  redefined_iff : (∃ pc x, Within start stop pc ∧ code[pc]? = some x ∧ reg ∈ x.defs) ↔ lost
  survives : ¬lost → ∀ w m m', Path w code (Within start stop) (start, m) (stop, m') → m'.regs reg = m.regs reg

theorem Lowers.length_regs {n n' : Nat} {es : List Exp} {code : List Instr} {regs : List Temp}
    (h : Lowers n (es.map .exp) code regs n') : regs.length = es.length := by
  induction es generalizing n code regs with
  | nil =>
    cases h
    rfl
  | cons e rest ih =>
    cases h with
    | cons _ _ hrest => exact congrArg (· + 1) (ih hrest)

theorem Visits.temps_le {n k b : Nat} {xs : List Subtree} {pre : List Instr} {x : Subtree} (h : Visits n xs pre x k)
    (hxs : ∀ y ∈ xs, ∀ t ∈ y.temps, t.id ≤ b) : ∀ t ∈ x.temps, t.id ≤ b := by
  induction h with
  | here n x rest => exact hxs x List.mem_cons_self
  | inside htile _ ih =>
    refine ih fun y hy t ht => hxs _ List.mem_cons_self t ?_
    exact (covers_of_tile? htile).temps_parts hy ht
  | after _ _ ih => exact ih fun y hy => hxs y (List.mem_cons_of_mem _ hy)

theorem carrier_mem_temps {e : Exp} {t : Temp} (h : e.carrier = some t) : t ∈ e.temps := by
  fun_induction Exp.carrier e with
  | case1 u =>
    cases h
    exact List.mem_cons_self
  | case2 s e ih => exact List.mem_append_right _ (ih h)
  | case3 => cases h

/-- The instructions at the positions of a piece of code are those of the piece. -/
theorem exists_within_iff {pre piece post : List Instr} {P : Instr → Prop} :
    (∃ pc x, Within pre.length (pre ++ piece).length pc ∧ (pre ++ piece ++ post)[pc]? = some x ∧ P x) ↔
      ∃ x ∈ piece, P x := by
  constructor
  · rintro ⟨pc, x, hwithin, hx, hP⟩
    rw [List.getElem?_append_left hwithin.2, List.getElem?_append_right hwithin.1] at hx
    exact ⟨x, List.mem_of_getElem? hx, hP⟩
  · rintro ⟨x, hx, hP⟩
    obtain ⟨i, hi⟩ := List.getElem?_of_mem hx
    obtain ⟨hlt, -⟩ := List.getElem?_eq_some_iff.mp hi
    refine ⟨pre.length + i, x, ⟨by omega, by rw [List.length_append]; omega⟩, ?_, hP⟩
    rw [List.getElem?_append_left (by rw [List.length_append]; omega), List.getElem?_append_right (by omega),
      Nat.add_sub_cancel_left]
    exact hi

theorem OperandFate.of_pieces (pre post : List Instr) {piece : List Instr} {x : Instr} {reg : Temp} {lost : Prop}
    (huse : reg ∈ x.uses) (hlost : reg ∈ definedBy piece ↔ lost)
    (hcode : ∀ y ∈ pre ++ piece ++ x :: post, ChangesOnlyDefs y) :
    OperandFate (pre ++ piece ++ x :: post) reg pre.length (pre ++ piece).length lost := by
  have hredefined : (∃ pc y, Within pre.length (pre ++ piece).length pc ∧ (pre ++ piece ++ x :: post)[pc]? = some y ∧
      reg ∈ y.defs) ↔ lost := by
    rw [exists_within_iff, ← hlost]
    exact List.mem_flatMap.symm
  refine ⟨⟨x, ?_, huse⟩, hredefined, fun hnot w m m' hpath => ?_⟩
  · rw [List.getElem?_append_right (Nat.le_refl _), Nat.sub_self]
    rfl
  · exact hpath.regs_eq hcode fun pc y hwithin hy hmem => hnot (hredefined.mp ⟨pc, y, hwithin, hy, hmem⟩)

section Node

variable {n n₁ n₂ n₃ b : Nat} {tile : Tile} {earlier later : List Exp} {e : Exp} {c₁ c₂ c₃ : List Instr}
  {r₁ r₃ : List Temp} {reg : Temp}
variable (hearlier : Lowers n (earlier.map .exp) c₁ r₁ n₁) (he : Lowers n₁ [.exp e] c₂ [reg] n₂)
  (hlater : Lowers n₂ (later.map .exp) c₃ r₃ n₃) (hoperands : tile.HasOperands (earlier ++ e :: later))
  (htemps : ∀ x ∈ tile.parts, ∀ t ∈ x.temps, t.id ≤ b) (hb : b ≤ n)

include hearlier he hlater hoperands htemps hb

/-- The register of an operand is defined again before it is consumed exactly if the operand is lost. -/
theorem redefined_iff_lost :
    reg ∈ definedBy (c₃ ++ (tile.block (r₁ ++ reg :: r₃) (tile.fresh n₃)).take (tile.consumedAt earlier.length)) ↔
      Lost tile earlier.length e later := by
  have hn := hearlier.le
  have hn₁ := he.le
  have hn₂ := hlater.le
  have hregs : (r₁ ++ reg :: r₃).length = (earlier ++ e :: later).length := by
    simp only [List.length_append, List.length_cons, hearlier.length_regs, hlater.length_regs]
  have htempse : ∀ t ∈ e.temps, t.id ≤ b := htemps (.exp e) (by simp [hoperands.1])
  have htempsl : ∀ x ∈ later.map Subtree.exp, ∀ t ∈ x.temps, t.id ≤ b := by
    intro x hx
    exact htemps x (by rw [hoperands.1, List.map_append]; exact List.mem_append_right _ (List.mem_cons_of_mem _ hx))
  obtain ⟨r, hr, hvalue⟩ := he.value_reg
  cases hr
  have hid : reg.id ≤ n₂ := by
    obtain hcarrier | ⟨-, -, hle⟩ := hvalue
    · have := htempse _ (carrier_mem_temps hcarrier)
      omega
    · exact hle
  have hfresh : tile.takesFresh = true → reg ≠ tile.fresh n₃ := by
    intro htakes heq
    rw [Tile.fresh_inOrder htakes] at heq
    rw [heq] at hid
    simp only at hid
    omega
  have htake := Tile.mem_definedBy_take hoperands hregs (i := earlier.length) (by simp) hfresh
  rw [definedBy_append, List.mem_append, htake]
  obtain hcarrier | ⟨hcarrier, hlt, -⟩ := hvalue
  · have hidb := htempse _ (carrier_mem_temps hcarrier)
    have hdefs : reg ∈ definedBy c₃ ↔ reg ∈ Exp.writesAll later := by
      rw [← exists_writes_map]
      constructor
      · intro hmem
        obtain hw | ⟨hlt, -⟩ := hlater.mem_definedBy hmem
        · exact hw
        · omega
      · rintro ⟨x, hx, hw⟩
        exact hlater.definedBy_of_writes hx hw
    simp [Lost, hcarrier, hdefs]
  · -- A fresh register is not in reach of the later trees.
    have hdefs : reg ∉ definedBy c₃ := by
      intro hmem
      obtain ⟨x, hx, hw⟩ | ⟨hlt', -⟩ := hlater.mem_definedBy hmem
      · have := hlater.writes_le htempsl hx hw
        omega
      · omega
    have hsetUp : reg ∉ tile.setUp earlier.length := by
      intro hmem
      have := Tile.setUp_neg hmem
      omega
    simp [Lost, hcarrier, hdefs, hsetUp]

end Node

/-- What becomes of the operands of all nodes of a tree with several of them. -/
def OperandFates (n : Nat) (s : Stm) (code : List Instr) : Prop :=
  ∀ {pre : List Instr} {x : Subtree} {k : Nat} {tile : Tile} (earlier : List Exp) (e : Exp) (later : List Exp),
    Visits n [.stm s] pre x k → tile? x = some tile → tile.HasOperands (earlier ++ e :: later) →
    ∃ reg start stop, OperandAt k pre tile earlier e later reg start stop ∧
      OperandFate code reg start stop (Lost tile earlier.length e later)

theorem operandFates {n n' : Nat} {s : Stm} {code : List Instr} {regs : List Temp}
    (h : Lowers n [.stm s] code regs n') (htemps : ∀ t ∈ s.temps, t.id ≤ n) : OperandFates n s code := by
  intro pre x k tile earlier e later hvisits htile hoperands
  obtain ⟨c, rs, k', post, hx, hcode⟩ := hvisits.code h
  obtain ⟨cp, rp, n₃, hparts, rfl, -, -⟩ := hx.node htile
  rw [hoperands.1, List.map_append, List.map_cons] at hparts
  obtain ⟨c₁, r₁, n₁, c', r', h₁, h', rfl, rfl⟩ := hparts.split (earlier.map .exp)
  obtain ⟨c₂, r₂, n₂, c₃, r₃, h₂, h₃, rfl, rfl⟩ := Lowers.split [.exp e] h'
  obtain ⟨reg, rfl, -⟩ := h₂.value_reg
  have hpartTemps : ∀ y ∈ tile.parts, ∀ t ∈ y.temps, t.id ≤ n := by
    intro y hy t ht
    have hroot : ∀ y ∈ [Subtree.stm s], ∀ t ∈ y.temps, t.id ≤ n := List.forall_mem_singleton.mpr htemps
    exact hvisits.temps_le hroot t ((covers_of_tile? htile).temps_parts hy ht)
  have hlost := redefined_iff_lost h₁ h₂ h₃ hoperands hpartTemps hvisits.le
  refine ⟨reg, _, _, .mk h₁ h₂ h₃, ?_⟩
  have hregs : (r₁ ++ reg :: r₃).length = (earlier ++ e :: later).length := by
    simp only [List.length_append, List.length_cons, h₁.length_regs, h₃.length_regs]
  obtain ⟨y, hy, huses⟩ := Tile.consumes hoperands (tile.fresh n₃) hregs (i := earlier.length) (by simp)
  have hreg : (r₁ ++ reg :: r₃).getD earlier.length ⟨0⟩ = reg := by
    simp [← h₁.length_regs]
  rw [hreg] at huses
  -- The code before the operand is there, the code up to its use, its use and the rest.
  obtain ⟨hj, hget⟩ := List.getElem?_eq_some_iff.mp hy
  have hblock := List.take_append_drop (tile.consumedAt earlier.length) (tile.block (r₁ ++ reg :: r₃) (tile.fresh n₃))
  rw [List.drop_eq_getElem_cons hj, hget] at hblock
  have hfate := OperandFate.of_pieces (pre ++ c₁ ++ c₂)
    ((tile.block (r₁ ++ reg :: r₃) (tile.fresh n₃)).drop (tile.consumedAt earlier.length + 1) ++ post) huses hlost
  have hsame : pre ++ c₁ ++ c₂ ++
        (c₃ ++ (tile.block (r₁ ++ reg :: r₃) (tile.fresh n₃)).take (tile.consumedAt earlier.length)) ++
        y :: ((tile.block (r₁ ++ reg :: r₃) (tile.fresh n₃)).drop (tile.consumedAt earlier.length + 1) ++ post) =
      code := by
    rw [hcode]
    conv => rhs; rw [List.singleton_append, ← hblock]
    simp only [List.append_assoc, List.cons_append]
  have hstop : (pre ++ c₁ ++ c₂ ++ (c₃ ++
        (tile.block (r₁ ++ reg :: r₃) (tile.fresh n₃)).take (tile.consumedAt earlier.length))).length =
      (pre ++ c₁ ++ c₂ ++ c₃).length + tile.consumedAt earlier.length := by
    simp only [List.length_append, List.length_take]
    omega
  rw [hsame, hstop] at hfate
  exact hfate h.changesOnlyDefs

/-! ### The main result -/

/-- A tree that names only registers handed out, and fixed ones, is lowered, and an operand of a node of the tree
reaches its use unless it is lost. -/
theorem operands_survive_unless_lost (s : Stm) (log : Log) (hcovered : s.covered = true) (hgap : s.hasGap = false)
    (htemps : ∀ t ∈ s.temps, t.id ≤ log.session.temps) :
    ∃ code log', (X86.rules.tileStm s).run.run log = (.ok (), log') ∧ log'.code = log.code ++ code ∧
      OperandFates log.session.temps s code := by
  obtain ⟨code, regs, n', hlowers⟩ := lowers_of_covered (x := .stm s) hcovered hgap log.session.temps
  obtain ⟨journal, hrun⟩ := tileStm_run hlowers log rfl
  exact ⟨code, _, hrun, rfl, operandFates hlowers htemps⟩

/-- Assigns a register, calls a function and divides. -/
def callThenDivide : Exp :=
  .eseq (.move (.temp ⟨2⟩) (.call (.name "g") [.temp ⟨1⟩, .const 3, resultExp]))
    (.bin .div (.temp ⟨2⟩) (.mem framePointerExp))

/-- The left operand of a sum survives assignments to other registers, a call and a division. -/
theorem callThenDivide_spares_operand :
    (Stm.exp (.bin .plus (.temp ⟨1⟩) callThenDivide)).covered = true ∧
      (Stm.exp (.bin .plus (.temp ⟨1⟩) callThenDivide)).hasGap = false ∧
      (∀ t ∈ (Stm.exp (.bin .plus (.temp ⟨1⟩) callThenDivide)).temps, t.id ≤ 2) ∧
      ∃ code log', (X86.rules.tileStm (.exp (.bin .plus (.temp ⟨1⟩) callThenDivide))).run.run ⟨{ temps := 2 }, []⟩ =
          (.ok (), log') ∧ log'.code = [] ++ code ∧
        ∃ reg start stop,
          OperandAt 2 [] (.arith .add (.temp ⟨1⟩) callThenDivide) [] (.temp ⟨1⟩) [callThenDivide] reg start stop ∧
          ∀ w m m', Path w code (Within start stop) (start, m) (stop, m') → m'.regs reg = m.regs reg := by
  refine ⟨by decide, by decide, by decide, ?_⟩
  obtain ⟨code, log', hrun, hcode, hfates⟩ := operands_survive_unless_lost
    (.exp (.bin .plus (.temp ⟨1⟩) callThenDivide)) ⟨{ temps := 2 }, []⟩ (by decide) (by decide) (by decide)
  have hvisits : Visits 2 [.stm (.exp (.bin .plus (.temp ⟨1⟩) callThenDivide))] []
      (.exp (.bin .plus (.temp ⟨1⟩) callThenDivide)) 2 := .inside rfl (.here _ _ _)
  obtain ⟨reg, start, stop, hat, hfate⟩ := hfates [] (.temp ⟨1⟩) [callThenDivide] hvisits rfl ⟨rfl, Nat.le_refl 2⟩
  exact ⟨code, log', hrun, hcode, reg, start, stop, hat, hfate.survives (by decide)⟩

/-- Assigns the register that stands to its left. -/
def assignFive : Exp := .eseq (.move (.temp ⟨1⟩) (.const 5)) (.const 3)

/-- The left operand of a sum is lost if the right one assigns its register: whatever it was, it is five when it is
added. -/
theorem assignFive_loses_operand :
    ∃ code log',
      (X86.rules.tileStm (.move resultExp (.bin .plus (.temp ⟨1⟩) assignFive))).run.run ⟨{ temps := 1 }, []⟩ =
        (.ok (), log') ∧ log'.code = [] ++ code ∧
      Visits 1 [.stm (.move resultExp (.bin .plus (.temp ⟨1⟩) assignFive))] []
        (.exp (.bin .plus (.temp ⟨1⟩) assignFive)) 1 ∧
      ∃ start stop, OperandAt 1 [] (.arith .add (.temp ⟨1⟩) assignFive) [] (.temp ⟨1⟩) [assignFive] ⟨1⟩ start stop ∧
        ∀ w m, ∃ m', Path w code (Within start stop) (start, m) (stop, m') ∧ m'.regs ⟨1⟩ = 5 := by
  have hleft : Lowers 1 [.exp (.temp ⟨1⟩)] [] [⟨1⟩] 1 :=
    @Lowers.cons _ _ _ _ _ _ (.temp ⟨1⟩) _ _ _ _ rfl (.nil 1) (.nil 1)
  have hthree : Lowers 1 [.exp (.const 3)] [oper (.loadConst 3) [⟨2⟩] []] [⟨2⟩] 2 :=
    @Lowers.cons _ _ _ _ _ _ (.const 3) _ _ _ _ rfl (.nil 1) (.nil 2)
  have hfive : Lowers 1 [.stm (.move (.temp ⟨1⟩) (.const 5)), .exp (.const 3)]
      [oper (.loadConst 5) [⟨1⟩] [], oper (.loadConst 3) [⟨2⟩] []] [⟨2⟩] 2 :=
    @Lowers.cons _ _ _ _ _ _ (.setConst ⟨1⟩ 5) _ _ _ _ rfl (.nil 1) hthree
  have hright : Lowers 1 [.exp assignFive] [oper (.loadConst 5) [⟨1⟩] [], oper (.loadConst 3) [⟨2⟩] []] [⟨2⟩] 2 :=
    @Lowers.cons _ _ _ _ _ _ (.eseq (.move (.temp ⟨1⟩) (.const 5)) (.const 3)) _ _ _ _ rfl hfive (.nil 2)
  have hboth : Lowers 1 [.exp (.temp ⟨1⟩), .exp assignFive]
      [oper (.loadConst 5) [⟨1⟩] [], oper (.loadConst 3) [⟨2⟩] []] [⟨1⟩, ⟨2⟩] 2 :=
    @Lowers.cons _ _ _ _ _ _ (.temp ⟨1⟩) _ _ _ _ rfl (.nil 1) hright
  have hsum : Lowers 1 [.exp (.bin .plus (.temp ⟨1⟩) assignFive)]
      [oper (.loadConst 5) [⟨1⟩] [], oper (.loadConst 3) [⟨2⟩] [], copy ⟨3⟩ ⟨1⟩, oper (.arith .add) [⟨3⟩] [⟨3⟩, ⟨2⟩]]
      [⟨3⟩] 3 :=
    @Lowers.cons _ _ _ _ _ _ (.arith .add (.temp ⟨1⟩) assignFive) _ _ _ _ rfl hboth (.nil 3)
  have hmove : Lowers 1 [.stm (.move resultExp (.bin .plus (.temp ⟨1⟩) assignFive))]
      [oper (.loadConst 5) [⟨1⟩] [], oper (.loadConst 3) [⟨2⟩] [], copy ⟨3⟩ ⟨1⟩, oper (.arith .add) [⟨3⟩] [⟨3⟩, ⟨2⟩],
        copy resultRegister ⟨3⟩] [] 3 :=
    @Lowers.cons _ _ _ _ _ _ (.setCopy resultRegister (.bin .plus (.temp ⟨1⟩) assignFive)) _ _ _ _ rfl hsum (.nil 3)
  obtain ⟨journal, hrun⟩ := tileStm_run hmove ⟨{ temps := 1 }, []⟩ rfl
  have hat : OperandAt 1 [] (.arith .add (.temp ⟨1⟩) assignFive) [] (.temp ⟨1⟩) [assignFive] ⟨1⟩ 0 2 :=
    @OperandAt.mk _ _ _ [] _ [assignFive] _ _ _ _ _ _ _ _ _ (.nil 1) hleft hright
  refine ⟨_, _, hrun, rfl, .inside rfl (.here _ _ _), 0, 2, hat, ?_⟩
  intro w m
  have hcode : run w [oper (.loadConst 5) [⟨1⟩] [], oper (.loadConst 3) [⟨2⟩] []] m =
      .ok ((m.set ⟨1⟩ 5).set ⟨2⟩ 3) :=
    (run_next (exec_loadConst ..) _).trans (run_next (exec_loadConst ..) _)
  refine ⟨_, path_of_run hcode [] [copy ⟨3⟩ ⟨1⟩, oper (.arith .add) [⟨3⟩] [⟨3⟩, ⟨2⟩], copy resultRegister ⟨3⟩], ?_⟩
  rw [Machine.set_of_ne _ _ (by decide), Machine.set_self]

end Lowering.X86
