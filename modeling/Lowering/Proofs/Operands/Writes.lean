import Lowering.Proofs.Tiling.Places
import Lowering.Proofs.Machine.Control

/-!
# Registers that trees and code write

A tree writes the registers it moves to, and on the side those that its divisions, shifts and calls need. Its code
defines these and fresh registers, and nothing else: `Lowers.mem_definedBy` and `Lowers.definedBy_of_writes`. The
value of an expression is in a fresh register too, unless the expression carries a register of the tree through.
-/

namespace Lowering

open X86

/-! ### Trees -/

/-- The registers that an operation needs on the side. -/
def Op.scratch (op : Op) (right : Exp) : List Temp :=
  match op with
  | .div => [Register.eax.temp, Register.edx.temp]
  | .shl | .shr | .sar => if (constOf? right).isSome then [] else [Register.ecx.temp]
  | _ => []

/-- The registers that a call with these arguments changes. -/
def callScratch (args : List Exp) : List Temp := (if args.isEmpty then [] else [stackPointer]) ++ callerSaved

/-- The register that is the destination of a move, if it is one. -/
def Exp.moved : Exp → List Temp
  | .temp t => [t]
  | _ => []

mutual

/-- The registers that a tree changes. -/
def Stm.writes : Stm → List Temp
  | .hole => []
  | .move dst src => dst.writes ++ src.writes ++ dst.moved
  | .exp e => e.writes
  | .label _ => []
  | .seq first second => first.writes ++ second.writes
  | .jump target _ => target.writes
  | .cjump _ left right _ _ => left.writes ++ right.writes

@[inherit_doc Stm.writes]
def Exp.writes : Exp → List Temp
  | .hole => []
  | .const _ => []
  | .temp _ => []
  | .bin op left right => left.writes ++ right.writes ++ op.scratch right
  | .mem addr => addr.writes
  | .call func args => func.writes ++ Exp.writesAll args ++ callScratch args
  | .name _ => []
  | .eseq s e => s.writes ++ e.writes

@[inherit_doc Stm.writes]
def Exp.writesAll : List Exp → List Temp
  | [] => []
  | e :: es => e.writes ++ Exp.writesAll es

end

mutual

/-- The registers that a tree names. -/
def Stm.temps : Stm → List Temp
  | .hole => []
  | .move dst src => dst.temps ++ src.temps
  | .exp e => e.temps
  | .label _ => []
  | .seq first second => first.temps ++ second.temps
  | .jump target _ => target.temps
  | .cjump _ left right _ _ => left.temps ++ right.temps

@[inherit_doc Stm.temps]
def Exp.temps : Exp → List Temp
  | .hole => []
  | .const _ => []
  | .temp t => [t]
  | .bin _ left right => left.temps ++ right.temps
  | .mem addr => addr.temps
  | .call func args => func.temps ++ Exp.tempsAll args
  | .name _ => []
  | .eseq s e => s.temps ++ e.temps

@[inherit_doc Stm.temps]
def Exp.tempsAll : List Exp → List Temp
  | [] => []
  | e :: es => e.temps ++ Exp.tempsAll es

end

/-- The register of the tree that an expression carries through as its own value. -/
def Exp.carrier : Exp → Option Temp
  | .temp t => some t
  | .eseq _ e => e.carrier
  | _ => none

namespace Subtree

@[inherit_doc Stm.writes]
def writes : Subtree → List Temp
  | .stm s => s.writes
  | .exp e => e.writes

@[inherit_doc Stm.temps]
def temps : Subtree → List Temp
  | .stm s => s.temps
  | .exp e => e.temps

@[simp] theorem writes_stm (s : Stm) : (Subtree.stm s).writes = s.writes := rfl

@[simp] theorem writes_exp (e : Exp) : (Subtree.exp e).writes = e.writes := rfl

@[simp] theorem temps_stm (s : Stm) : (Subtree.stm s).temps = s.temps := rfl

@[simp] theorem temps_exp (e : Exp) : (Subtree.exp e).temps = e.temps := rfl

end Subtree

namespace X86

theorem mem_writesAll {args : List Exp} {t : Temp} : t ∈ Exp.writesAll args ↔ ∃ e ∈ args, t ∈ e.writes := by
  induction args with
  | nil => simp [Exp.writesAll]
  | cons e rest ih => simp [Exp.writesAll, ih]

theorem mem_tempsAll {args : List Exp} {t : Temp} : t ∈ Exp.tempsAll args ↔ ∃ e ∈ args, t ∈ e.temps := by
  induction args with
  | nil => simp [Exp.tempsAll]
  | cons e rest ih => simp [Exp.tempsAll, ih]

theorem exists_writes_map {es : List Exp} {t : Temp} :
    (∃ y ∈ es.map Subtree.exp, t ∈ y.writes) ↔ t ∈ Exp.writesAll es := by
  rw [mem_writesAll]
  constructor
  · rintro ⟨y, hy, ht⟩
    obtain ⟨e, he, rfl⟩ := List.mem_map.mp hy
    exact ⟨e, he, ht⟩
  · rintro ⟨e, he, ht⟩
    exact ⟨.exp e, List.mem_map_of_mem he, ht⟩

/-- Constants write nothing, so the arguments that need a register are all that count. -/
theorem mem_writesAll_registerArgs {args : List Exp} {t : Temp} :
    t ∈ Exp.writesAll (registerArgs args) ↔ t ∈ Exp.writesAll args := by
  rw [mem_writesAll, mem_writesAll]
  constructor
  · rintro ⟨e, he, ht⟩
    exact ⟨e, (List.mem_filter.mp he).1, ht⟩
  · rintro ⟨e, he, ht⟩
    refine ⟨e, List.mem_filter.mpr ⟨he, ?_⟩, ht⟩
    cases hconst : constOf? e with
    | none => rfl
    | some i =>
      obtain rfl := eq_const_of_constOf? hconst
      cases ht

/-! ### Tiles -/

namespace Tile

/-- The registers that the block of a tile changes, the fresh one apart. -/
def sets : Tile → List Temp
  | .setConst dst _ | .setLoad dst _ _ | .setCopy dst _ => [dst]
  | .div _ _ => [Register.eax.temp, Register.edx.temp]
  | .shift _ _ _ => [Register.ecx.temp]
  | .call _ args | .callReg _ args => callScratch args
  | _ => []

end Tile

@[simp] theorem Arith.scratch_op (o : Arith) (right : Exp) : o.op.scratch right = [] := by
  cases o <;> rfl

@[simp] theorem Shift.scratch_op (o : Shift) (right : Exp) :
    o.op.scratch right = if (constOf? right).isSome then [] else [Register.ecx.temp] := by
  cases o <;> rfl

@[simp] theorem scratch_plus (right : Exp) : Op.plus.scratch right = [] := rfl

@[simp] theorem scratch_minus (right : Exp) : Op.minus.scratch right = [] := rfl

@[simp] theorem scratch_mul (right : Exp) : Op.mul.scratch right = [] := rfl

/-- A tree writes what its parts write and what its block sets. -/
theorem Covers.mem_writes {x : Subtree} {tile : Tile} (hcovers : Covers x tile) {t : Temp} :
    t ∈ x.writes ↔ (∃ y ∈ tile.parts, t ∈ y.writes) ∨ t ∈ tile.sets := by
  cases hcovers with
  | call l args =>
    rw [Tile.parts, exists_writes_map, mem_writesAll_registerArgs]
    simp [Exp.writes, Tile.sets]
  | callReg func args =>
    simp only [Tile.parts, List.mem_cons, or_and_right, exists_or, exists_eq_left, exists_writes_map,
      mem_writesAll_registerArgs]
    simp [Exp.writes, Tile.sets, or_assoc]
  | div left right => simp [Exp.writes, Tile.parts, Tile.sets, Op.scratch, or_assoc]
  | shift o left right hright => simp [Exp.writes, Tile.parts, Tile.sets, hright, or_assoc]
  | _ => simp [Stm.writes, Exp.writes, Tile.parts, Tile.sets, Exp.moved]

theorem Covers.temps_parts {x : Subtree} {tile : Tile} (hcovers : Covers x tile) {t : Temp} {y : Subtree}
    (hy : y ∈ tile.parts) (ht : t ∈ y.temps) : t ∈ x.temps := by
  have hargs (args : List Exp) (e : Exp) (he : e ∈ registerArgs args) (ht : t ∈ e.temps) : t ∈ Exp.tempsAll args :=
    mem_tempsAll.mpr ⟨e, (List.mem_filter.mp he).1, ht⟩
  cases hcovers with
  | call l args =>
    obtain ⟨e, he, rfl⟩ := List.mem_map.mp hy
    exact List.mem_append_right _ (hargs args e he ht)
  | callReg func args =>
    obtain rfl | hy := List.mem_cons.mp hy
    · exact List.mem_append_left _ ht
    · obtain ⟨e, he, rfl⟩ := List.mem_map.mp hy
      exact List.mem_append_right _ (hargs args e he ht)
  | _ =>
    simp only [Tile.parts, List.mem_cons, List.not_mem_nil, or_false] at hy
    try rcases hy with rfl | rfl
    all_goals simp_all [Subtree.temps, Stm.temps, Exp.temps]

/-- The registers that blocks change on the side: those that a call may change, and the stack pointer. -/
def sideRegisters : List Temp := stackPointer :: callerSaved

theorem neg_of_mem_sideRegisters {t : Temp} (ht : t ∈ sideRegisters) : t.id < 0 := by
  have hall : ∀ t ∈ sideRegisters, t.id < 0 := by decide
  exact hall t ht

/-- What a block sets, its tree names, or it is changed on the side. -/
theorem Covers.temps_of_sets {x : Subtree} {tile : Tile} (hcovers : Covers x tile) {t : Temp} (ht : t ∈ tile.sets) :
    t ∈ x.temps ∨ t ∈ sideRegisters := by
  have hcall (args : List Exp) (ht : t ∈ callScratch args) : t ∈ sideRegisters := by
    obtain hpush | hsaved := List.mem_append.mp ht
    · split at hpush
      · cases hpush
      · exact List.mem_cons.mpr (.inl (List.mem_singleton.mp hpush))
    · exact List.mem_cons_of_mem _ hsaved
  cases hcovers with
  | call l args => exact .inr (hcall args ht)
  | callReg func args => exact .inr (hcall args ht)
  | div left right =>
    simp only [Tile.sets, List.mem_cons, List.not_mem_nil, or_false] at ht
    rcases ht with rfl | rfl <;> exact .inr (by decide)
  | shift o left right =>
    obtain rfl := List.mem_singleton.mp ht
    exact .inr (by decide)
  | _ => simp_all [Tile.sets, Stm.temps, Exp.temps]

/-- Expressions get a fresh register, but for those that carry one through. -/
theorem Covers.takesFresh {e : Exp} {tile : Tile} (hcovers : Covers (.exp e) tile) (htemp : ∀ t, e ≠ .temp t)
    (heseq : ∀ s e', e ≠ .eseq s e') : tile.takesFresh = true ∧ ∀ regs f, tile.value regs f = f := by
  cases hcovers with
  | temp t => exact absurd rfl (htemp t)
  | eseq s e => exact absurd rfl (heseq s e)
  | _ => exact ⟨rfl, fun _ _ => rfl⟩

/-! ### Code -/

/-- The registers that code defines. -/
def definedBy (code : List Instr) : List Temp := code.flatMap Instr.defs

@[simp] theorem definedBy_append (code code' : List Instr) :
    definedBy (code ++ code') = definedBy code ++ definedBy code' :=
  List.flatMap_append

@[simp] theorem definedBy_nil : definedBy [] = [] := rfl

@[simp] theorem definedBy_cons (x : Instr) (code : List Instr) :
    definedBy (x :: code) = x.defs ++ definedBy code := rfl

@[simp] theorem defs_instr_oper (asm : Text) (dst src : List Temp) (jumps syms : List Label) :
    (Instr.oper asm dst src jumps syms).defs = dst := rfl

@[simp] theorem defs_instr_label (asm : Text) (l : Label) : (Instr.label asm l).defs = [] := rfl

@[simp] theorem defs_oper (form : Form) (dst src : List Temp) : (oper form dst src).defs = dst := rfl

@[simp] theorem defs_copy (d s : Temp) : (copy d s).defs = [d] := rfl

@[simp] theorem uses_instr_oper (asm : Text) (dst src : List Temp) (jumps syms : List Label) :
    (Instr.oper asm dst src jumps syms).uses = src := rfl

@[simp] theorem uses_instr_label (asm : Text) (l : Label) : (Instr.label asm l).uses = [] := rfl

@[simp] theorem uses_oper (form : Form) (dst src : List Temp) : (oper form dst src).uses = src := rfl

@[simp] theorem uses_copy (d s : Temp) : (copy d s).uses = [s] := rfl

theorem mem_definedBy_pushes {args : List (Word ⊕ Temp)} {t : Temp} :
    t ∈ definedBy (args.map push) ↔ args ≠ [] ∧ t = stackPointer := by
  induction args with
  | nil => simp
  | cons v rest ih =>
    have hdefs : (push v).defs = [stackPointer] := by cases v <;> rfl
    simp only [List.map_cons, definedBy_cons, List.mem_append, hdefs, List.mem_singleton, ih]
    constructor
    · rintro (rfl | ⟨-, rfl⟩) <;> exact ⟨List.cons_ne_nil _ _, rfl⟩
    · rintro ⟨-, rfl⟩
      exact .inl rfl

theorem mem_definedBy_callBlock {call : Instr} (hcall : call.defs = callerSaved) {args : List Exp} {regs : List Temp}
    {fresh t : Temp} :
    t ∈ definedBy (callBlock call (placeArgs args regs) fresh) ↔ t ∈ callScratch args ∨ t = fresh := by
  have hempty : (placeArgs args regs).reverse ≠ [] ↔ args ≠ [] := by
    rw [← List.length_pos_iff, List.length_reverse, length_placeArgs, List.length_pos_iff]
  have hpop : t ∈ definedBy (if (placeArgs args regs).length ≠ 0 then
      [oper (.pop ((placeArgs args regs).length * wordSize)) [stackPointer] [stackPointer]] else []) ↔
      args ≠ [] ∧ t = stackPointer := by
    rw [length_placeArgs]
    by_cases hargs : args = []
    · simp [hargs]
    · simp [hargs]
  simp only [callBlock, definedBy_append, List.mem_append, mem_definedBy_pushes, hempty, hpop, definedBy_cons, hcall,
    definedBy_nil, List.append_nil, defs_copy, List.mem_singleton, callScratch]
  by_cases hargs : args = []
  · simp [hargs]
  · grind

/-- A block defines what its tile sets, and the fresh register. -/
theorem Tile.mem_definedBy_block (tile : Tile) (regs : List Temp) (fresh t : Temp) :
    t ∈ definedBy (tile.block regs fresh) ↔ t ∈ tile.sets ∨ tile.takesFresh = true ∧ t = fresh := by
  cases tile with
  | call func args => simpa [Tile.block, Tile.sets, Tile.takesFresh] using mem_definedBy_callBlock rfl
  | callReg func args => simpa [Tile.block, Tile.sets, Tile.takesFresh] using mem_definedBy_callBlock rfl
  | div left right => simp [Tile.block, Tile.sets, Tile.takesFresh]; grind
  | shift op left count => simp [Tile.block, Tile.sets, Tile.takesFresh]; grind
  | _ => simp [Tile.block, Tile.sets, Tile.takesFresh, X86.branch]

namespace Lowers

variable {n n' k : Nat} {xs : List Subtree} {code : List Instr} {regs : List Temp} {t : Temp}

/-- A tree writes registers that it names, and some on the side. -/
theorem temps_of_writes (h : Lowers n xs code regs n') {x : Subtree} (hx : x ∈ xs) (ht : t ∈ x.writes) :
    t ∈ x.temps ∨ t ∈ sideRegisters := by
  induction h generalizing x with
  | nil n => cases hx
  | cons htile _ _ ihparts ihrest =>
    have hcovers := covers_of_tile? htile
    obtain rfl | hx := List.mem_cons.mp hx
    · obtain ⟨y, hy, hty⟩ | hset := hcovers.mem_writes.mp ht
      · exact (ihparts hy hty).imp_left (hcovers.temps_parts hy)
      · exact hcovers.temps_of_sets hset
    · exact ihrest hx ht

/-- Registers that were not handed out before are not written by the trees themselves. -/
theorem writes_le (h : Lowers n xs code regs n') (hxs : ∀ x ∈ xs, ∀ t ∈ x.temps, t.id ≤ k) {x : Subtree} (hx : x ∈ xs)
    (ht : t ∈ x.writes) : t.id ≤ k := by
  obtain htemp | hside := h.temps_of_writes hx ht
  · exact hxs x hx t htemp
  · have := neg_of_mem_sideRegisters hside
    omega

/-- Code defines what its trees write and fresh registers. -/
theorem mem_definedBy (h : Lowers n xs code regs n') (ht : t ∈ definedBy code) :
    (∃ x ∈ xs, t ∈ x.writes) ∨ (n : Int) < t.id ∧ t.id ≤ n' := by
  induction h with
  | nil n => cases ht
  | @cons n n₁ n₂ x rest tile code code' regs regs' htile hparts hrest ihparts ihrest =>
    have hcovers := covers_of_tile? htile
    have hn := hparts.le
    have hn₂ := hrest.le
    have hnext := tile.le_next n₁
    rw [definedBy_append, definedBy_append, List.mem_append, List.mem_append] at ht
    obtain (ht | ht) | ht := ht
    · obtain ⟨y, hy, hty⟩ | hfresh := ihparts ht
      · exact .inl ⟨x, List.mem_cons_self, hcovers.mem_writes.mpr (.inl ⟨y, hy, hty⟩)⟩
      · exact .inr ⟨by omega, by omega⟩
    · obtain hset | ⟨htakes, rfl⟩ := (tile.mem_definedBy_block regs _ t).mp ht
      · exact .inl ⟨x, List.mem_cons_self, hcovers.mem_writes.mpr (.inr hset)⟩
      · rw [Tile.next, if_pos htakes] at hn₂
        rw [Tile.fresh_inOrder htakes]
        exact .inr ⟨by simp only; omega, by simp only; omega⟩
    · obtain ⟨y, hy, hty⟩ | hfresh := ihrest ht
      · exact .inl ⟨y, List.mem_cons_of_mem _ hy, hty⟩
      · exact .inr ⟨by omega, by omega⟩

/-- Code defines all that its trees write. -/
theorem definedBy_of_writes (h : Lowers n xs code regs n') {x : Subtree} (hx : x ∈ xs) (ht : t ∈ x.writes) :
    t ∈ definedBy code := by
  induction h generalizing x with
  | nil n => cases hx
  | @cons n n₁ n₂ x rest tile code code' regs regs' htile _ _ ihparts ihrest =>
    rw [definedBy_append, definedBy_append, List.mem_append, List.mem_append]
    obtain rfl | hx := List.mem_cons.mp hx
    · obtain ⟨y, hy, hty⟩ | hset := (covers_of_tile? htile).mem_writes.mp ht
      · exact .inl (.inl (ihparts hy hty))
      · exact .inl (.inr ((tile.mem_definedBy_block regs _ t).mpr (.inl hset)))
    · exact .inr (ihrest hx ht)

theorem regs_stm {s : Stm} (h : Lowers n [.stm s] code regs n') : regs = [] := by
  cases h with
  | cons _ _ hrest =>
    cases hrest
    rfl

/-- The value of an expression is in the register it carries through, or in a fresh one. -/
theorem value_reg {e : Exp} (h : Lowers n [.exp e] code regs n') :
    ∃ r, regs = [r] ∧ (e.carrier = some r ∨ e.carrier = none ∧ (n : Int) < r.id ∧ r.id ≤ n') := by
  fun_induction Exp.carrier e generalizing n n' code regs with
  | case1 t =>
    obtain ⟨c, rs, n₁, -, -, rfl, -⟩ := h.node (show tile? (.exp (.temp t)) = some (.temp t) from rfl)
    exact ⟨t, rfl, .inl rfl⟩
  | case2 s e ih =>
    obtain ⟨c, rs, n₁, hparts, -, rfl, rfl⟩ := h.node (show tile? (.exp (.eseq s e)) = some (.eseq s e) from rfl)
    obtain ⟨c₁, r₁, n₂, c₂, r₂, hs, he, -, rfl⟩ := split [.stm s] hparts
    obtain rfl : r₁ = [] := hs.regs_stm
    obtain ⟨r, rfl, hr⟩ := ih he
    refine ⟨r, rfl, hr.imp id fun ⟨hcarrier, hlt, hle⟩ => ⟨hcarrier, ?_, hle⟩⟩
    have := hs.le
    omega
  | case3 e htemp heseq =>
    cases h with
    | @cons _ n₁ _ _ _ tile _ _ _ _ htile hparts hrest =>
      cases hrest
      obtain ⟨htakes, hvalue⟩ := (covers_of_tile? htile).takesFresh htemp heseq
      have hn := hparts.le
      refine ⟨tile.fresh n₁, congrArg (· :: []) (hvalue _ _), .inr ⟨rfl, ?_⟩⟩
      rw [Tile.fresh_inOrder htakes, Tile.next, if_pos htakes]
      exact ⟨by simp only; omega, by simp only; omega⟩

end Lowers

end X86

end Lowering
