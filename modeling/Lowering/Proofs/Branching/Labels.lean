import Lowering.Proofs.Machine.Control
import Lowering.Proofs.Tiling.Places

/-!
# Labels and conditional jumps of trees

The labels that a tree defines are the labels that its code defines, in the same order. So a label that a tree defines
once has one definition in the code, and that is where a jump to it goes. Conditional jumps are never swallowed by the
tile of another node: lowering comes to every one of them, however deep it stands.
-/

namespace Lowering

mutual

/-- The labels that a tree defines, from left to right. -/
def Stm.labels : Stm → List Label
  | .hole => []
  | .move dst src => dst.labels ++ src.labels
  | .exp e => e.labels
  | .label l => [l]
  | .seq first second => first.labels ++ second.labels
  | .jump target _ => target.labels
  | .cjump _ left right _ _ => left.labels ++ right.labels

@[inherit_doc Stm.labels]
def Exp.labels : Exp → List Label
  | .hole => []
  | .const _ => []
  | .temp _ => []
  | .bin _ left right => left.labels ++ right.labels
  | .mem addr => addr.labels
  | .call func args => func.labels ++ Exp.labelsAll args
  | .name _ => []
  | .eseq s e => s.labels ++ e.labels

@[inherit_doc Stm.labels]
def Exp.labelsAll : List Exp → List Label
  | [] => []
  | e :: es => e.labels ++ Exp.labelsAll es

end

mutual

/-- The conditional jumps of a tree. -/
def Stm.cjumps : Stm → List Stm
  | .hole => []
  | .move dst src => dst.cjumps ++ src.cjumps
  | .exp e => e.cjumps
  | .label _ => []
  | .seq first second => first.cjumps ++ second.cjumps
  | .jump target _ => target.cjumps
  | .cjump rel left right t f => .cjump rel left right t f :: (left.cjumps ++ right.cjumps)

@[inherit_doc Stm.cjumps]
def Exp.cjumps : Exp → List Stm
  | .hole => []
  | .const _ => []
  | .temp _ => []
  | .bin _ left right => left.cjumps ++ right.cjumps
  | .mem addr => addr.cjumps
  | .call func args => func.cjumps ++ Exp.cjumpsAll args
  | .name _ => []
  | .eseq s e => s.cjumps ++ e.cjumps

@[inherit_doc Stm.cjumps]
def Exp.cjumpsAll : List Exp → List Stm
  | [] => []
  | e :: es => e.cjumps ++ Exp.cjumpsAll es

end

namespace Subtree

@[inherit_doc Stm.labels]
def labels : Subtree → List Label
  | .stm s => s.labels
  | .exp e => e.labels

@[inherit_doc Stm.labels]
def labelsAll : List Subtree → List Label
  | [] => []
  | x :: xs => x.labels ++ labelsAll xs

@[inherit_doc Stm.cjumps]
def cjumps : Subtree → List Stm
  | .stm s => s.cjumps
  | .exp e => e.cjumps

end Subtree

namespace X86

/-- The labels that code defines. -/
def labelsOf : List Instr → List Label
  | [] => []
  | .label _ l :: rest => l :: labelsOf rest
  | .oper .. :: rest => labelsOf rest
  | .move .. :: rest => labelsOf rest

theorem labelsOf_append (code code' : List Instr) : labelsOf (code ++ code') = labelsOf code ++ labelsOf code' := by
  induction code with
  | nil => rfl
  | cons x rest ih => cases x <;> simp [labelsOf, ih]

theorem labelsOf_push (args : List (Word ⊕ Temp)) : labelsOf (args.map push) = [] := by
  induction args with
  | nil => rfl
  | cons v rest ih => cases v <;> exact ih

theorem labelsOf_callBlock {call : Instr} (hcall : labelsOf [call] = []) (args : List (Word ⊕ Temp)) (fresh : Temp) :
    labelsOf (callBlock call args fresh) = [] := by
  have hpop : labelsOf (if args.length ≠ 0 then
      [oper (.pop (args.length * wordSize)) [stackPointer] [stackPointer]] else []) = [] := by
    split <;> rfl
  rw [callBlock, labelsOf_append, labelsOf_append, labelsOf_append, labelsOf_push, hcall, hpop]
  rfl

/-- Constants among the arguments define no labels. -/
theorem labelsAll_registerArgs (args : List Exp) :
    Subtree.labelsAll ((registerArgs args).map Subtree.exp) = Exp.labelsAll args := by
  induction args with
  | nil => rfl
  | cons e rest ih =>
    rw [registerArgs] at ih ⊢
    cases hconst : constOf? e with
    | some i =>
      obtain rfl := eq_const_of_constOf? hconst
      exact ih
    | none =>
      rw [List.filter_cons_of_pos (by rw [hconst]; rfl), List.map_cons, Subtree.labelsAll, ih]
      rfl

/-- The labels of a tree are those of its parts and the one of its block. -/
theorem Covers.labels {x : Subtree} {tile : Tile} (hcovers : Covers x tile) (regs : List Temp) (fresh : Temp) :
    x.labels = Subtree.labelsAll tile.parts ++ labelsOf (tile.block regs fresh) := by
  cases hcovers with
  | label l => rfl
  | call l args =>
    rw [Tile.parts, Tile.block, labelsAll_registerArgs, labelsOf_callBlock rfl, List.append_nil]
    rfl
  | callReg func args =>
    rw [Tile.parts, Tile.block, Subtree.labelsAll, labelsAll_registerArgs, labelsOf_callBlock rfl, List.append_nil]
    rfl
  | _ =>
    simp [Subtree.labels, Stm.labels, Exp.labels, Tile.parts, Subtree.labelsAll, Tile.block, labelsOf, oper, copy,
      X86.branch]

/-- The code of trees defines their labels. -/
theorem Lowers.labels {n n' : Nat} {xs : List Subtree} {code : List Instr} {regs : List Temp}
    (h : Lowers n xs code regs n') : labelsOf code = Subtree.labelsAll xs := by
  induction h with
  | nil n => rfl
  | cons htile _ _ ihparts ihrest =>
    rw [labelsOf_append, labelsOf_append, ihparts, ihrest, Subtree.labelsAll, (covers_of_tile? htile).labels]

/-! ### Conditional jumps -/

/-- Constants among the arguments hold no conditional jumps. -/
theorem mem_cjumpsAll {args : List Exp} {x : Stm} (hx : x ∈ Exp.cjumpsAll args) :
    ∃ y ∈ (registerArgs args).map Subtree.exp, x ∈ y.cjumps := by
  induction args with
  | nil => cases hx
  | cons e rest ih =>
    obtain hx | hx := List.mem_append.mp hx
    · refine ⟨.exp e, List.mem_map_of_mem (List.mem_filter.mpr ⟨List.mem_cons_self .., ?_⟩), hx⟩
      cases e with
      | const i => cases hx
      | _ => rfl
    · obtain ⟨_, hy, hx⟩ := ih hx
      obtain ⟨e', he', rfl⟩ := List.mem_map.mp hy
      obtain ⟨hmem, hregister⟩ := List.mem_filter.mp he'
      exact ⟨.exp e', List.mem_map_of_mem (List.mem_filter.mpr ⟨List.mem_cons_of_mem e hmem, hregister⟩), hx⟩

/-- A conditional jump of a tree is the tree itself or is in one of the parts that its tile has lowered. -/
theorem Covers.mem_cjumps {x : Stm} {y : Subtree} {tile : Tile} (hcovers : Covers y tile) (hx : x ∈ y.cjumps) :
    .stm x = y ∨ ∃ z ∈ tile.parts, x ∈ z.cjumps := by
  cases hcovers with
  | call l args => exact .inr (mem_cjumpsAll hx)
  | callReg func args =>
    obtain hx | hx := List.mem_append.mp hx
    · exact .inr ⟨.exp func, List.mem_cons_self .., hx⟩
    · obtain ⟨z, hz, hx⟩ := mem_cjumpsAll hx
      exact .inr ⟨z, List.mem_cons_of_mem _ hz, hx⟩
  | _ =>
    simp_all [Subtree.cjumps, Stm.cjumps, Exp.cjumps, Tile.parts]

/-- Lowering comes to every conditional jump. -/
theorem Lowers.visits_cjump {n n' : Nat} {xs : List Subtree} {code : List Instr} {regs : List Temp} {x : Stm}
    {y : Subtree} (h : Lowers n xs code regs n') (hy : y ∈ xs) (hx : x ∈ y.cjumps) :
    ∃ pre k, Visits n xs pre (.stm x) k := by
  induction h generalizing y with
  | nil n => cases hy
  | @cons n n₁ n₂ z rest tile c c' rs rs' htile hparts hrest ihparts ihrest =>
    obtain rfl | hy := List.mem_cons.mp hy
    · obtain rfl | ⟨u, hu, hx⟩ := (covers_of_tile? htile).mem_cjumps hx
      · exact ⟨[], n, .here n _ rest⟩
      · obtain ⟨pre, k, hvisits⟩ := ihparts hu hx
        exact ⟨pre, k, .inside htile hvisits⟩
    · obtain ⟨pre, k, hvisits⟩ := ihrest hy hx
      exact ⟨_, k, .after (.cons htile hparts (.nil _)) hvisits⟩

/-! ### Definitions -/

theorem definedAt_of_mem {code : List Instr} {l : Label} (hl : l ∈ labelsOf code) : ∃ pc, DefinedAt code l pc := by
  induction code with
  | nil => cases hl
  | cons x rest ih =>
    have hlater (hrest : l ∈ labelsOf rest) : ∃ pc, DefinedAt (x :: rest) l pc := by
      obtain ⟨pc, hpc⟩ := ih hrest
      exact ⟨pc + 1, hpc⟩
    cases x with
    | oper => exact hlater hl
    | move => exact hlater hl
    | label asm l' =>
      obtain rfl | hrest := List.mem_cons.mp hl
      · exact ⟨0, asm, rfl⟩
      · exact hlater hrest

theorem DefinedAt.mem {code : List Instr} {l : Label} {pc : Nat} (h : DefinedAt code l pc) : l ∈ labelsOf code := by
  induction code generalizing pc with
  | nil =>
    obtain ⟨asm, h⟩ := h
    cases h
  | cons x rest ih =>
    cases pc with
    | zero =>
      obtain ⟨asm, h⟩ := h
      obtain rfl := Option.some.inj h
      exact List.mem_cons_self ..
    | succ pc =>
      have hrest : l ∈ labelsOf rest := ih h
      cases x with
      | oper => exact hrest
      | move => exact hrest
      | label asm l' => exact List.mem_cons_of_mem l' hrest

/-- A label that is defined once is defined at one position. -/
theorem DefinedAt.unique {code : List Instr} {l : Label} {pc pc' : Nat} (hcode : (labelsOf code).Nodup)
    (h : DefinedAt code l pc) (h' : DefinedAt code l pc') : pc = pc' := by
  induction code generalizing pc pc' with
  | nil =>
    obtain ⟨asm, h⟩ := h
    cases h
  | cons x rest ih =>
    have hrest : (labelsOf rest).Nodup := by
      cases x with
      | label asm l' => exact (List.nodup_cons.mp hcode).2
      | _ => exact hcode
    have hzero {k : Nat} (h₀ : DefinedAt (x :: rest) l 0) (hk : DefinedAt rest l k) : False := by
      obtain ⟨asm, h₀⟩ := h₀
      obtain rfl := Option.some.inj h₀
      exact (List.nodup_cons.mp hcode).1 hk.mem
    cases pc with
    | zero =>
      cases pc' with
      | zero => rfl
      | succ k' => exact (hzero h h').elim
    | succ k =>
      cases pc' with
      | zero => exact (hzero h' h).elim
      | succ k' => exact congrArg (· + 1) (ih hrest h h')

end X86

end Lowering
