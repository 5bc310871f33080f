import Lowering.Instr.Check
import Lowering.Proofs.Frame.Layout

/-!
# Renaming registers

Registers are numbered in the order in which they are handed out, so the same function has other registers if others
were handed out before, or in between. A renaming takes the one to the other, and every increasing supply comes with
one. Renumbering by first mention undoes every renaming: `Procedure.renumbered_rename`.
-/

namespace Lowering

/-- Other names for the registers that are handed out: different ones for different ones. Fixed registers keep
theirs. -/
structure Renaming where
  apply : Temp → Temp
  injective : ∀ {t u : Temp}, apply t = apply u → t = u
  keeps : ∀ {t : Temp}, t.id ≤ 0 → apply t = t

namespace Renaming

instance : CoeFun Renaming fun _ => Temp → Temp := ⟨Renaming.apply⟩

theorem eq_iff (r : Renaming) {t u : Temp} : r t = r u ↔ t = u := ⟨r.injective, congrArg r⟩

@[simp] theorem apply_zero (r : Renaming) : r ⟨0⟩ = ⟨0⟩ := r.keeps (Int.le_refl 0)

@[simp] theorem isFixed_apply (r : Renaming) (t : Temp) : (r t).isFixed = t.isFixed := by
  by_cases hneg : (r t).id < 0
  · have heq : r (r t) = r t := r.keeps (Int.le_of_lt hneg)
    rw [r.injective heq]
  · by_cases ht : t.id < 0
    · rw [r.keeps (Int.le_of_lt ht)]
    · simp only [Temp.isFixed, hneg, ht]

end Renaming

/-! ### Supplies -/

namespace Supply

/-- From the request after `n` others on, the supply hands out the registers of the first requests under other names. -/
def Renames (S : Supply) (r : Renaming) (n : Nat) : Prop := ∀ k : Nat, S.register (k + n) = r ⟨(k : Int) + 1⟩

namespace Increasing

variable {S : Supply} {n : Nat} (h : S.Increasing n)

include h

theorem lt {j k : Nat} (hj : n ≤ j) (hjk : j < k) : (S.register j).id < (S.register k).id := by
  induction k with
  | zero => cases hjk
  | succ k ih =>
    have hnext := h.increases k (by omega)
    by_cases heq : j = k
    · exact heq ▸ hnext
    · exact Int.lt_trans (ih (by omega)) hnext

theorem le_id (k : Nat) : (k : Int) + 1 ≤ (S.register (k + n)).id := by
  induction k with
  | zero =>
    have := h.positive
    rw [Nat.zero_add]
    omega
  | succ k ih =>
    have := h.increases (k + n) (Nat.le_add_left _ _)
    rw [Nat.add_right_comm]
    omega

theorem eq_of_id_eq {j k : Nat} (heq : (S.register (j + n)).id = (S.register (k + n)).id) : j = k := by
  obtain hlt | rfl | hlt := Nat.lt_trichotomy j k
  · have := h.lt (Nat.le_add_left n j) (Nat.add_lt_add_right hlt n)
    omega
  · rfl
  · have := h.lt (Nat.le_add_left n k) (Nat.add_lt_add_right hlt n)
    omega

end Increasing

/-- The renaming of the registers of the first requests to those of an increasing supply. -/
def toRenaming (S : Supply) {n : Nat} (h : S.Increasing n) : Renaming where
  apply t := if 0 < t.id then S.register (t.id.toNat - 1 + n) else t
  injective {t u} heq := by
    have hpos (k : Nat) : 0 < (S.register (k + n)).id := by
      have := h.le_id k
      omega
    obtain ⟨i⟩ := t
    obtain ⟨j⟩ := u
    dsimp only at heq
    have hid := congrArg Temp.id heq
    split at hid
    · split at hid
      · have := h.eq_of_id_eq hid
        exact congrArg Temp.mk (by omega)
      · have := hpos (i.toNat - 1)
        dsimp only at hid
        omega
    · split at hid
      · have := hpos (j.toNat - 1)
        dsimp only at hid
        omega
      · exact congrArg Temp.mk hid
  keeps ht := if_neg (Int.not_lt.mpr ht)

theorem toRenaming_renames (S : Supply) {n : Nat} (h : S.Increasing n) : S.Renames (S.toRenaming h) n := by
  intro k
  change _ = if 0 < (k : Int) + 1 then S.register (((k : Int) + 1).toNat - 1 + n) else _
  rw [if_pos (by omega), show ((k : Int) + 1).toNat - 1 = k by omega]

theorem inOrder_increasing (n : Nat) : Supply.inOrder.Increasing n where
  positive := by
    change 0 < (n : Int) + 1
    omega
  increases k _ := by
    change (k : Int) + 1 < ((k + 1 : Nat) : Int) + 1
    omega

end Supply

/-! ### Trees -/

mutual

/-- The tree with other registers. -/
def Stm.rename (r : Temp → Temp) : Stm → Stm
  | .hole => .hole
  | .move dst src => .move (dst.rename r) (src.rename r)
  | .exp e => .exp (e.rename r)
  | .label l => .label l
  | .seq first second => .seq (first.rename r) (second.rename r)
  | .jump target labels => .jump (target.rename r) labels
  | .cjump rel left right t f => .cjump rel (left.rename r) (right.rename r) t f

@[inherit_doc Stm.rename]
def Exp.rename (r : Temp → Temp) : Exp → Exp
  | .hole => .hole
  | .const v => .const v
  | .temp t => .temp (r t)
  | .bin op left right => .bin op (left.rename r) (right.rename r)
  | .mem addr => .mem (addr.rename r)
  | .call func args => .call (func.rename r) (Exp.renameAll r args)
  | .name l => .name l
  | .eseq s e => .eseq (s.rename r) (e.rename r)

@[inherit_doc Stm.rename]
def Exp.renameAll (r : Temp → Temp) : List Exp → List Exp
  | [] => []
  | e :: es => e.rename r :: Exp.renameAll r es

end

theorem Exp.renameAll_eq_map (r : Temp → Temp) (es : List Exp) : Exp.renameAll r es = es.map (Exp.rename r) := by
  induction es with
  | nil => rfl
  | cons e rest ih => rw [Exp.renameAll, ih, List.map_cons]

/-- A sequence is renamed part by part, since renaming neither makes nor fills holes. -/
theorem Stm.rename_seqs (r : Temp → Temp) (ss : List Stm) : (seqs ss).rename r = seqs (ss.map (Stm.rename r)) := by
  induction ss with
  | nil => rfl
  | cons s rest ih =>
    simp only [List.map_cons, seqs]
    rw [← ih]
    cases s with
    | hole => rfl
    | _ => cases seqs rest <;> rfl

/-! ### Storage -/

namespace Access

/-- The storage with another register, if it is one. -/
def rename (r : Temp → Temp) : Access → Access
  | .inFrame offset => .inFrame offset
  | .inReg t => .inReg (r t)

theorem reg?_rename (r : Temp → Temp) (a : Access) : (a.rename r).reg? = a.reg?.map r := by
  cases a <;> rfl

@[simp] theorem rename_rename (r r' : Temp → Temp) (a : Access) : (a.rename r).rename r' = a.rename (r' ∘ r) := by
  cases a <;> rfl

theorem rename_eq_inFrame (r : Temp → Temp) (a : Access) (offset : Int) :
    a.rename r = .inFrame offset ↔ a = .inFrame offset := by
  cases a with
  | inFrame => rfl
  | inReg => exact ⟨nofun, nofun⟩

theorem rename_exp (r : Renaming) (a : Access) :
    (a.exp X86.framePointerExp).rename r = (a.rename r).exp X86.framePointerExp := by
  have hfp : r X86.framePointer = X86.framePointer := r.keeps (by decide)
  cases a with
  | inFrame offset => simp only [exp, rename, X86.framePointerExp, Exp.rename, hfp]
  | inReg t => rfl

end Access

theorem registersOf_rename (r : Temp → Temp) (as : List Access) :
    registersOf (as.map (Access.rename r)) = (registersOf as).map r := by
  simp only [registersOf, List.filterMap_map, List.map_filterMap, Function.comp_def, Access.reg?_rename]

/-! ### Code -/

/-- The instruction with other registers. -/
def Instr.rename (r : Temp → Temp) : Instr → Instr
  | .oper asm dst src jumps syms => .oper asm (dst.map r) (src.map r) jumps syms
  | .move asm dst src => .move asm (r dst) (r src)
  | .label asm name => .label asm name

namespace Instr

@[simp] theorem uses_rename (r : Temp → Temp) (x : Instr) : (x.rename r).uses = x.uses.map r := by
  cases x <;> rfl

@[simp] theorem defs_rename (r : Temp → Temp) (x : Instr) : (x.rename r).defs = x.defs.map r := by
  cases x <;> rfl

@[simp] theorem rename_rename (r r' : Temp → Temp) (x : Instr) : (x.rename r).rename r' = x.rename (r' ∘ r) := by
  cases x <;> simp [rename]

end Instr

theorem Check.mem_mentioned {code : List Instr} {liveIn : List Temp} {t : Temp} :
    t ∈ mentioned code liveIn ↔ t ∈ liveIn ∨ ∃ x ∈ code, t ∈ x.uses ∨ t ∈ x.defs := by
  simp [mentioned]

theorem Check.mentioned_append (code code' : List Instr) :
    mentioned (code ++ code') [] = mentioned code [] ++ mentioned code' [] := by
  simp [mentioned]

theorem Check.mentioned_rename (r : Temp → Temp) (code : List Instr) (liveIn : List Temp) :
    mentioned (code.map (Instr.rename r)) (liveIn.map r) = (mentioned code liveIn).map r := by
  simp [mentioned, List.flatMap_map, List.map_flatMap]

namespace X86

/-- The frame with other registers for its formals. -/
def Frame.rename (r : Temp → Temp) (frame : Frame) : Frame :=
  { frame with formals := frame.formals.map (Access.rename r) }

/-- Entry code compares formals only with slots, so it is the same for all registers. -/
theorem Frame.rename_entryMoves (r : Renaming) (i : Nat) (formals : List Access) :
    (entryMoves i formals).map (Stm.rename r) = entryMoves i (formals.map (Access.rename r)) := by
  induction formals generalizing i with
  | nil => rfl
  | cons a rest ih =>
    have hslot : a.rename r = incoming i ↔ a = incoming i := a.rename_eq_inFrame r _
    simp only [entryMoves, List.map_cons, hslot]
    split
    · exact ih (i + 1)
    · rw [List.map_cons, ih, Stm.rename, a.rename_exp, Access.rename_exp]
      rfl

/-! ### Procedures -/

namespace Procedure

/-- The procedure with other registers. -/
def rename (r : Temp → Temp) (p : Procedure) : Procedure :=
  { p with frame := p.frame.rename r, body := p.body.map (Instr.rename r) }

/-- The registers of a procedure: those of its formals, then those of its code, as they come. -/
def mentioned (p : Procedure) : List Temp := registersOf p.frame.formals ++ Check.mentioned p.body []

/-- A virtual register is numbered by its first place in the list. -/
def numbered (ts : List Temp) (t : Temp) : Temp := if t.isFixed then t else ⟨ts.idxOf t + 1⟩

/-- The procedure with its virtual registers numbered by first mention. -/
def renumbered (p : Procedure) : Procedure := p.rename (numbered p.mentioned)

theorem mentioned_rename (r : Temp → Temp) (p : Procedure) : (p.rename r).mentioned = p.mentioned.map r := by
  rw [mentioned, mentioned, List.map_append, ← registersOf_rename, ← Check.mentioned_rename r p.body []]
  rfl

theorem rename_rename (r r' : Temp → Temp) (p : Procedure) : (p.rename r).rename r' = p.rename (r' ∘ r) := by
  simp [rename, Frame.rename, Function.comp_def]

theorem numbered_map (r : Renaming) (ts : List Temp) : numbered (ts.map r) ∘ r = numbered ts := by
  funext t
  have hplace : (ts.map r).idxOf (r t) = ts.idxOf t := by
    rw [List.idxOf, List.idxOf, List.findIdx_map]
    refine congrArg (List.findIdx · ts) (funext fun u => ?_)
    exact Bool.eq_iff_iff.mpr (by simp [r.eq_iff])
  rw [Function.comp_apply, numbered, numbered, r.isFixed_apply, hplace]
  split
  · next hfixed => exact r.keeps (Int.le_of_lt (of_decide_eq_true hfixed))
  · rfl

/-- Renumbering forgets which registers there were. -/
theorem renumbered_rename (r : Renaming) (p : Procedure) : (p.rename r).renumbered = p.renumbered := by
  rw [renumbered, mentioned_rename, rename_rename, numbered_map, renumbered]

end Procedure

end X86

end Lowering
