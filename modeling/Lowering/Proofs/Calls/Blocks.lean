import Lowering.Proofs.Calls.Stack
import Lowering.Proofs.Operands.Changes
import Lowering.Proofs.Tiling.Totality

/-!
# The blocks of calls

The code of a tree falls into single instructions and blocks of calls, one block for every call. A block pushes the
arguments from right to left, calls, takes the arguments off the stack and copies the result. Arguments are evaluated
before the block starts, with all the calls in them, so blocks do not overlap. No other instruction pushes, calls or
moves the stack pointer, unless the tree itself moves to it.
-/

namespace Lowering

namespace Subtree

/-- The function and the arguments of a call. -/
def call? : Subtree → Option (Exp × List Exp)
  | .exp (.call func args) => some (func, args)
  | _ => none

/-- The calls of a tree, each behind those in its function and in its arguments. -/
def calls (x : Subtree) : List (Exp × List Exp) := x.postorder.filterMap call?

end Subtree

namespace X86

open Selecting

/-! ### Before a block -/

/-- From counter `n` the function of a call is found: by its name, or in the register that its evaluation returns. -/
inductive FuncYields : (n : Nat) → Exp → (code : List Instr) → Label ⊕ Temp → (n' : Nat) → Prop where
  | name (n : Nat) (l : Label) : FuncYields n (.name l) [] (.inl l) n
  | reg {n n' : Nat} {func : Exp} {code : List Instr} {t : Temp} (hfunc : ∀ l, func ≠ .name l)
      (hyields : (X86.rules.tileExp func).Yields n code (.ok t) n') : FuncYields n func code (.inr t) n'

/-- From counter `n` arguments are evaluated from left to right: constants as they stand, the others to the registers
that their evaluation returns. -/
inductive ArgsYield : (n : Nat) → List Exp → (code : List Instr) → List (Word ⊕ Temp) → (n' : Nat) → Prop where
  | nil (n : Nat) : ArgsYield n [] [] [] n
  | const {n n' : Nat} {args : List Exp} {code : List Instr} {operands : List (Word ⊕ Temp)} (i : Word)
      (hrest : ArgsYield n args code operands n') : ArgsYield n (.const i :: args) code (.inl i :: operands) n'
  | reg {n n₁ n' : Nat} {e : Exp} {args : List Exp} {code code' : List Instr} {t : Temp}
      {operands : List (Word ⊕ Temp)} (he : ∀ i, e ≠ .const i)
      (hyields : (X86.rules.tileExp e).Yields n code (.ok t) n₁) (hrest : ArgsYield n₁ args code' operands n') :
      ArgsYield n (e :: args) (code ++ code') (.inr t :: operands) n'

theorem ArgsYield.of_lowers {args : List Exp} {n n' : Nat} {code : List Instr} {regs : List Temp}
    (h : Lowers n ((registerArgs args).map .exp) code regs n') : ArgsYield n args code (placeArgs args regs) n' := by
  induction args generalizing n code regs with
  | nil =>
    cases h
    exact .nil _
  | cons e args ih =>
    cases hconst : constOf? e with
    | some i =>
      obtain rfl := eq_const_of_constOf? hconst
      exact .const i (ih h)
    | none =>
      have hargs : registerArgs (e :: args) = e :: registerArgs args := List.filter_cons_of_pos (by rw [hconst]; rfl)
      rw [hargs] at h
      obtain ⟨c, r, n₁, c', r', hfirst, hrest, rfl, rfl⟩ := Lowers.split [.exp e] h
      obtain ⟨t, rfl, hyields⟩ := tileExp_run hfirst
      rw [placeArgs, hconst]
      refine .reg ?_ hyields (ih hrest)
      rintro i rfl
      cases hconst

/-! ### Segments -/

/-- A call of the tree and the block it is lowered to. -/
structure CallBlock where
  func : Exp
  args : List Exp
  callee : Label ⊕ Temp
  operands : List (Word ⊕ Temp)
  fresh : Temp

/-- The call of a function by name or through a register. -/
def callInstr : Label ⊕ Temp → Instr
  | .inl l => .oper Form.call.asm callerSaved [] [] [l]
  | .inr t => oper .callReg callerSaved [t]

def CallBlock.code (b : CallBlock) : List Instr := callBlock (callInstr b.callee) b.operands b.fresh

inductive Segment where
  | single (x : Instr)
  | call (b : CallBlock)

namespace Segment

def code : Segment → List Instr
  | .single x => [x]
  | .call b => b.code

/-- The call that a segment is the block of. -/
def node? : Segment → Option (Exp × List Exp)
  | .single _ => none
  | .call b => some (b.func, b.args)

end Segment

/-- The text of the instruction neither pushes nor calls nor adds to the stack pointer. -/
structure Quiet (x : Instr) : Prop where
  noPush : mnemonic? x ≠ some .push
  noCall : mnemonic? x ≠ some .call
  level : stackShift x = 0

/-- Besides, the instruction does not name the stack pointer as a result and leaves it where it is. -/
structure Steady (x : Instr) : Prop extends Quiet x where
  notDefined : stackPointer ∉ x.defs
  keeps : ∀ w m m', exec? w x m = some (.next m') → m'.regs stackPointer = m.regs stackPointer

/-- The code before a block ends with the code of the function and of the arguments, which come to the operands of the
block. The register of the result is the next one handed out. -/
def CallBlock.Follows (b : CallBlock) (n n' : Nat) (before : List Instr) : Prop :=
  ∃ pre code code' k k₁ k₂, before = pre ++ code ++ code' ∧ n ≤ k ∧ FuncYields k b.func code b.callee k₁ ∧
    ArgsYield k₁ b.args code' b.operands k₂ ∧ b.fresh = ⟨(k₂ : Int) + 1⟩ ∧ k₂ < n'

/-- Every block follows the code of its operands, in segments that stand behind `pre`. -/
def BlocksFollow (n n' : Nat) (pre : List Instr) (segs : List Segment) : Prop :=
  ∀ before b after, segs = before ++ .call b :: after → b.Follows n n' (pre ++ before.flatMap Segment.code)

/-- Code that trees are lowered to, from counter `n` up to `n'`, cut into segments. -/
structure Segmented (n : Nat) (xs : List Subtree) (code : List Instr) (n' : Nat) (segs : List Segment) : Prop where
  code_eq : code = segs.flatMap Segment.code
  /-- There is one block for every call, in order. -/
  nodes : segs.filterMap Segment.node? = xs.flatMap Subtree.calls
  steady : ∀ x, .single x ∈ segs → Steady x
  blocks : BlocksFollow n n' [] segs

/-! ### Putting segments together -/

theorem CallBlock.Follows.mono {b : CallBlock} {n n₀ n' n₁ : Nat} {before : List Instr} (h : b.Follows n n' before)
    (hn : n₀ ≤ n) (hn' : n' ≤ n₁) (pre : List Instr) : b.Follows n₀ n₁ (pre ++ before) := by
  obtain ⟨pre', code, code', k, k₁, k₂, rfl, hk, hfunc, hargs, hfresh, hk₂⟩ := h
  refine ⟨pre ++ pre', code, code', k, k₁, k₂, ?_, by omega, hfunc, hargs, hfresh, by omega⟩
  rw [List.append_assoc, List.append_assoc, List.append_assoc]

namespace BlocksFollow

variable {n n₀ n' n₁ : Nat} {pre : List Instr} {segs segs' : List Segment}

theorem mono (h : BlocksFollow n n' [] segs) (hn : n₀ ≤ n) (hn' : n' ≤ n₁) (pre : List Instr) :
    BlocksFollow n₀ n₁ pre segs := by
  intro before b after hsegs
  exact (h before b after hsegs).mono hn hn' pre

theorem append (h : BlocksFollow n n' pre segs) (h' : BlocksFollow n n' (pre ++ segs.flatMap Segment.code) segs') :
    BlocksFollow n n' pre (segs ++ segs') := by
  intro before b after hsegs
  rcases List.append_eq_append_iff.mp hsegs with ⟨mid, rfl, hsegs'⟩ | ⟨mid, rfl, hafter⟩
  · have hfollows := h' mid b after hsegs'
    rw [List.append_assoc, ← List.flatMap_append] at hfollows
    exact hfollows
  · cases mid with
    | nil =>
      have hfollows := h' [] b after hafter.symm
      rw [List.flatMap_nil, List.append_nil, List.append_nil] at hfollows
      exact hfollows
    | cons seg mid =>
      obtain ⟨rfl, -⟩ := List.cons.inj hafter
      exact h before b mid rfl

theorem of_singles (code : List Instr) : BlocksFollow n n' pre (code.map .single) := by
  intro before b after hsegs
  have hmem : Segment.call b ∈ code.map .single := by simp [hsegs]
  simp at hmem

theorem of_call {b : CallBlock} (hb : b.Follows n n' pre) : BlocksFollow n n' pre [.call b] := by
  intro before b' after hsegs
  cases before with
  | nil =>
    cases hsegs
    rw [List.flatMap_nil, List.append_nil]
    exact hb
  | cons seg before =>
    have := (List.cons.inj hsegs).2
    simp at this

end BlocksFollow

namespace Segmented

variable {n n₁ n₂ : Nat} {xs ys : List Subtree} {code code' : List Instr} {segs segs' : List Segment}

theorem nil (n : Nat) : Segmented n [] [] n [] where
  code_eq := rfl
  nodes := rfl
  steady := by simp
  blocks := .of_singles []

theorem append (h : Segmented n xs code n₁ segs) (h' : Segmented n₁ ys code' n₂ segs') (hn : n ≤ n₁) (hn₁ : n₁ ≤ n₂) :
    Segmented n (xs ++ ys) (code ++ code') n₂ (segs ++ segs') where
  code_eq := by rw [h.code_eq, h'.code_eq, List.flatMap_append]
  nodes := by rw [List.filterMap_append, h.nodes, h'.nodes, List.flatMap_append]
  steady := by
    intro x hx
    exact (List.mem_append.mp hx).elim (h.steady x) (h'.steady x)
  blocks := (h.blocks.mono (Nat.le_refl n) hn₁ []).append (h'.blocks.mono hn (Nat.le_refl n₂) _)

end Segmented

/-! ### Tiles -/

/-- The call that a tile is for. -/
def Tile.call? : Tile → Option (Exp × List Exp)
  | .call l args => some (.name l, args)
  | .callReg func args => some (func, args)
  | _ => none

theorem calls_registerArgs (args : List Exp) :
    ((registerArgs args).map Subtree.exp).flatMap Subtree.calls = (Exp.postorderAll args).filterMap Subtree.call? := by
  induction args with
  | nil => rfl
  | cons e args ih =>
    rw [Exp.postorderAll, List.filterMap_append, ← ih]
    cases hconst : constOf? e with
    | some i =>
      obtain rfl := eq_const_of_constOf? hconst
      rfl
    | none =>
      rw [registerArgs, List.filter_cons_of_pos (by rw [hconst]; rfl)]
      rfl

/-- The calls of a tree are those of the parts of its tile, and the one that the tile is for. -/
theorem Covers.calls {x : Subtree} {tile : Tile} (hcovers : Covers x tile) :
    x.calls = tile.parts.flatMap Subtree.calls ++ tile.call?.toList := by
  cases hcovers with
  | call l args =>
    rw [Tile.parts, calls_registerArgs]
    simp [Subtree.calls, Subtree.postorder, Exp.postorder, Subtree.call?, Tile.call?, List.filterMap_cons]
  | callReg func args =>
    rw [Tile.parts, List.flatMap_cons, calls_registerArgs]
    simp [Subtree.calls, Subtree.postorder, Exp.postorder, Subtree.call?, Tile.call?]
  | _ =>
    simp [Subtree.calls, Subtree.postorder, Stm.postorder, Exp.postorder, Subtree.call?, Tile.parts, Tile.call?,
      List.filterMap_cons]

/-! ### Instructions outside the blocks -/

def Form.quiet : Form → Bool
  | .push | .pushConst _ | .call | .callReg | .pop _ => false
  | _ => true

theorem Quiet.of_spelled {x : Instr} {a : Assembly} (hx : spelled? x = some a) (hpush : a.mnemonic ≠ .push)
    (hcall : a.mnemonic ≠ .call) (hlevel : a.stackShift = 0) : Quiet x where
  noPush := by simpa [mnemonic_of_spelled hx]
  noCall := by simpa [mnemonic_of_spelled hx]
  level := (stackShift_of_spelled hx).trans hlevel

theorem Quiet.of_unspelled {x : Instr} (hx : spelled? x = none) : Quiet x where
  noPush := by simp [mnemonic?, hx]
  noCall := by simp [mnemonic?, hx]
  level := by simp [X86.stackShift, hx]

theorem Quiet.form {form : Form} (hform : form.quiet = true) (dst src : List Temp) (jumps syms : List Label) :
    Quiet (.oper form.asm dst src jumps syms) := by
  by_cases hother : ∃ n, form = .branch (.other n)
  · obtain ⟨n, rfl⟩ := hother
    exact .of_unspelled rfl
  · have hspelled := spelled_form (fun n hn => hother ⟨n, hn⟩) dst src jumps syms
    cases form with
    | push | pushConst | call | callReg | pop => cases hform
    | arith op | arithConst op =>
      exact .of_spelled hspelled (by simp [Form.reading]) (by simp [Form.reading]) (by cases op <;> rfl)
    | _ => exact .of_spelled hspelled (by simp [Form.reading]) (by simp [Form.reading]) rfl

theorem Quiet.copy (d s : Temp) : Quiet (copy d s) := .of_spelled (spelled_copy d s) (by simp) (by simp) rfl

theorem Quiet.label (asm : Text) (l : Label) : Quiet (.label asm l) := .of_unspelled rfl

theorem Tile.quiet_block (tile : Tile) (htile : tile.call? = none) (regs : List Temp) (fresh : Temp) :
    ∀ x ∈ tile.block regs fresh, Quiet x := by
  have hone {x : Instr} (hx : Quiet x) : ∀ y ∈ [x], Quiet y := List.forall_mem_singleton.mpr hx
  have htwo {x y : Instr} (hx : Quiet x) (hy : Quiet y) : ∀ z ∈ [x, y], Quiet z :=
    List.forall_mem_cons.mpr ⟨hx, hone hy⟩
  cases tile with
  | call | callReg => cases htile
  | drop | seq | temp | eseq => simp [Tile.block]
  | label l => exact hone (.label _ l)
  | setCopy dst => exact hone (.copy dst _)
  | branch | branchConst => exact htwo (.form (by rfl) ..) (.form (by rfl) ..)
  | arith | arithConst | mul | shiftConst => exact htwo (.copy ..) (.form (by rfl) ..)
  | shift => exact List.forall_mem_cons.mpr ⟨.copy .., htwo (.copy ..) (.form (by rfl) ..)⟩
  | div =>
    refine List.forall_mem_cons.mpr ⟨.copy .., List.forall_mem_cons.mpr ⟨.form (by rfl) .., ?_⟩⟩
    exact htwo (.form (by rfl) ..) (.copy ..)
  | _ => exact hone (.form (by rfl) ..)

/-- The block of a tile leaves the stack pointer alone, unless the tile is for a call or sets it. -/
theorem Tile.steady_block (tile : Tile) (htile : tile.call? = none) (hsets : stackPointer ∉ tile.sets)
    (regs : List Temp) {fresh : Temp} (hfresh : fresh ≠ stackPointer) : ∀ x ∈ tile.block regs fresh, Steady x := by
  intro x hx
  have hdefs : stackPointer ∉ x.defs := by
    intro hmem
    obtain hset | ⟨-, heq⟩ := (tile.mem_definedBy_block regs fresh _).mp (List.mem_flatMap.mpr ⟨x, hx, hmem⟩)
    · exact hsets hset
    · exact hfresh heq.symm
  have hchanges := tile.changesOnlyDefs regs fresh x hx
  exact ⟨tile.quiet_block htile regs fresh x hx, hdefs, fun w m m' h => hchanges w m m' h _ hdefs⟩

/-- Besides calls, only a move to the stack pointer sets it. -/
theorem Covers.eq_move_of_sets {x : Subtree} {tile : Tile} (hcovers : Covers x tile) (htile : tile.call? = none)
    (hsets : stackPointer ∈ tile.sets) : ∃ src, x = .stm (.move (.temp stackPointer) src) := by
  cases hcovers with
  | setConst | setLoad | setCopy =>
    obtain rfl := List.mem_singleton.mp hsets
    exact ⟨_, rfl⟩
  | call | callReg => cases htile
  | div | shift => exact absurd hsets (by simp [Tile.sets]; decide)
  | _ => cases hsets

theorem ne_stackPointer_of_nonneg {t : Temp} (ht : 0 ≤ t.id) : t ≠ stackPointer := by
  rintro rfl
  exact absurd ht (by decide)

theorem Tile.fresh_ne_stackPointer (tile : Tile) (n : Nat) : tile.fresh n ≠ stackPointer := by
  apply ne_stackPointer_of_nonneg
  cases htakes : tile.takesFresh with
  | true =>
    rw [Tile.fresh_inOrder htakes]
    simp only
    omega
  | false =>
    rw [Tile.fresh, htakes]
    exact Int.le_refl 0

/-! ### Derivations -/

section Derivation

variable {n n₁ n' : Nat} {x : Subtree} {tile : Tile} {code : List Instr} {regs : List Temp} {segs : List Segment}

/-- The tile of a call puts its block behind the code of the function and the arguments. -/
theorem Lowers.block_follows {node : Exp × List Exp} (hcovers : Covers x tile) (hnode : tile.call? = some node)
    (hparts : Lowers n tile.parts code regs n₁) :
    ∃ b : CallBlock, (b.func, b.args) = node ∧ b.code = tile.block regs (tile.fresh n₁) ∧
      b.Follows n (tile.next n₁) code := by
  cases hcovers with
  | call l args =>
    cases hnode
    refine ⟨⟨.name l, args, .inl l, placeArgs args regs, ⟨(n₁ : Int) + 1⟩⟩, rfl, rfl, ?_⟩
    exact ⟨[], [], code, n, n, n₁, rfl, Nat.le_refl n, .name n l, .of_lowers hparts, rfl, Nat.lt_succ_self n₁⟩
  | callReg func args hfunc =>
    cases hnode
    obtain ⟨c, r, k, c', r', hfirst, hrest, rfl, rfl⟩ := Lowers.split [.exp func] hparts
    obtain ⟨t, rfl, hyields⟩ := tileExp_run hfirst
    refine ⟨⟨func, args, .inr t, placeArgs args r', ⟨(n₁ : Int) + 1⟩⟩, rfl, rfl, ?_⟩
    exact ⟨[], c, c', n, k, n₁, rfl, Nat.le_refl n, .reg hfunc hyields, .of_lowers hrest, rfl, Nat.lt_succ_self n₁⟩
  | _ => cases hnode

theorem Segmented.node (h : Segmented n tile.parts code n₁ segs) (hcovers : Covers x tile) (hn : n₁ ≤ n')
    (own : List Segment) (hnodes : own.filterMap Segment.node? = tile.call?.toList)
    (hsteady : ∀ y, .single y ∈ own → Steady y) (hblocks : BlocksFollow n n' code own) :
    Segmented n [x] (code ++ own.flatMap Segment.code) n' (segs ++ own) where
  code_eq := by rw [h.code_eq, List.flatMap_append]
  nodes := by rw [List.filterMap_append, h.nodes, hnodes, List.flatMap_singleton, hcovers.calls]
  steady := by
    intro y hy
    exact (List.mem_append.mp hy).elim (h.steady y) (hsteady y)
  blocks := by
    apply (h.blocks.mono (Nat.le_refl n) hn []).append
    rw [List.nil_append, ← h.code_eq]
    exact hblocks

/-- The code of a tile and its parts is cut into the segments of the parts and the block of a call, or into the segments
of the parts and single instructions. -/
theorem Segmented.of_parts (h : Segmented n tile.parts code n₁ segs) (hcovers : Covers x tile)
    (hparts : Lowers n tile.parts code regs n₁) (hmoves : ∀ src, x ≠ .stm (.move (.temp stackPointer) src)) :
    ∃ segs', Segmented n [x] (code ++ tile.block regs (tile.fresh n₁)) (tile.next n₁) segs' := by
  cases hnode : tile.call? with
  | some node =>
    obtain ⟨b, rfl, hcode, hfollows⟩ := hparts.block_follows hcovers hnode
    have hsegs := h.node hcovers (tile.le_next n₁) [.call b] (by simp [hnode, Segment.node?]) (by simp)
      (.of_call hfollows)
    rw [List.flatMap_singleton, Segment.code, hcode] at hsegs
    exact ⟨_, hsegs⟩
  | none =>
    have hsets : stackPointer ∉ tile.sets := by
      intro hmem
      obtain ⟨src, hx⟩ := hcovers.eq_move_of_sets hnode hmem
      exact hmoves src hx
    have hsteady := tile.steady_block hnode hsets regs (tile.fresh_ne_stackPointer n₁)
    have hsegs := h.node hcovers (tile.le_next n₁) ((tile.block regs (tile.fresh n₁)).map .single)
      (by simp [hnode, Segment.node?]) (by simpa using hsteady) (.of_singles _)
    simp only [List.flatMap_map, Segment.code, List.flatMap_singleton'] at hsegs
    exact ⟨_, hsegs⟩

/-- Code that has a derivation is cut into single instructions and blocks of calls, unless a tree moves to the stack
pointer. -/
theorem Lowers.segmented {xs : List Subtree} (h : Lowers n xs code regs n')
    (hmoves : ∀ x ∈ xs, ∀ src, .stm (.move (.temp stackPointer) src) ∉ x.postorder) :
    ∃ segs, Segmented n xs code n' segs := by
  induction h with
  | nil n => exact ⟨[], .nil n⟩
  | @cons n n₁ n₂ x rest tile code code' regs regs' htile hparts hrest ihparts ihrest =>
    obtain ⟨hx, hxs⟩ := List.forall_mem_cons.mp hmoves
    have hcovers := covers_of_tile? htile
    obtain ⟨segs, hsegs⟩ := ihparts fun part hpart src hmem => hx src (hcovers.mem_postorder_of_part hpart hmem)
    have hself (src : Exp) : x ≠ .stm (.move (.temp stackPointer) src) := by
      rintro rfl
      exact hx src (Subtree.mem_postorder_self rfl)
    obtain ⟨own, hown⟩ := hsegs.of_parts hcovers hparts hself
    obtain ⟨segs', hsegs'⟩ := ihrest hxs
    exact ⟨own ++ segs', hown.append hsegs' (Nat.le_trans hparts.le (tile.le_next n₁)) hrest.le⟩

end Derivation

end X86

end Lowering
