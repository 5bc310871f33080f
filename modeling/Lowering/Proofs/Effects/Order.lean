import Lowering.Proofs.Machine.Assembly
import Lowering.Proofs.Tiling.Refusals

/-!
# The order of side effects

Stores, calls, label definitions and jumps stand in the code of a tree as their nodes stand in the tree, read from left
to right with each node behind its parts. None is lost, made twice or moved, however the rules cut the tree into tiles.
What an instruction does is read from its text, and what a node does from the node alone.
-/

namespace Lowering

/-- Something that code does besides computing values. -/
inductive SideEffect where
  /-- A word goes to memory, at a register plus a displacement or at a fixed address. -/
  | store (based : Bool) (disp : Word)
  /-- A call of a function by name or through a register. -/
  | call (func : Option Label)
  | label (name : Label)
  | jump (target : Label)
  /-- A jump through a register, to one of some labels. -/
  | jumpAmong (labels : List Label)
  | branch (ifTrue ifFalse : Label)
  deriving DecidableEq

/-! ### Trees -/

mutual

/-- The nodes of a tree from left to right, each behind its parts. -/
def Stm.postorder : Stm → List Subtree
  | .hole => []
  | .move dst src => dst.postorder ++ src.postorder ++ [.stm (.move dst src)]
  | .exp e => e.postorder ++ [.stm (.exp e)]
  | .label l => [.stm (.label l)]
  | .seq first second => first.postorder ++ second.postorder ++ [.stm (.seq first second)]
  | .jump target labels => target.postorder ++ [.stm (.jump target labels)]
  | .cjump rel left right t f => left.postorder ++ right.postorder ++ [.stm (.cjump rel left right t f)]

@[inherit_doc Stm.postorder]
def Exp.postorder : Exp → List Subtree
  | .hole => []
  | .const i => [.exp (.const i)]
  | .temp t => [.exp (.temp t)]
  | .bin op left right => left.postorder ++ right.postorder ++ [.exp (.bin op left right)]
  | .mem addr => addr.postorder ++ [.exp (.mem addr)]
  | .call func args => func.postorder ++ Exp.postorderAll args ++ [.exp (.call func args)]
  | .name l => [.exp (.name l)]
  | .eseq s e => s.postorder ++ e.postorder ++ [.exp (.eseq s e)]

@[inherit_doc Stm.postorder]
def Exp.postorderAll : List Exp → List Subtree
  | [] => []
  | e :: es => e.postorder ++ Exp.postorderAll es

end

/-- The label that an expression names. -/
def Exp.symbol? : Exp → Option Label
  | .name l => some l
  | _ => none

/-- The store that an address is for. -/
def X86.Address.stored : X86.Address → SideEffect
  | .based _ disp _ => .store true disp
  | .absolute i => .store false i

namespace Subtree

@[inherit_doc Stm.postorder]
def postorder : Subtree → List Subtree
  | .stm s => s.postorder
  | .exp e => e.postorder

/-- What a node itself does. -/
def sideEffect? : Subtree → Option SideEffect
  | .stm (.move (.mem addr) _) => some (X86.addressOf addr).stored
  | .stm (.label l) => some (.label l)
  | .stm (.jump target labels) =>
    match target.symbol? with
    | some l => some (.jump l)
    | none => some (.jumpAmong labels)
  | .stm (.cjump _ _ _ t f) => some (.branch t f)
  | .exp (.call func _) => some (.call func.symbol?)
  | _ => none

/-- The side effects of a tree, in order. -/
def sideEffects (x : Subtree) : List SideEffect := x.postorder.filterMap sideEffect?

def sideEffectsAll (xs : List Subtree) : List SideEffect := xs.flatMap sideEffects

end Subtree

namespace X86

/-! ### Code -/

/-- A branch to the first of two labels or on to the second. -/
def branchAmong? : List Label → Option SideEffect
  | [t, f] => some (.branch t f)
  | _ => none

/-- What an instruction does, given its targets and symbols. -/
def Assembly.sideEffect? (targets symbols : List Label) : Assembly → Option SideEffect
  | ⟨.mov, .mem base disp :: _⟩ => some (.store base.isSome disp)
  | ⟨.call, .sym i :: _⟩ => some (.call symbols[i]?)
  | ⟨.call, _⟩ => some (.call none)
  | ⟨.jmp, .target i :: _⟩ => targets[i]?.map .jump
  | ⟨.jmp, _⟩ => some (.jumpAmong targets)
  | ⟨.jcc _, _⟩ => branchAmong? targets
  | _ => none

/-- What an instruction does. A branch on a relation outside the list has no mnemonic, but it has its targets. -/
def sideEffect? : Instr → Option SideEffect
  | .label _ l => some (.label l)
  | .move .. => none
  | .oper asm _ _ targets symbols =>
    match Assembly.read? asm with
    | some a => a.sideEffect? targets symbols
    | none => branchAmong? targets

/-- The side effects of code, in order. -/
def sideEffectsOf (code : List Instr) : List SideEffect := code.filterMap sideEffect?

theorem sideEffect_form {form : Form} (hform : ∀ n, form ≠ .branch (.other n)) (dst src : List Temp)
    (targets symbols : List Label) :
    sideEffect? (.oper form.asm dst src targets symbols) = form.reading.sideEffect? targets symbols := by
  rw [sideEffect?, read_asm form hform]

theorem sideEffect_oper {form : Form} (hform : ∀ n, form ≠ .branch (.other n)) (dst src : List Temp) :
    sideEffect? (oper form dst src) = form.reading.sideEffect? [] [] := sideEffect_form hform ..

theorem sideEffect_branch (rel : Rel) (t f : Label) : sideEffect? (X86.branch rel t f) = some (.branch t f) := by
  cases rel with
  | other n => rfl
  | _ => exact sideEffect_form (fun _ => by simp) ..

theorem sideEffect_copy (d s : Temp) : sideEffect? (copy d s) = none := rfl

theorem sideEffectsOf_cons (x : Instr) (code : List Instr) :
    sideEffectsOf (x :: code) = (sideEffect? x).toList ++ sideEffectsOf code := by
  rw [sideEffectsOf, List.filterMap_cons]
  cases sideEffect? x <;> rfl

theorem sideEffectsOf_append (code code' : List Instr) :
    sideEffectsOf (code ++ code') = sideEffectsOf code ++ sideEffectsOf code' := List.filterMap_append ..

theorem sideEffectsOf_pushes (args : List (Word ⊕ Temp)) : sideEffectsOf (args.map push) = [] := by
  induction args with
  | nil => rfl
  | cons v rest ih =>
    have hpush : sideEffect? (push v) = none := by
      cases v <;> exact sideEffect_oper (fun _ => Form.noConfusion) ..
    rw [List.map_cons, sideEffectsOf_cons, hpush]
    exact ih

/-- Of a call with its pushes and pops, the call counts. -/
theorem sideEffectsOf_callBlock {call : Instr} {func : Option Label} (hcall : sideEffect? call = some (.call func))
    (args : List (Word ⊕ Temp)) (fresh : Temp) : sideEffectsOf (callBlock call args fresh) = [.call func] := by
  have hpop : sideEffectsOf (if args.length ≠ 0 then
      [oper (.pop (args.length * wordSize)) [stackPointer] [stackPointer]] else []) = [] := by
    split
    · rw [sideEffectsOf_cons, sideEffect_oper fun _ => Form.noConfusion]
      rfl
    · rfl
  rw [callBlock, sideEffectsOf_append, sideEffectsOf_append, sideEffectsOf_append, sideEffectsOf_pushes, hpop,
    sideEffectsOf_cons, hcall]
  rfl

/-! ### Tiles -/

/-- What a tile does besides lowering its parts. -/
def Tile.sideEffect? : Tile → Option SideEffect
  | .store _ _ disp | .storeConst _ disp _ => some (.store true disp)
  | .storeAt addr _ => some (.store false addr)
  | .label l => some (.label l)
  | .jump l => some (.jump l)
  | .jumpReg _ labels => some (.jumpAmong labels)
  | .branchConst _ _ _ t f | .branch _ _ _ t f => some (.branch t f)
  | .call l _ => some (.call (some l))
  | .callReg _ _ => some (.call none)
  | _ => none

theorem Tile.sideEffectsOf_block (tile : Tile) (regs : List Temp) (fresh : Temp) :
    sideEffectsOf (tile.block regs fresh) = tile.sideEffect?.toList := by
  cases tile with
  | call l args => exact sideEffectsOf_callBlock rfl ..
  | callReg func args => exact sideEffectsOf_callBlock (sideEffect_oper (fun _ => Form.noConfusion) ..) ..
  | label l => rfl
  | jump l => rfl
  | jumpReg target labels => rfl
  | name l => rfl
  | drop | seq | temp | eseq => rfl
  | _ =>
    simp [Tile.block, sideEffect_oper, sideEffect_copy, sideEffect_branch, Form.reading,
      Assembly.sideEffect?, Tile.sideEffect?, sideEffectsOf]

/-! ### Trees and their tiles -/

/-- Constants among the arguments do nothing. -/
theorem sideEffectsAll_registerArgs (args : List Exp) :
    Subtree.sideEffectsAll ((registerArgs args).map Subtree.exp) =
      (Exp.postorderAll args).filterMap Subtree.sideEffect? := by
  induction args with
  | nil => rfl
  | cons e rest ih =>
    rw [registerArgs] at ih ⊢
    rw [Exp.postorderAll, List.filterMap_append, ← ih]
    cases hconst : constOf? e with
    | some i =>
      obtain rfl := eq_const_of_constOf? hconst
      rfl
    | none =>
      rw [List.filter_cons_of_pos (by rw [hconst]; rfl)]
      rfl

theorem sideEffects_const (i : Word) : (Subtree.exp (.const i)).sideEffects = [] := rfl

theorem sideEffects_bin (op : Op) (left right : Exp) :
    (Subtree.exp (.bin op left right)).sideEffects =
      (Subtree.exp left).sideEffects ++ (Subtree.exp right).sideEffects := by
  simp [Subtree.sideEffects, Subtree.postorder, Exp.postorder, Subtree.sideEffect?]

/-- An address does what its base does. -/
theorem sideEffects_of_based {addr e : Exp} {disp : Word} {k : Bool} (haddr : addressOf addr = .based e disp k) :
    (Subtree.exp addr).sideEffects = (Subtree.exp e).sideEffects := by
  rw [addressOf.eq_def] at haddr
  split at haddr
  · split at haddr
    · next hright =>
      cases haddr
      rw [eq_const_of_constOf? hright, sideEffects_bin, sideEffects_const, List.append_nil]
    · next hleft =>
      cases haddr
      rw [eq_const_of_constOf? hleft, sideEffects_bin, sideEffects_const, List.nil_append]
    · cases haddr
      rfl
  · split at haddr
    · next hright =>
      cases haddr
      rw [eq_const_of_constOf? hright, sideEffects_bin, sideEffects_const, List.append_nil]
    · cases haddr
      rfl
  · cases haddr
  · cases haddr
    rfl

theorem sideEffects_of_absolute {addr : Exp} {i : Word} (haddr : addressOf addr = .absolute i) :
    (Subtree.exp addr).sideEffects = [] := by
  rw [addressOf.eq_def] at haddr
  split at haddr
  · split at haddr <;> cases haddr
  · split at haddr <;> cases haddr
  · rfl
  · cases haddr

/-- A store does what its address and its source do, and then stores. -/
theorem sideEffects_store (addr src : Exp) :
    (Subtree.stm (.move (.mem addr) src)).sideEffects =
      Subtree.sideEffectsAll (storeTile addr src).parts ++ (storeTile addr src).sideEffect?.toList := by
  have hnode : (Subtree.stm (.move (.mem addr) src)).sideEffects =
      (Subtree.exp addr).sideEffects ++ (Subtree.exp src).sideEffects ++ [(addressOf addr).stored] := by
    simp [Subtree.sideEffects, Subtree.postorder, Stm.postorder, Exp.postorder, Subtree.sideEffect?,
      List.filterMap_cons]
  rw [hnode, storeTile]
  cases haddr : addressOf addr with
  | absolute i =>
    rw [sideEffects_of_absolute haddr]
    simp [Tile.parts, Subtree.sideEffectsAll, Tile.sideEffect?, Address.stored]
  | based e disp takesConst =>
    rw [sideEffects_of_based haddr]
    cases hsrc : constOf? src with
    | none => simp [Tile.parts, Subtree.sideEffectsAll, Tile.sideEffect?, Address.stored]
    | some j =>
      obtain rfl := eq_const_of_constOf? hsrc
      cases takesConst <;>
      simp [Tile.parts, Subtree.sideEffectsAll, Tile.sideEffect?, Address.stored, sideEffects_const]

theorem symbol?_eq_none {e : Exp} (he : ∀ l, e ≠ .name l) : e.symbol? = none := by
  cases e with
  | name l => exact absurd rfl (he l)
  | _ => rfl

/-- A tree does what the parts of its tile do, and then what the tile does. -/
theorem sideEffects_of_tile? {x : Subtree} {tile : Tile} (htile : tile? x = some tile) :
    x.sideEffects = Subtree.sideEffectsAll tile.parts ++ tile.sideEffect?.toList := by
  -- Which displacement a store has depends on the order of the rules, so stores are read off from their tile.
  have hstore (addr src : Exp) (hx : x = .stm (.move (.mem addr) src)) :
      x.sideEffects = Subtree.sideEffectsAll tile.parts ++ tile.sideEffect?.toList := by
    subst hx
    obtain rfl := Option.some.inj htile
    exact sideEffects_store addr src
  cases covers_of_tile? htile with
  | store | storeSum | storeSumLeft | storeDifference | storeAt | storeConst | storeConstSum => exact hstore _ _ rfl
  | call l args =>
    rw [Tile.parts, sideEffectsAll_registerArgs]
    simp [Subtree.sideEffects, Subtree.postorder, Exp.postorder, Subtree.sideEffect?, List.filterMap_cons, Exp.symbol?,
      Tile.sideEffect?]
  | callReg func args hfunc =>
    rw [Tile.parts, Subtree.sideEffectsAll, List.flatMap_cons, ← Subtree.sideEffectsAll, sideEffectsAll_registerArgs]
    simp [Subtree.sideEffects, Subtree.postorder, Exp.postorder, Subtree.sideEffect?, symbol?_eq_none hfunc,
      Tile.sideEffect?]
  | jumpReg target labels htarget =>
    simp [Subtree.sideEffects, Subtree.postorder, Stm.postorder, Subtree.sideEffect?, symbol?_eq_none htarget,
      Tile.parts, Subtree.sideEffectsAll, Tile.sideEffect?]
  | _ =>
    simp [Subtree.sideEffects, Subtree.postorder, Stm.postorder, Exp.postorder, Subtree.sideEffect?,
      List.filterMap_cons, Exp.symbol?, Tile.parts, Subtree.sideEffectsAll, Tile.sideEffect?]

/-- Code does what its trees do, in the same order. -/
theorem Lowers.sideEffects {n n' : Nat} {xs : List Subtree} {code : List Instr} {regs : List Temp}
    (h : Lowers n xs code regs n') : sideEffectsOf code = Subtree.sideEffectsAll xs := by
  induction h with
  | nil n => rfl
  | cons htile _ _ ihparts ihrest =>
    rw [sideEffectsOf_append, sideEffectsOf_append, ihparts, ihrest, Tile.sideEffectsOf_block,
      ← sideEffects_of_tile? htile]
    rfl

end X86

/-- Whenever a tree without holes is lowered, the code that is appended does what the nodes of the tree do, each once
and in order. -/
theorem lowered_code_keeps_order_of_effects :
    (∀ (s : Stm) (log log' : Log), s.whole = true → (X86.rules.tileStm s).run.run log = (.ok (), log') →
      ∃ code, log'.code = log.code ++ code ∧
        code.filterMap X86.sideEffect? = s.postorder.filterMap Subtree.sideEffect?) ∧
    ∀ (e : Exp) (t : Temp) (log log' : Log), e.whole = true → (X86.rules.tileExp e).run.run log = (.ok t, log') →
      ∃ code, log'.code = log.code ++ code ∧
        code.filterMap X86.sideEffect? = e.postorder.filterMap Subtree.sideEffect? := by
  constructor
  · intro s log log' hs hrun
    obtain ⟨code, hlowers, hcode⟩ := X86.lowers_of_tileStm hs hrun
    exact ⟨code, hcode, hlowers.sideEffects.trans (List.append_nil _)⟩
  · intro e t log log' he hrun
    obtain ⟨code, hlowers, hcode⟩ := X86.lowers_of_tileExp he hrun
    exact ⟨code, hcode, hlowers.sideEffects.trans (List.append_nil _)⟩

/-- A store whose address and source both do something, a branch on a call through a register, and the address alone. -/
theorem storeThenBranch_keeps_order_of_effects :
    let addr : Exp := .bin .plus (.const 4) (.call (.name "f") [.const 1, .eseq (.label "L") (.call (.name "g") [])])
    let src : Exp := .eseq (.move (.mem (.const 8)) (.const 2)) (.temp ⟨5⟩)
    let s : Stm := .seq (.move (.mem addr) src) (.cjump .lt (.const 0) (.call (.temp ⟨5⟩) []) "T" "F")
    (s.whole = true ∧ ∃ log', (X86.rules.tileStm s).run.run {} = (.ok (), log') ∧
      log'.code.filterMap X86.sideEffect? =
        [.label "L", .call (some "g"), .call (some "f"), .store false 8, .store true 4, .call none, .branch "T" "F"]) ∧
    addr.whole = true ∧ ∃ t log', (X86.rules.tileExp addr).run.run {} = (.ok t, log') ∧
      log'.code.filterMap X86.sideEffect? = [.label "L", .call (some "g"), .call (some "f")] := by
  intro addr src s
  constructor
  · obtain ⟨_, _, _, hlowers⟩ := X86.lowers_of_covered (x := .stm s) (by decide) (by decide) 0
    obtain ⟨journal, hrun⟩ := X86.tileStm_run hlowers {} rfl
    obtain ⟨code, hcode, heffects⟩ := lowered_code_keeps_order_of_effects.1 s {} _ (by decide) hrun
    refine ⟨by decide, _, hrun, ?_⟩
    rw [hcode]
    exact heffects.trans (by decide)
  · obtain ⟨_, _, _, hlowers⟩ := X86.lowers_of_covered (x := .exp addr) (by decide) (by decide) 0
    obtain ⟨t, -, hyields⟩ := X86.tileExp_run hlowers
    obtain ⟨journal, hrun⟩ := hyields {} rfl
    obtain ⟨code, hcode, heffects⟩ := lowered_code_keeps_order_of_effects.2 addr t {} _ (by decide) hrun
    refine ⟨by decide, t, _, hrun, ?_⟩
    rw [hcode]
    exact heffects.trans (by decide)

end Lowering
