import Lowering.Proofs.Calls.Stack
import Lowering.Proofs.Operands.Changes
import Lowering.Proofs.Tiling.Totality

/-!
# The registers that instructions list

A template is text, and the registers that go with it are listed apart. The lists say what the instruction does that the
text spells. It changes no register but those it lists as defined. On machines with the same memory and flags, the same
stack pointer and the same words in the registers that are listed as used, it comes to the same end, with the same
memory and the same words in the registers that are listed as defined. Registers that the text does not show count as
well: the halves of a dividend, the count of a shift, the stack pointer of a push and the register that is updated in
place.
-/

namespace Lowering

namespace X86

/-! ### Machines that agree -/

/-- The machines have the same memory and flags and the same words in some registers. -/
structure AgreeOn (ts : List Temp) (m m' : Machine) : Prop where
  regs : ∀ t ∈ ts, m.regs t = m'.regs t
  mem : m.mem = m'.mem
  flags : m.flags = m'.flags

/-- Functions keep to the C convention: their arguments are on the stack, so all they read is memory and where the
stack is. -/
def World.FollowsC (w : World) : Prop :=
  ∀ addr m m', m.mem = m'.mem → m.regs stackPointer = m'.regs stackPointer → w.callee addr m = w.callee addr m'

namespace AgreeOn

variable {ts : List Temp} {m m' : Machine}

theorem mono (h : AgreeOn ts m m') {us : List Temp} (hus : us ⊆ ts) : AgreeOn us m m' where
  regs := fun t ht => h.regs t (hus ht)
  mem := h.mem
  flags := h.flags

theorem none (h : AgreeOn ts m m') : AgreeOn [] m m' := h.mono (List.nil_subset ts)

theorem set (h : AgreeOn ts m m') (t : Temp) {v v' : Word} (hv : v = v') :
    AgreeOn (t :: ts) (m.set t v) (m'.set t v') where
  regs := by
    intro u hu
    by_cases hut : u = t
    · rw [hut, Machine.set_self, Machine.set_self, hv]
    · rw [Machine.set_of_ne m v hut, Machine.set_of_ne m' v' hut]
      exact h.regs u (List.mem_of_ne_of_mem hut hu)
  mem := h.mem
  flags := h.flags

theorem forget (h : AgreeOn ts m m') : AgreeOn ts m.forget m'.forget where
  regs := h.regs
  mem := h.mem
  flags := rfl

theorem store (h : AgreeOn ts m m') {a a' v v' : Word} (ha : a = a') (hv : v = v') :
    AgreeOn ts (m.store a v) (m'.store a' v') where
  regs := h.regs
  mem := by rw [Machine.store_mem, Machine.store_mem, h.mem, ha, hv]
  flags := h.flags

theorem load (h : AgreeOn ts m m') {a a' : Word} (ha : a = a') : m.mem.load a = m'.mem.load a' := by
  rw [h.mem, ha]

theorem compare (h : AgreeOn ts m m') {f f' : Flags} (hf : f = f') :
    AgreeOn ts { m with flags := some f } { m' with flags := some f' } where
  regs := h.regs
  mem := h.mem
  flags := by rw [hf]

theorem push (h : AgreeOn ts m m') (hstack : m.regs stackPointer = m'.regs stackPointer) {v v' : Word} (hv : v = v') :
    AgreeOn [stackPointer] (m.push v) (m'.push v') := by
  have htop : m.regs stackPointer - 4 = m'.regs stackPointer - 4 := by rw [hstack]
  exact (h.none.set stackPointer htop).store htop hv

/-- What a function returns lies in the three registers that it may change. -/
theorem call (h : AgreeOn ts m m') (hstack : m.regs stackPointer = m'.regs stackPointer) {w : World} (hw : w.FollowsC)
    {a a' : Word} (ha : a = a') : AgreeOn callerSaved (m.call w a) (m'.call w a') := by
  have hreturned : w.callee a m = w.callee a' m' := by
    rw [ha]
    exact hw a' m m' h.mem hstack
  refine ⟨?_, congrArg Returned.mem hreturned, rfl⟩
  simp [Machine.call, Machine.set, callerSaved, hreturned]

end AgreeOn

/-! ### The lists of an instruction -/

/-- The instruction comes to the same end on two machines, which then agree on some registers. -/
inductive SameEnd (ts : List Temp) : Option Effect → Option Effect → Prop where
  | next {m m' : Machine} (h : AgreeOn ts m m') : SameEnd ts (some (.next m)) (some (.next m'))
  | goto (l : Label) : SameEnd ts (some (.goto l)) (some (.goto l))
  | trap : SameEnd ts (some .trap) (some .trap)
  | stuck : SameEnd ts none none

/-- A branch finds no flags, or a jump through a register none of its labels at the address there. -/
def Undecided (w : World) (x : Instr) (m : Machine) : Prop :=
  (∃ rel, mnemonic? x = some (.jcc rel)) ∧ m.flags = none ∨
    mnemonic? x = some .jmp ∧ ∃ t ∈ x.uses, ∀ l ∈ x.targets, w.address l ≠ m.regs t

/-- What the instruction comes to depends only on the registers that are listed as used, and there is something to come
to, unless control is at a loss where to go. -/
structure Determined (x : Instr) : Prop where
  same : ∀ w m m', w.FollowsC → AgreeOn (stackPointer :: x.uses) m m' → SameEnd x.defs (exec? w x m) (exec? w x m')
  understood : ∀ w m, exec? w x m = none → Undecided w x m

/-- The lists of an instruction say what the instruction does that its text spells. -/
structure Listed (x : Instr) : Prop extends Determined x where
  changes : ChangesOnlyDefs x

namespace Determined

variable {x : Instr}

/-- An instruction that always leaves control to the next one. -/
theorem of_next {f : World → Machine → Machine} (hexec : ∀ w m, exec? w x m = some (.next (f w m)))
    (hagree : ∀ w m m', w.FollowsC → AgreeOn (stackPointer :: x.uses) m m' → AgreeOn x.defs (f w m) (f w m')) :
    Determined x where
  same := by
    intro w m m' hw h
    rw [hexec, hexec]
    exact .next (hagree w m m' hw h)
  understood := by
    intro w m hnone
    rw [hexec] at hnone
    cases hnone

section Set

variable {d : Temp} {v : World → Machine → Word} (hdefs : x.defs = [d])
variable (hv : ∀ w m m', AgreeOn (stackPointer :: x.uses) m m' → v w m = v w m')

include hdefs hv

theorem of_set (hexec : ∀ w m, exec? w x m = some (.next (m.set d (v w m)))) : Determined x := by
  apply of_next hexec
  intro w m m' _ h
  rw [hdefs]
  exact h.none.set d (hv w m m' h)

/-- Arithmetic spoils the flags. -/
theorem of_compute (hexec : ∀ w m, exec? w x m = some (.next (m.set d (v w m)).forget)) : Determined x := by
  apply of_next hexec
  intro w m m' _ h
  rw [hdefs]
  exact (h.none.set d (hv w m m' h)).forget

end Set

theorem of_copy (d s : Temp) : Determined (copy d s) := by
  apply of_set rfl _ (exec_copy · · d s)
  intro w m m' h
  exact h.regs s (by simp)

theorem of_loadConst (i : Word) (d : Temp) : Determined (oper (.loadConst i) [d] []) :=
  of_set rfl (by simp) (exec_loadConst · · i d)

theorem of_load (disp : Word) (d a : Temp) : Determined (oper (.load disp) [d] [a]) := by
  apply of_set rfl _ (exec_load · · disp d a)
  intro w m m' h
  exact h.load (by rw [h.regs a (by simp)])

theorem of_store (disp : Word) (a b : Temp) : Determined (oper (.store disp) [] [a, b]) := by
  apply of_next (exec_store · · disp a b)
  intro w m m' _ h
  exact h.none.store (by rw [h.regs a (by simp)]) (h.regs b (by simp))

theorem of_storeConst (disp v : Word) (a : Temp) : Determined (oper (.storeConst disp v) [] [a]) := by
  apply of_next (exec_storeConst · · disp v a)
  intro w m m' _ h
  exact h.none.store (by rw [h.regs a (by simp)]) rfl

theorem of_storeAt (addr : Word) (a : Temp) : Determined (oper (.storeAt addr) [] [a]) := by
  apply of_next (exec_storeAt · · addr a)
  intro w m m' _ h
  exact h.none.store rfl (h.regs a (by simp))

/-- The register that is updated in place is used as well. -/
theorem of_arith (op : Arith) (d b : Temp) : Determined (oper (.arith op) [d] [d, b]) := by
  apply of_compute rfl _ (exec_arith · · op d b)
  intro w m m' h
  rw [h.regs d (by simp), h.regs b (by simp)]

theorem of_arithConst (op : Arith) (i : Word) (d : Temp) : Determined (oper (.arithConst op i) [d] [d]) := by
  apply of_compute rfl _ (exec_arithConst · · op i d)
  intro w m m' h
  rw [h.regs d (by simp)]

theorem of_mul (d b : Temp) : Determined (oper .mul [d] [d, b]) := by
  apply of_compute rfl _ (exec_mul · · d b)
  intro w m m' h
  rw [h.regs d (by simp), h.regs b (by simp)]

theorem of_mulConst (i : Word) (d a : Temp) : Determined (oper (.mulConst i) [d] [a]) := by
  apply of_compute rfl _ (exec_mulConst · · i d a)
  intro w m m' h
  rw [h.regs a (by simp)]

theorem of_signExtend : Determined (oper .signExtend [Register.edx.temp] [Register.eax.temp]) := by
  apply of_set rfl _ (exec_signExtend · · _ _)
  intro w m m' h
  rw [h.regs Register.eax.temp (by simp)]

/-- The count is in a register of which the text shows the low byte. -/
theorem of_shift (op : Shift) (d : Temp) : Determined (oper (.shift op) [d] [d, Register.ecx.temp]) := by
  apply of_compute rfl _ (exec_shift · · op d _)
  intro w m m' h
  rw [h.regs d (by simp), h.regs Register.ecx.temp (by simp)]

theorem of_shiftConst (op : Shift) (i : Word) (d : Temp) : Determined (oper (.shiftConst op i) [d] [d]) := by
  apply of_compute rfl _ (exec_shiftConst · · op i d _)
  intro w m m' h
  rw [h.regs d (by simp)]

theorem of_cmp (a b : Temp) : Determined (oper .cmp [] [a, b]) := by
  apply of_next (exec_cmp · · a b)
  intro w m m' _ h
  exact h.none.compare (by rw [h.regs a (by simp), h.regs b (by simp)])

theorem of_cmpConst (i : Word) (a : Temp) : Determined (oper (.cmpConst i) [] [a]) := by
  apply of_next (exec_cmpConst · · i a)
  intro w m m' _ h
  exact h.none.compare (by rw [h.regs a (by simp)])

theorem of_label (asm : Text) (l : Label) : Determined (.label asm l) :=
  of_next (exec_label · · asm l) fun _ _ _ _ h => h.none

theorem of_push (v : Word ⊕ Temp) : Determined (push v) := by
  cases v with
  | inl i =>
    apply of_next (exec_pushConst · · i _ _)
    intro w m m' _ h
    exact h.push (h.regs stackPointer (by simp)) rfl
  | inr s =>
    apply of_next (exec_push · · s _ _)
    intro w m m' _ h
    exact h.push (h.regs stackPointer (by simp)) (h.regs s (by simp))

theorem of_pop (bytes : Nat) : Determined (oper (.pop bytes) [stackPointer] [stackPointer]) := by
  apply of_compute rfl _ (exec_pop · · bytes _ _)
  intro w m m' h
  rw [h.regs stackPointer (by simp)]

/-- The dividend is in two registers that the text does not show. -/
theorem of_div (b : Temp) :
    Determined (oper .div [Register.eax.temp, Register.edx.temp] [b, Register.eax.temp, Register.edx.temp]) where
  same := by
    intro w m m' _ h
    have hlow := h.regs Register.eax.temp (by simp)
    have hhigh := h.regs Register.edx.temp (by simp)
    have hb := h.regs b (by simp)
    rw [exec_div, exec_div, hlow, hhigh, hb]
    split
    · exact .trap
    · refine .next (AgreeOn.forget ?_)
      exact ((h.none.set Register.eax.temp rfl).set Register.edx.temp rfl).mono (by simp)
  understood := by
    intro w m hnone
    rw [exec_div] at hnone
    split at hnone <;> cases hnone

theorem of_branch {rel : Rel} (hrel : ∀ n, rel ≠ .other n) (t f : Label) : Determined (branch rel t f) where
  same := by
    intro w m m' _ h
    rw [branch, exec_branch w m hrel, exec_branch w m' hrel, h.flags]
    cases m'.flags.bind (condition? rel) with
    | none => exact .stuck
    | some taken =>
      cases taken with
      | true => exact .goto t
      | false => exact .next h.none
  understood := by
    intro w m hnone
    rw [branch, exec_branch w m hrel, Option.map_eq_none_iff] at hnone
    refine .inl ⟨⟨rel, ?_⟩, ?_⟩
    · exact mnemonic_of_spelled (spelled_form (fun n hn => hrel n (Form.branch.inj hn)) ..)
    · cases hflags : m.flags with
      | none => rfl
      | some flags =>
        rw [hflags] at hnone
        cases rel with
        | other n => exact absurd rfl (hrel n)
        | _ => cases hnone

theorem of_jump (l : Label) : Determined (.oper Form.jump.asm [] [] [l] []) where
  same := by
    intro w m m' _ _
    rw [exec_jump, exec_jump]
    exact .goto l
  understood := by
    intro w m hnone
    rw [exec_jump] at hnone
    cases hnone

theorem of_jumpReg (a : Temp) (labels : List Label) : Determined (.oper Form.jumpReg.asm [] [a] labels []) where
  same := by
    intro w m m' _ h
    rw [exec_jumpReg, exec_jumpReg, h.regs a (by simp)]
    cases labels.find? fun l => w.address l == m'.regs a with
    | none => exact .stuck
    | some l => exact .goto l
  understood := by
    intro w m hnone
    rw [exec_jumpReg, Option.map_eq_none_iff, List.find?_eq_none] at hnone
    refine .inr ⟨mnemonic_of_spelled (spelled_form (fun _ => Form.noConfusion) ..), a, by simp, ?_⟩
    intro l hl
    simpa using hnone l hl

theorem of_call (l : Label) : Determined (.oper Form.call.asm callerSaved [] [] [l]) := by
  apply of_next (exec_call · · l callerSaved)
  intro w m m' hw h
  exact h.call (h.regs stackPointer (by simp)) hw rfl

theorem of_callReg (a : Temp) : Determined (oper .callReg callerSaved [a]) := by
  apply of_next (exec_callReg · · a callerSaved)
  intro w m m' hw h
  exact h.call (h.regs stackPointer (by simp)) hw (h.regs a (by simp))

theorem of_callBlock {call : Instr} (hcall : Determined call) (args : List (Word ⊕ Temp)) (fresh : Temp) :
    ∀ x ∈ callBlock call args fresh, Determined x := by
  intro x hx
  simp only [callBlock, List.mem_append, List.mem_map, List.mem_singleton] at hx
  obtain ((⟨v, -, rfl⟩ | rfl) | hpop) | rfl := hx
  · exact of_push v
  · exact hcall
  · split at hpop
    · obtain rfl := List.mem_singleton.mp hpop
      exact of_pop _
    · cases hpop
  · exact of_copy fresh resultRegister

end Determined

/-! ### Tiles -/

/-- The relation that the block of a tile branches on. -/
def Tile.rel? : Tile → Option Rel
  | .branchConst rel .. | .branch rel .. => some rel
  | _ => none

/-- The instructions of a block are determined by what they use. -/
theorem Tile.determined {tile : Tile} (hrel : ∀ n, tile.rel? ≠ some (.other n)) (regs : List Temp) (fresh : Temp) :
    ∀ x ∈ tile.block regs fresh, Determined x := by
  have hbranch {rel : Rel} (h : ∀ n, some rel ≠ some (.other n)) : ∀ n, rel ≠ .other n := fun n hn => h n (hn ▸ rfl)
  cases tile with
  | call func args => exact .of_callBlock (.of_call func) _ fresh
  | callReg func args => exact .of_callBlock (.of_callReg _) _ fresh
  | branchConst rel left i t f =>
    simp [Tile.block, Determined.of_cmpConst, Determined.of_branch (hbranch hrel)]
  | branch rel left right t f => simp [Tile.block, Determined.of_cmp, Determined.of_branch (hbranch hrel)]
  | name l =>
    exact List.forall_mem_singleton.mpr (.of_set rfl (by simp) (exec_loadSymbol · · l fresh))
  | loadAt addr =>
    refine List.forall_mem_singleton.mpr (.of_set rfl (fun w m m' h => ?_) (exec_loadAt · · addr fresh))
    exact h.load rfl
  | div left right =>
    simp [Tile.block, Determined.of_copy, Determined.of_signExtend, Determined.of_div]
  | shift op left count =>
    simp [Tile.block, Determined.of_copy, Determined.of_shift]
  | _ =>
    simp [Tile.block, Determined.of_loadConst, Determined.of_load, Determined.of_store, Determined.of_storeConst,
      Determined.of_storeAt, Determined.of_copy, Determined.of_label, Determined.of_jump, Determined.of_jumpReg,
      Determined.of_arith, Determined.of_arithConst, Determined.of_mul, Determined.of_mulConst,
      Determined.of_shiftConst]

/-- A block branches on a relation outside the list only if its tree does. -/
theorem Covers.cjump_of_rel? {x : Subtree} {tile : Tile} (hcovers : Covers x tile) {n : Int}
    (hrel : tile.rel? = some (.other n)) : ∃ left right t f, x = .stm (.cjump (.other n) left right t f) := by
  cases hcovers with
  | branchConst rel e i t f =>
    cases hrel
    exact ⟨_, _, _, _, rfl⟩
  | branchConstLeft rel e i t f =>
    cases rel <;> cases hrel
    exact ⟨_, _, _, _, rfl⟩
  | branch rel left right t f =>
    cases hrel
    exact ⟨_, _, _, _, rfl⟩
  | _ => cases hrel

/-! ### Derivations -/

/-- The lists of all instructions of the code are right, unless a tree branches on a relation outside the list. -/
theorem Lowers.listed {n n' : Nat} {xs : List Subtree} {code : List Instr} {regs : List Temp}
    (h : Lowers n xs code regs n')
    (hrels : ∀ x ∈ xs, ∀ k left right t f, .stm (.cjump (.other k) left right t f) ∉ x.postorder) :
    ∀ x ∈ code, Listed x := by
  induction h with
  | nil n => simp
  | @cons n n₁ n₂ y rest tile code code' regs regs' htile _ _ ihparts ihrest =>
    have hcovers := covers_of_tile? htile
    obtain ⟨hy, hrest⟩ := List.forall_mem_cons.mp hrels
    have hparts := ihparts fun part hpart k left right t f hmem =>
      hy k left right t f (hcovers.mem_postorder_of_part hpart hmem)
    have hrel : ∀ k, tile.rel? ≠ some (.other k) := by
      intro k hk
      obtain ⟨left, right, t, f, rfl⟩ := hcovers.cjump_of_rel? hk
      exact hy k left right t f (Subtree.mem_postorder_self rfl)
    have hblock : ∀ x ∈ tile.block regs (tile.fresh n₁), Listed x := fun x hx =>
      ⟨Tile.determined hrel _ _ x hx, tile.changesOnlyDefs _ _ x hx⟩
    exact List.forall_mem_append.mpr ⟨List.forall_mem_append.mpr ⟨hparts, hblock⟩, ihrest hrest⟩

end X86

/-- Whenever a tree is lowered that has no holes and does not branch on a relation outside the list, every instruction
that is appended does what its text spells, reads what it lists as used and changes what it lists as defined. -/
theorem operand_lists_describe_instructions :
    (∀ (s : Stm) (log log' : Log), s.whole = true →
      (∀ k left right t f, .stm (.cjump (.other k) left right t f) ∉ s.postorder) →
      (X86.rules.tileStm s).run.run log = (.ok (), log') →
      ∃ code, log'.code = log.code ++ code ∧ ∀ x ∈ code, X86.Listed x) ∧
    ∀ (e : Exp) (t : Temp) (log log' : Log), e.whole = true →
      (∀ k left right t f, .stm (.cjump (.other k) left right t f) ∉ e.postorder) →
      (X86.rules.tileExp e).run.run log = (.ok t, log') →
      ∃ code, log'.code = log.code ++ code ∧ ∀ x ∈ code, X86.Listed x := by
  constructor
  · intro s log log' hs hrels hrun
    obtain ⟨code, hlowers, hcode⟩ := X86.lowers_of_tileStm hs hrun
    exact ⟨code, hcode, hlowers.listed (List.forall_mem_singleton.mpr hrels)⟩
  · intro e t log log' he hrels hrun
    obtain ⟨code, hlowers, hcode⟩ := X86.lowers_of_tileExp he hrun
    exact ⟨code, hcode, hlowers.listed (List.forall_mem_singleton.mpr hrels)⟩

/-- A quotient shifted by the result of a call through a register, and a branch that compares it with a word of
memory. -/
theorem shiftedQuotient_lists_operands :
    let e : Exp := .bin .sar (.bin .div (.temp ⟨1⟩) (.const 3)) (.call (.temp ⟨2⟩) [.const 7, .temp ⟨1⟩])
    let s : Stm := .cjump .ult e (.mem (.temp ⟨1⟩)) "T" "F"
    let log : Log := { session := { temps := 2 } }
    let eax := X86.Register.eax.temp
    let ecx := X86.Register.ecx.temp
    let edx := X86.Register.edx.temp
    let esp := X86.Register.esp.temp
    let lists : List (List Temp × List Temp) :=
      [([⟨3⟩], []), ([eax], [⟨1⟩]), ([edx], [eax]), ([eax, edx], [⟨3⟩, eax, edx]), ([⟨4⟩], [eax]),
       ([esp], [⟨1⟩, esp]), ([esp], [esp]), ([eax, ecx, edx], [⟨2⟩]), ([esp], [esp]), ([⟨5⟩], [eax]),
       ([⟨6⟩], [⟨4⟩]), ([ecx], [⟨5⟩]), ([⟨6⟩], [⟨6⟩, ecx])]
    (∃ w : X86.World, w.FollowsC) ∧
    (s.whole = true ∧ (∀ k left right t f, .stm (.cjump (.other k) left right t f) ∉ s.postorder) ∧
      ∃ log', (X86.rules.tileStm s).run.run log = (.ok (), log') ∧ (∀ x ∈ log'.code, X86.Listed x) ∧
        log'.code.map (fun x => (x.defs, x.uses)) = lists ++ [([⟨7⟩], [⟨1⟩]), ([], [⟨6⟩, ⟨7⟩]), ([], [])]) ∧
    e.whole = true ∧ (∀ k left right t f, .stm (.cjump (.other k) left right t f) ∉ e.postorder) ∧
      ∃ t log', (X86.rules.tileExp e).run.run log = (.ok t, log') ∧ (∀ x ∈ log'.code, X86.Listed x) ∧
        log'.code.map (fun x => (x.defs, x.uses)) = lists := by
  intro e s log eax ecx edx esp lists
  have hs : ∀ k left right t f, .stm (.cjump (.other k) left right t f) ∉ s.postorder := by
    simp [s, e, Stm.postorder, Exp.postorder, Exp.postorderAll]
  have he : ∀ k left right t f, .stm (.cjump (.other k) left right t f) ∉ e.postorder := by
    simp [e, Exp.postorder, Exp.postorderAll]
  have hparts : X86.Lowers 2 [.exp (.bin .div (.temp ⟨1⟩) (.const 3)), .exp (.call (.temp ⟨2⟩) [.const 7, .temp ⟨1⟩])]
      _ _ 5 :=
    .cons rfl (.cons rfl (.nil _) (.cons rfl (.nil _) (.nil _)))
      (.cons rfl (.cons rfl (.nil _) (.cons rfl (.nil _) (.nil _))) (.nil _))
  refine ⟨⟨⟨fun _ => 0, fun _ m => ⟨0, 0, 0, m.mem⟩⟩, ?_⟩, ?_, ?_⟩
  · intro addr m m' hmem _
    simp [hmem]
  · obtain ⟨c, _, hlowers, hlists⟩ : ∃ c regs, X86.Lowers 2 [.stm s] c regs 7 ∧ c.map (fun x => (x.defs, x.uses)) = _ :=
      ⟨_, _, .cons rfl (.cons rfl hparts (.cons rfl (.cons rfl (.nil _) (.nil _)) (.nil _))) (.nil _), rfl⟩
    obtain ⟨journal, hrun⟩ := X86.tileStm_run hlowers log rfl
    obtain ⟨code, hcode, hlisted⟩ := operand_lists_describe_instructions.1 s log _ (by decide) hs hrun
    refine ⟨by decide, hs, _, hrun, ?_, hlists⟩
    rw [hcode]
    exact hlisted
  · obtain ⟨c, _, hlowers, hlists⟩ :
        ∃ c regs, X86.Lowers 2 [.exp e] c regs 6 ∧ c.map (fun x => (x.defs, x.uses)) = lists :=
      ⟨_, _, .cons rfl hparts (.nil _), rfl⟩
    obtain ⟨t, -, hyields⟩ := X86.tileExp_run hlowers
    obtain ⟨journal, hrun⟩ := hyields log rfl
    obtain ⟨code, hcode, hlisted⟩ := operand_lists_describe_instructions.2 e t log _ (by decide) he hrun
    refine ⟨by decide, he, t, _, hrun, ?_, hlists⟩
    rw [hcode]
    exact hlisted

end Lowering
