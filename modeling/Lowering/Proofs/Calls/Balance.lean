import Lowering.Proofs.Calls.Blocks

/-!
# Calls leave the stack level

A block of a call takes off the stack as much as it has put there, and the instructions outside the blocks leave the
stack pointer alone. So the code of a tree is balanced: the stack is level at every label and jump, at the start of
every block and at the end.
-/

namespace Lowering

namespace X86

/-! ### Single instructions -/

/-- What keeps the stack pointer and is not said to move it, moves it as its text says. -/
theorem ShiftsStack.of_level {x : Instr} (hlevel : stackShift x = 0)
    (hkeeps : ∀ w m m', exec? w x m = some (.next m') → m'.regs stackPointer = m.regs stackPointer) :
    ShiftsStack x := by
  intro w m m' h
  rw [hkeeps w m m' h, hlevel]
  exact (BitVec.add_zero _).symm

theorem Steady.balanced {x : Instr} (hx : Steady x) : Balanced [x] where
  shifts := List.forall_mem_singleton.mpr (.of_level hx.level hx.keeps)
  marks := by
    intro i y hy _
    obtain rfl : i = 0 := by simpa using (List.getElem?_eq_some_iff.mp hy).1
    rfl
  settled := by simp [hx.level]

/-! ### The block of a call -/

section Block

variable (v : Word ⊕ Temp) (callee : Label ⊕ Temp) (bytes : Nat) (d s : Temp)

theorem spelled_push : ∃ operands, spelled? (push v) = some ⟨.push, operands⟩ := by
  cases v with
  | inl i => exact ⟨_, spelled_oper (fun _ => Form.noConfusion) ..⟩
  | inr t => exact ⟨_, spelled_oper (fun _ => Form.noConfusion) ..⟩

theorem spelled_callInstr : ∃ operands, spelled? (callInstr callee) = some ⟨.call, operands⟩ := by
  cases callee with
  | inl l => exact ⟨_, spelled_form (fun _ => Form.noConfusion) ..⟩
  | inr t => exact ⟨_, spelled_oper (fun _ => Form.noConfusion) ..⟩

theorem stackShift_push : stackShift (push v) = -4 := by
  obtain ⟨operands, hspelled⟩ := spelled_push v
  rw [stackShift_of_spelled hspelled, Assembly.stackShift]

theorem stackShift_callInstr : stackShift (callInstr callee) = 0 := by
  obtain ⟨operands, hspelled⟩ := spelled_callInstr callee
  rw [stackShift_of_spelled hspelled]
  rfl

theorem stackShift_pop (dst src : List Temp) : stackShift (oper (.pop bytes) dst src) = BitVec.ofInt 32 bytes :=
  stackShift_of_spelled (spelled_oper (fun _ => Form.noConfusion) ..)

theorem stackShift_copy : stackShift (copy d s) = 0 := stackShift_of_spelled (spelled_copy d s)

theorem ShiftsStack.push : ShiftsStack (push v) := by
  intro w m m' h
  rw [stackShift_push, ← BitVec.sub_eq_add_neg]
  cases v with
  | inl i =>
    cases (exec_pushConst w m i _ _).symm.trans h
    simp [Machine.push, Machine.store]
  | inr t =>
    cases (exec_push w m t _ _).symm.trans h
    simp [Machine.push, Machine.store]

theorem ShiftsStack.callInstr : ShiftsStack (callInstr callee) := by
  have hchanges : ChangesOnlyDefs (X86.callInstr callee) := by
    cases callee with
    | inl l => exact .of_call rfl fun w m => ⟨_, exec_call w m l _⟩
    | inr t => exact .of_call rfl fun w m => ⟨_, exec_callReg w m t _⟩
  have hdefs : stackPointer ∉ (X86.callInstr callee).defs := by
    have : stackPointer ∉ callerSaved := by decide
    cases callee <;> exact this
  exact .of_level (stackShift_callInstr callee) fun w m m' h => hchanges w m m' h _ hdefs

theorem ShiftsStack.pop (dst src : List Temp) : ShiftsStack (oper (.pop bytes) dst src) := by
  intro w m m' h
  cases (exec_pop w m bytes dst src).symm.trans h
  rw [stackShift_pop, Machine.forget_regs, Machine.set_self]

theorem ShiftsStack.copy {d : Temp} (hd : d ≠ stackPointer) : ShiftsStack (copy d s) := by
  apply ShiftsStack.of_level (stackShift_copy d s)
  intro w m m' h
  cases (exec_copy w m d s).symm.trans h
  exact Machine.set_of_ne _ _ hd.symm

end Block

/-- Pushes take a word each. -/
theorem stackOffset_pushes (operands : List (Word ⊕ Temp)) :
    stackOffset (operands.map push) = -BitVec.ofInt 32 ((operands.length * wordSize : Nat) : Int) := by
  induction operands with
  | nil => rfl
  | cons v operands ih =>
    have hbytes : (((operands.length + 1) * wordSize : Nat) : Int) = (operands.length * wordSize : Nat) + 4 := by
      simp only [wordSize]
      omega
    rw [List.map_cons, stackOffset_cons, stackShift_push, ih, List.length_cons, hbytes, BitVec.ofInt_add,
      BitVec.neg_add, BitVec.add_comm, ← BitVec.sub_eq_add_neg]
    rfl

/-- A block gives back what its pushes took. -/
theorem stackOffset_callBlock (callee : Label ⊕ Temp) (operands : List (Word ⊕ Temp)) (fresh : Temp) :
    stackOffset (callBlock (callInstr callee) operands fresh) = 0 := by
  rw [callBlock, stackOffset_append, stackOffset_append, stackOffset_append, stackOffset_pushes, List.length_reverse]
  split
  case isTrue =>
    simp only [stackOffset_cons, stackOffset_nil, stackShift_callInstr, stackShift_pop, stackShift_copy,
      BitVec.ofNat_eq_ofNat, BitVec.add_zero, BitVec.add_left_neg]
  case isFalse hnone => simp [stackShift_callInstr, stackShift_copy, Decidable.not_not.mp hnone]

theorem CallBlock.balanced (b : CallBlock) (hfresh : b.fresh ≠ stackPointer) : Balanced b.code := by
  have hall : ∀ x ∈ b.code, ShiftsStack x ∧ isMark x = false := by
    intro x hx
    simp only [CallBlock.code, callBlock, List.mem_append, List.mem_map, List.mem_singleton] at hx
    obtain ((⟨v, -, rfl⟩ | rfl) | hpop) | rfl := hx
    · obtain ⟨operands, hspelled⟩ := spelled_push v
      exact ⟨.push v, by rw [isMark, mnemonic_of_spelled hspelled]⟩
    · obtain ⟨operands, hspelled⟩ := spelled_callInstr b.callee
      exact ⟨.callInstr b.callee, by rw [isMark, mnemonic_of_spelled hspelled]⟩
    · split at hpop
      · obtain rfl := List.mem_singleton.mp hpop
        refine ⟨.pop _ _ _, ?_⟩
        rw [isMark, mnemonic_of_spelled (spelled_oper (fun _ => Form.noConfusion) ..)]
        rfl
      · cases hpop
    · exact ⟨.copy _ hfresh, rfl⟩
  exact .of_unmarked (fun x hx => (hall x hx).1) (fun x hx => (hall x hx).2) (stackOffset_callBlock ..)

/-! ### The code of a tree -/

theorem CallBlock.Follows.fresh_ne_stackPointer {b : CallBlock} {n n' : Nat} {before : List Instr}
    (h : b.Follows n n' before) : b.fresh ≠ stackPointer := by
  obtain ⟨-, -, -, -, -, k, -, -, -, -, hfresh, -⟩ := h
  apply ne_stackPointer_of_nonneg
  simp only [hfresh]
  omega

theorem Segmented.balanced {n n' : Nat} {xs : List Subtree} {code : List Instr} {segs : List Segment}
    (h : Segmented n xs code n' segs) : ∀ seg ∈ segs, Balanced seg.code := by
  intro seg hseg
  cases seg with
  | single x => exact (h.steady x hseg).balanced
  | call b =>
    obtain ⟨before, after, hsegs⟩ := List.append_of_mem hseg
    exact b.balanced (h.blocks before b after hsegs).fresh_ne_stackPointer

theorem Balanced.flatMap {segs : List Segment} (h : ∀ seg ∈ segs, Balanced seg.code) :
    Balanced (segs.flatMap Segment.code) := by
  induction segs with
  | nil => exact .nil
  | cons seg segs ih =>
    obtain ⟨hseg, hsegs⟩ := List.forall_mem_cons.mp h
    exact hseg.append (ih hsegs)

/-- The code of a tree, cut into single instructions and the blocks of its calls, with the stack level between any two
of them. -/
structure BalancedCalls (n : Nat) (x : Subtree) (code : List Instr) (n' : Nat) (segs : List Segment) : Prop
    extends Segmented n [x] code n' segs, Balanced code where
  level : ∀ before after, segs = before ++ after → stackOffset (before.flatMap Segment.code) = 0
  /-- Wherever execution comes to inside the code, the stack pointer is where the text has it. -/
  stackPointer_eq : ∀ w pre post m pc m',
    Path w (pre ++ code ++ post) (Within pre.length (pre ++ code).length) (pre.length, m) (pc, m') →
      m'.regs stackPointer = m.regs stackPointer + stackOffset (code.take (pc - pre.length))

theorem Lowers.balancedCalls {n n' : Nat} {x : Subtree} {code : List Instr} {regs : List Temp}
    (h : Lowers n [x] code regs n') (hmoves : ∀ src, .stm (.move (.temp stackPointer) src) ∉ x.postorder) :
    ∃ segs, BalancedCalls n x code n' segs := by
  obtain ⟨segs, hsegs⟩ := h.segmented (List.forall_mem_singleton.mpr hmoves)
  have hbalanced := hsegs.balanced
  have hcode : Balanced code := hsegs.code_eq ▸ Balanced.flatMap hbalanced
  refine ⟨segs, hsegs, hcode, ?_, ?_⟩
  · rintro before after rfl
    exact (Balanced.flatMap fun seg hseg => hbalanced seg (List.mem_append_left after hseg)).settled
  · intro w pre post m pc m' hpath
    apply hcode.stackPointer_along hpath
    simp

end X86

/-- Whenever a tree that has no holes and does not move to the stack pointer is lowered, the code that is appended
consists of a block for every call and instructions that leave the stack alone, and the stack is level outside the
blocks. -/
theorem call_blocks_are_balanced :
    (∀ (s : Stm) (log log' : Log), s.whole = true →
      (∀ src, .stm (.move (.temp X86.stackPointer) src) ∉ s.postorder) →
      (X86.rules.tileStm s).run.run log = (.ok (), log') →
      ∃ code segs, log'.code = log.code ++ code ∧
        X86.BalancedCalls log.session.temps (.stm s) code log'.session.temps segs) ∧
    ∀ (e : Exp) (t : Temp) (log log' : Log), e.whole = true →
      (∀ src, .stm (.move (.temp X86.stackPointer) src) ∉ e.postorder) →
      (X86.rules.tileExp e).run.run log = (.ok t, log') →
      ∃ code segs, log'.code = log.code ++ code ∧
        X86.BalancedCalls log.session.temps (.exp e) code log'.session.temps segs := by
  constructor
  · intro s log log' hs hmoves hrun
    obtain ⟨code, hlowers, hcode⟩ := X86.lowers_of_tileStm hs hrun
    obtain ⟨segs, hsegs⟩ := hlowers.balancedCalls hmoves
    exact ⟨code, segs, hcode, hsegs⟩
  · intro e t log log' he hmoves hrun
    obtain ⟨code, hlowers, hcode⟩ := X86.lowers_of_tileExp he hrun
    obtain ⟨segs, hsegs⟩ := hlowers.balancedCalls hmoves
    exact ⟨code, segs, hcode, hsegs⟩

/-- A call through a register, with a constant and two calls among its arguments and a jump and a label inside one of
them, and the same call as the address of a store. -/
theorem nestedCalls_are_balanced :
    let inner : Exp := .eseq (.seq (.jump (.name "L") ["L"]) (.label "L")) (.call (.name "g") [.temp ⟨6⟩, .const 2])
    let e : Exp := .call (.temp ⟨5⟩) [.const 1, inner, .call (.name "h") []]
    let s : Stm := .move (.mem (.bin .plus e (.const 8))) (.const 3)
    let nodes : List (Exp × List Exp) :=
      [(.name "g", [.temp ⟨6⟩, .const 2]), (.name "h", []), (.temp ⟨5⟩, [.const 1, inner, .call (.name "h") []])]
    (s.whole = true ∧ (∀ src, .stm (.move (.temp X86.stackPointer) src) ∉ s.postorder) ∧
      ∃ log' segs, (X86.rules.tileStm s).run.run {} = (.ok (), log') ∧
        X86.BalancedCalls 0 (.stm s) log'.code log'.session.temps segs ∧
        segs.filterMap X86.Segment.node? = nodes) ∧
    e.whole = true ∧ (∀ src, .stm (.move (.temp X86.stackPointer) src) ∉ e.postorder) ∧
      ∃ t log' segs, (X86.rules.tileExp e).run.run {} = (.ok t, log') ∧
        X86.BalancedCalls 0 (.exp e) log'.code log'.session.temps segs ∧
        segs.filterMap X86.Segment.node? = nodes := by
  intro inner e s nodes
  have hs : ∀ src, .stm (.move (.temp X86.stackPointer) src) ∉ s.postorder := by
    simp [s, e, inner, Stm.postorder, Exp.postorder, Exp.postorderAll]
  have he : ∀ src, .stm (.move (.temp X86.stackPointer) src) ∉ e.postorder := by
    simp [e, inner, Stm.postorder, Exp.postorder, Exp.postorderAll]
  constructor
  · obtain ⟨_, _, _, hlowers⟩ := X86.lowers_of_covered (x := .stm s) (by decide) (by decide) 0
    obtain ⟨journal, hrun⟩ := X86.tileStm_run hlowers {} rfl
    obtain ⟨code, segs, hcode, hsegs⟩ := call_blocks_are_balanced.1 s {} _ (by decide) hs hrun
    refine ⟨by decide, hs, _, segs, hrun, ?_, hsegs.nodes⟩
    rw [hcode]
    exact hsegs
  · obtain ⟨_, _, _, hlowers⟩ := X86.lowers_of_covered (x := .exp e) (by decide) (by decide) 0
    obtain ⟨t, -, hyields⟩ := X86.tileExp_run hlowers
    obtain ⟨journal, hrun⟩ := hyields {} rfl
    obtain ⟨code, segs, hcode, hsegs⟩ := call_blocks_are_balanced.2 e t {} _ (by decide) he hrun
    refine ⟨by decide, he, t, _, segs, hrun, ?_, hsegs.nodes⟩
    rw [hcode]
    exact hsegs

end Lowering
