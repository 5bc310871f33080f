import Lowering.Proofs.Operands.Writes

/-!
# Emitted instructions change only what they define

The lists of registers that an instruction carries are promises to later passes. For every instruction of a block
they are kept: executing it changes no register outside its list of definitions. Pushes, calls and divisions change
more than one register.
-/

namespace Lowering.X86

namespace ChangesOnlyDefs

variable {x : Instr}

theorem of_set {d : Temp} (hd : d ∈ x.defs)
    (hexec : ∀ w m, ∃ v m₁, exec? w x m = some (.next m₁) ∧ m₁.regs = (m.set d v).regs) : ChangesOnlyDefs x := by
  intro w m m' h t ht
  obtain ⟨v, m₁, hm₁, hregs⟩ := hexec w m
  cases hm₁.symm.trans h
  have hne : t ≠ d := fun heq => ht (heq ▸ hd)
  rw [hregs]
  exact m.set_of_ne v hne

theorem of_same (hexec : ∀ w m m', exec? w x m = some (.next m') → m'.regs = m.regs) : ChangesOnlyDefs x := by
  intro w m m' h t _
  rw [hexec w m m' h]

theorem of_copy (d s : Temp) : ChangesOnlyDefs (copy d s) :=
  of_set List.mem_cons_self fun w m => ⟨_, _, exec_copy w m d s, rfl⟩

theorem of_label (asm : Text) (l : Label) : ChangesOnlyDefs (.label asm l) :=
  of_same fun w m m' h => by cases h; rfl

theorem of_push (v : Word ⊕ Temp) : ChangesOnlyDefs (push v) := by
  cases v with
  | inl i => exact of_set List.mem_cons_self fun w m => ⟨_, _, exec_pushConst w m i _ _, rfl⟩
  | inr s => exact of_set List.mem_cons_self fun w m => ⟨_, _, exec_push w m s _ _, rfl⟩

theorem of_div (b : Temp) (src : List Temp) :
    ChangesOnlyDefs (oper .div [Register.eax.temp, Register.edx.temp] (b :: src)) := by
  intro w m m' h t ht
  rw [exec_div] at h
  have hne : t ≠ Register.eax.temp ∧ t ≠ Register.edx.temp := by simpa using ht
  split at h
  · cases h
  · cases h
    rw [Machine.forget_regs, Machine.set_of_ne _ _ hne.2, Machine.set_of_ne _ _ hne.1]

/-- A call leaves to the callee only the registers that it names. -/
theorem of_call (hdefs : x.defs = callerSaved)
    (hexec : ∀ w m, ∃ addr, exec? w x m = some (.next (m.call w addr))) : ChangesOnlyDefs x := by
  intro w m m' h t ht
  obtain ⟨addr, haddr⟩ := hexec w m
  cases haddr.symm.trans h
  have hne : t ≠ Register.eax.temp ∧ t ≠ Register.ecx.temp ∧ t ≠ Register.edx.temp := by
    simpa [hdefs, callerSaved] using ht
  simp only [Machine.call]
  rw [Machine.set_of_ne _ _ hne.2.2, Machine.set_of_ne _ _ hne.2.1, Machine.set_of_ne _ _ hne.1]

theorem of_branch (rel : Rel) (t f : Label) : ChangesOnlyDefs (branch rel t f) := by
  apply of_same
  intro w m m' h
  by_cases hrel : ∃ n, rel = .other n
  · obtain ⟨n, rfl⟩ := hrel
    cases (exec_branch_other w m n t f).symm.trans h
  · have hbranch := exec_branch w m (fun n hn => hrel ⟨n, hn⟩) t f
    rw [branch, hbranch] at h
    obtain ⟨taken, -, htaken⟩ := Option.map_eq_some_iff.mp h
    cases taken <;> cases htaken
    rfl

theorem of_callBlock {call : Instr} (hcall : ChangesOnlyDefs call) (args : List (Word ⊕ Temp)) (fresh : Temp) :
    ∀ x ∈ callBlock call args fresh, ChangesOnlyDefs x := by
  intro x hx
  simp only [callBlock, List.mem_append, List.mem_map, List.mem_singleton] at hx
  obtain ((⟨v, -, rfl⟩ | rfl) | hpop) | rfl := hx
  · exact of_push v
  · exact hcall
  · split at hpop
    · obtain rfl := List.mem_singleton.mp hpop
      exact of_set List.mem_cons_self fun w m => ⟨_, _, exec_pop w m _ _ _, rfl⟩
    · cases hpop
  · exact of_copy fresh resultRegister

/-- A copy to the fresh register that is updated in place. -/
theorem of_update {x : Instr} (hx : ChangesOnlyDefs x) (d s : Temp) : ∀ y ∈ [copy d s, x], ChangesOnlyDefs y :=
  List.forall_mem_cons.mpr ⟨of_copy d s, List.forall_mem_singleton.mpr hx⟩

theorem of_compare {x : Instr} (hx : ∀ w m, ∃ flags, exec? w x m = some (.next { m with flags := flags }))
    (rel : Rel) (t f : Label) : ∀ y ∈ [x, branch rel t f], ChangesOnlyDefs y := by
  refine List.forall_mem_cons.mpr ⟨of_same fun w m m' h => ?_, List.forall_mem_singleton.mpr (of_branch rel t f)⟩
  obtain ⟨flags, hflags⟩ := hx w m
  cases hflags.symm.trans h
  rfl

end ChangesOnlyDefs

/-- The instructions of a block change only what they define. -/
theorem Tile.changesOnlyDefs (tile : Tile) (regs : List Temp) (fresh : Temp) :
    ∀ x ∈ tile.block regs fresh, ChangesOnlyDefs x := by
  have hone {x : Instr} (hx : ChangesOnlyDefs x) : ∀ y ∈ [x], ChangesOnlyDefs y := List.forall_mem_singleton.mpr hx
  cases tile with
  | store addr src disp => exact hone (.of_same fun w m m' h => by cases (exec_store w m disp _ _).symm.trans h; rfl)
  | storeConst addr disp v =>
    exact hone (.of_same fun w m m' h => by cases (exec_storeConst w m disp v _).symm.trans h; rfl)
  | storeAt addr src => exact hone (.of_same fun w m m' h => by cases (exec_storeAt w m addr _).symm.trans h; rfl)
  | setConst dst i => exact hone (.of_set List.mem_cons_self fun w m => ⟨_, _, exec_loadConst w m i dst, rfl⟩)
  | setLoad dst addr disp => exact hone (.of_set List.mem_cons_self fun w m => ⟨_, _, exec_load w m disp dst _, rfl⟩)
  | setCopy dst src => exact hone (.of_copy dst _)
  | drop e => exact fun x hx => nomatch hx
  | label l => exact hone (.of_label _ l)
  | seq first second => exact fun x hx => nomatch hx
  | jump l => exact hone (.of_same fun w m m' h => by cases (exec_jump w m l).symm.trans h)
  | jumpReg target labels =>
    refine hone (.of_same fun w m m' h => ?_)
    obtain ⟨l, -, hl⟩ := Option.map_eq_some_iff.mp ((exec_jumpReg w m _ labels).symm.trans h)
    cases hl
  | branchConst rel left i t f => exact .of_compare (fun w m => ⟨_, exec_cmpConst w m i _⟩) rel t f
  | branch rel left right t f => exact .of_compare (fun w m => ⟨_, exec_cmp w m _ _⟩) rel t f
  | load addr disp => exact hone (.of_set List.mem_cons_self fun w m => ⟨_, _, exec_load w m disp _ _, rfl⟩)
  | loadAt addr => exact hone (.of_set List.mem_cons_self fun w m => ⟨_, _, exec_loadAt w m addr _, rfl⟩)
  | arithConst op left i =>
    exact .of_update (.of_set List.mem_cons_self fun w m => ⟨_, _, exec_arithConst w m op i _, rfl⟩) _ _
  | arith op left right =>
    exact .of_update (.of_set List.mem_cons_self fun w m => ⟨_, _, exec_arith w m op _ _, rfl⟩) _ _
  | mulConst left i => exact hone (.of_set List.mem_cons_self fun w m => ⟨_, _, exec_mulConst w m i _ _, rfl⟩)
  | mul left right => exact .of_update (.of_set List.mem_cons_self fun w m => ⟨_, _, exec_mul w m _ _, rfl⟩) _ _
  | div left right =>
    refine List.forall_mem_cons.mpr ⟨.of_copy _ _, List.forall_mem_cons.mpr ⟨?_, ?_⟩⟩
    · exact .of_set List.mem_cons_self fun w m => ⟨_, _, exec_signExtend w m _ _, rfl⟩
    · exact List.forall_mem_cons.mpr ⟨.of_div _ _, hone (.of_copy _ _)⟩
  | shiftConst op left i =>
    exact .of_update (.of_set List.mem_cons_self fun w m => ⟨_, _, exec_shiftConst w m op i _ _, rfl⟩) _ _
  | shift op left count =>
    refine List.forall_mem_cons.mpr ⟨.of_copy _ _, .of_update ?_ _ _⟩
    exact .of_set List.mem_cons_self fun w m => ⟨_, _, exec_shift w m op _ _, rfl⟩
  | const i => exact hone (.of_set List.mem_cons_self fun w m => ⟨_, _, exec_loadConst w m i _, rfl⟩)
  | temp reg => exact fun x hx => nomatch hx
  | name l => exact hone (.of_set List.mem_cons_self fun w m => ⟨_, _, exec_loadSymbol w m l _, rfl⟩)
  | eseq s e => exact fun x hx => nomatch hx
  | call func args => exact .of_callBlock (.of_call rfl fun w m => ⟨_, exec_call w m func callerSaved⟩) _ _
  | callReg func args => exact .of_callBlock (.of_call rfl fun w m => ⟨_, exec_callReg w m _ callerSaved⟩) _ _

/-- So do the instructions of all emitted code. -/
theorem Lowers.changesOnlyDefs {n n' : Nat} {xs : List Subtree} {code : List Instr} {regs : List Temp}
    (h : Lowers n xs code regs n') : ∀ x ∈ code, ChangesOnlyDefs x := by
  induction h with
  | nil n => exact fun x hx => nomatch hx
  | @cons n n₁ n₂ y rest tile code code' regs regs' _ _ _ ihparts ihrest =>
    intro x hx
    rw [List.mem_append, List.mem_append] at hx
    obtain (hx | hx) | hx := hx
    · exact ihparts x hx
    · exact tile.changesOnlyDefs _ _ x hx
    · exact ihrest x hx

end Lowering.X86
