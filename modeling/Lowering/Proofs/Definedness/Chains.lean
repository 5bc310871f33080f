import Lowering.Proofs.Definedness.Check
import Lowering.Proofs.Renaming.Tiles
import Lowering.Proofs.Tiling.Refusals

/-!
# Chains of instructions

Lowering uses registers of the tree, fixed ones and those it introduces itself, and the latter only behind the
instruction that defines them: `Lowers.definedBeforeUse`. The invariant speaks of the values too, since a value is used
by the block of the node above: its register is one of the tree, a fixed one or defined by the code so far. The check
can then complain of nothing but registers that the tree names.
-/

namespace Lowering

open X86

/-! ### Code in parts -/

section Parts

variable {code code' rest : List Instr} {live live' : List Temp} {x : Instr} {t : Temp}

theorem available_zero : Available code live 0 t ↔ t.isFixed = true ∨ t ∈ live := by
  simp [Available]

theorem available_cons_succ {i : Nat} : Available (x :: rest) live (i + 1) t ↔ Available rest (live ++ x.defs) i t := by
  have hfirst : (∃ j y, j < i + 1 ∧ (x :: rest)[j]? = some y ∧ t ∈ y.defs) ↔
      t ∈ x.defs ∨ ∃ j y, j < i ∧ rest[j]? = some y ∧ t ∈ y.defs := by
    constructor
    · rintro ⟨j, y, hj, hy, ht⟩
      cases j with
      | zero =>
        obtain rfl := Option.some.inj hy
        exact .inl ht
      | succ j => exact .inr ⟨j, y, by omega, hy, ht⟩
    · rintro (ht | ⟨j, y, hj, hy, ht⟩)
      · exact ⟨0, x, by omega, rfl, ht⟩
      · exact ⟨j + 1, y, by omega, hy, ht⟩
  simp only [Available, hfirst, List.mem_append, or_assoc]

@[simp] theorem definedBeforeUse_nil : DefinedBeforeUse [] live := by
  simp [DefinedBeforeUse]

@[simp] theorem definedBeforeUse_cons :
    DefinedBeforeUse (x :: rest) live ↔
      (∀ t ∈ x.uses, t.isFixed = true ∨ t ∈ live) ∧ DefinedBeforeUse rest (live ++ x.defs) := by
  constructor
  · intro h
    exact ⟨fun t ht => available_zero.mp (h 0 x rfl t ht), fun i y hy t ht =>
      available_cons_succ.mp (h (i + 1) y hy t ht)⟩
  · rintro ⟨hx, hrest⟩ i y hy t ht
    cases i with
    | zero =>
      obtain rfl := Option.some.inj hy
      exact available_zero.mpr (hx t ht)
    | succ i => exact available_cons_succ.mpr (hrest i y hy t ht)

theorem definedBeforeUse_append :
    DefinedBeforeUse (code ++ code') live ↔
      DefinedBeforeUse code live ∧ DefinedBeforeUse code' (live ++ definedBy code) := by
  induction code generalizing live with
  | nil => simp
  | cons x rest ih => simp [ih, and_assoc]

/-- Code that uses fixed registers and live ones only need not define any. -/
theorem DefinedBeforeUse.of_uses (h : ∀ x ∈ code, ∀ t ∈ x.uses, t.isFixed = true ∨ t ∈ live) :
    DefinedBeforeUse code live := by
  intro i x hx t ht
  obtain hfixed | hlive := h x (List.mem_of_getElem? hx) t ht
  · exact .inl hfixed
  · exact .inr (.inl hlive)

end Parts

namespace X86

/-! ### Tiles -/

/-- A block uses the fresh register only behind the instruction that defines it. -/
theorem Tile.definedBeforeUse_block {tile : Tile} {regs live : List Temp} (fresh : Temp)
    (hregs : regs.length = tile.parts.countP Subtree.isExp) (hlive : ∀ t ∈ regs, t.isFixed = true ∨ t ∈ live) :
    DefinedBeforeUse (tile.block regs fresh) live := by
  have hfixed (x : Register) : x.temp.isFixed = true := by cases x <;> decide
  cases tile with
  | call func args =>
    refine .of_uses fun x hx t ht => ?_
    exact (uses_call hregs hx ht).elim (hlive t) fun hneg => .inl (decide_eq_true hneg)
  | callReg func args =>
    refine .of_uses fun x hx t ht => ?_
    exact (uses_callReg hregs hx ht).elim (hlive t) fun hneg => .inl (decide_eq_true hneg)
  | store | branch | arith | mul | div | shift =>
    obtain ⟨a, b, rfl⟩ := List.length_eq_two.mp hregs
    have ha := hlive a (by simp)
    have hb := hlive b (by simp)
    -- what the block defines before it comes to `b` does not matter
    have hb' (p : Prop) : b.isFixed = true ∨ b ∈ live ∨ p := hb.imp_right .inl
    simp [Tile.block, X86.branch, hfixed, ha, hb, hb']
  | storeConst | storeAt | setLoad | setCopy | jumpReg | branchConst | load | arithConst | mulConst | shiftConst =>
    obtain ⟨a, rfl⟩ := List.length_eq_one_iff.mp hregs
    have ha := hlive a (by simp)
    simp [Tile.block, X86.branch, ha]
  | setConst | drop | label | seq | jump | loadAt | const | temp | name | eseq => simp [Tile.block]

/-- The value of an expression is in a register of the tree, in that of a part or in one that the block defines. -/
theorem Covers.value_defined {e : Exp} {tile : Tile} (hcovers : Covers (.exp e) tile) {regs : List Temp} (fresh : Temp)
    (hregs : regs.length = tile.parts.countP Subtree.isExp) :
    tile.value regs fresh ∈ e.temps ∨ tile.value regs fresh ∈ regs ∨
      tile.value regs fresh ∈ definedBy (tile.block regs fresh) := by
  cases hcovers with
  | temp t => simp [Tile.value, Exp.temps]
  | eseq s e =>
    obtain ⟨a, rfl⟩ := List.length_eq_one_iff.mp hregs
    simp [Tile.value]
  | _ => exact .inr (.inr ((Tile.mem_definedBy_block ..).mpr (.inr ⟨rfl, rfl⟩)))

/-! ### Derivations -/

/-- Whatever is live, if all registers of the trees are, the code defines the others before it uses them, and it leaves
values in live registers or in such that it defines. -/
theorem Lowers.definedBeforeUse {n n' : Nat} {xs : List Subtree} {code : List Instr} {regs live : List Temp}
    (h : Lowers n xs code regs n') (hlive : ∀ x ∈ xs, ∀ t ∈ x.temps, t.isFixed = true ∨ t ∈ live) :
    DefinedBeforeUse code live ∧ ∀ t ∈ regs, t.isFixed = true ∨ t ∈ live ++ definedBy code := by
  induction h generalizing live with
  | nil n => simp
  | @cons n n₁ n₂ x rest tile code code' regs regs' htile hparts hrest ihparts ihrest =>
    have hcovers := covers_of_tile? htile
    obtain ⟨hx, hrest'⟩ := List.forall_mem_cons.mp hlive
    obtain ⟨hcode, hregs⟩ := ihparts fun y hy t ht => hx t (hcovers.temps_parts hy ht)
    have hblock := Tile.definedBeforeUse_block (tile.fresh n₁) hparts.length_values hregs
    obtain ⟨hcode', hregs'⟩ := @ihrest (live ++ definedBy (code ++ tile.block regs (tile.fresh n₁))) fun y hy t ht =>
      (hrest' y hy t ht).imp_right (List.mem_append_left _)
    refine ⟨definedBeforeUse_append.mpr ⟨definedBeforeUse_append.mpr ⟨hcode, hblock⟩, hcode'⟩, ?_⟩
    rw [definedBy_append, ← List.append_assoc]
    refine List.forall_mem_append.mpr ⟨fun t ht => ?_, hregs'⟩
    cases x with
    | stm s => cases ht
    | exp e =>
      obtain rfl := List.mem_singleton.mp ht
      rw [definedBy_append]
      obtain htemp | hreg | hdef := hcovers.value_defined (tile.fresh n₁) hparts.length_values
      · exact (hx _ htemp).imp_right fun hmem => by simp [hmem]
      · refine (hregs _ hreg).imp_right fun hmem => ?_
        simp only [List.mem_append] at hmem ⊢
        grind
      · exact .inr (by simp [hdef])

end X86

/-! ### The check of the code of a tree -/

/-- The code of a tree, up to register `n'`: with the virtual registers of the tree live on entry it defines registers
before it uses them, and it passes the check, as long as the numbers of the registers fit 64 bits. Whatever is live on
entry, the check complains of registers of the tree only. -/
structure ChainSound (temps : List Temp) (n' : Nat) (code : List Instr) : Prop where
  defined : DefinedBeforeUse code (temps.filter (!·.isFixed))
  passes : n' < 0x8000000000000000 → checkDefined code (temps.filter (!·.isFixed)) = .ok ()
  blames : ∀ liveIn u, checkDefined code liveIn = .error (.failed u) → u.reg ∈ temps

theorem Temp.Valid.numbered {n : Nat} {t : Temp} (h : t.Valid n) (hn : n < 0x8000000000000000) : t.Numbered := by
  refine ⟨h.ne_zero, ?_⟩
  obtain hneg | ⟨-, hle⟩ := h
  · omega
  · omega

/-- What is live on entry is not complained of, if all else is defined before it is used. -/
theorem mem_of_undefinedUse {code : List Instr} {live liveIn : List Temp} {u : UndefinedUse}
    (hdefined : DefinedBeforeUse code live) (h : checkDefined code liveIn = .error (.failed u)) : u.reg ∈ live := by
  obtain ⟨hinstr, huse, hmissing⟩ := checkDefined_failed h
  obtain hfixed | hlive | hearlier := hdefined u.index u.instr hinstr u.reg huse
  · exact absurd (.inl hfixed) hmissing
  · exact hlive
  · exact absurd (.inr (.inr hearlier)) hmissing

theorem X86.Lowers.chainSound {n n' : Nat} {x : Subtree} {code : List Instr} {regs : List Temp}
    (h : Lowers n [x] code regs n') (hx : ∀ t ∈ x.temps, t.Valid n) :
    ChainSound x.temps n' code ∧ ∀ t ∈ regs, t.isFixed = true ∨ t ∈ x.temps ∨ t ∈ definedBy code := by
  have hlive : ∀ y ∈ [x], ∀ t ∈ y.temps, t.isFixed = true ∨ t ∈ x.temps.filter (!·.isFixed) := by
    intro y hy t ht
    obtain rfl := List.mem_singleton.mp hy
    cases hfixed : t.isFixed with
    | true => exact .inl rfl
    | false => exact .inr (List.mem_filter.mpr ⟨ht, by simp [hfixed]⟩)
  obtain ⟨hdefined, hregs⟩ := h.definedBeforeUse hlive
  refine ⟨⟨hdefined, fun hn => ?_, fun liveIn u hfailed => ?_⟩, fun t ht => (hregs t ht).imp_right ?_⟩
  · obtain ⟨hcode, -⟩ := h.valid (List.forall_mem_singleton.mpr hx)
    refine (checkDefined_eq_ok_iff fun t ht => ?_).mpr hdefined
    obtain hmem | hmentioned := Check.mem_mentioned.mp ht
    · exact ((hx t (List.mem_of_mem_filter hmem)).mono h.le).numbered hn
    · exact (hcode t (Check.mem_mentioned.mpr (.inr hmentioned))).numbered hn
  · exact List.mem_of_mem_filter (mem_of_undefinedUse hdefined hfailed)
  · rw [List.mem_append]
    exact Or.imp_left List.mem_of_mem_filter

/-- Whenever a tree without holes is lowered, and its virtual registers were handed out before, the code that is
appended passes the check with these registers live on entry, and the check never complains of another one. An
expression ends in a register that is fixed, named by the tree or defined by that code. -/
theorem lowered_code_is_chained :
    (∀ (s : Stm) (log log' : Log), s.whole = true → (∀ t ∈ s.temps, t.Valid log.session.temps) →
      (X86.rules.tileStm s).run.run log = (.ok (), log') →
      ∃ code, log'.code = log.code ++ code ∧ ChainSound s.temps log'.session.temps code) ∧
    ∀ (e : Exp) (t : Temp) (log log' : Log), e.whole = true → (∀ t ∈ e.temps, t.Valid log.session.temps) →
      (X86.rules.tileExp e).run.run log = (.ok t, log') →
      ∃ code, log'.code = log.code ++ code ∧ ChainSound e.temps log'.session.temps code ∧
        (t.isFixed = true ∨ t ∈ e.temps ∨ ∃ x ∈ code, t ∈ x.defs) := by
  constructor
  · intro s log log' hs htemps hrun
    obtain ⟨code, hlowers, hcode⟩ := lowers_of_tileStm hs hrun
    obtain ⟨hsound, -⟩ := hlowers.chainSound htemps
    exact ⟨code, hcode, hsound⟩
  · intro e t log log' he htemps hrun
    obtain ⟨code, hlowers, hcode⟩ := lowers_of_tileExp he hrun
    obtain ⟨hsound, hregs⟩ := hlowers.chainSound htemps
    refine ⟨code, hcode, hsound, ?_⟩
    simpa [definedBy] using hregs t List.mem_cons_self

/-- A quotient shifted by the result of a call that takes a constant and a register, and a store of the result register
at that address. -/
theorem shiftedQuotient_is_chained :
    let e : Exp := .bin .shl (.bin .div (.temp ⟨1⟩) (.temp ⟨2⟩)) (.call (.name "f") [.const 7, .temp ⟨1⟩])
    let s : Stm := .move (.mem e) (.temp X86.resultRegister)
    let log : Log := { session := { temps := 2 } }
    (s.whole = true ∧ (∀ t ∈ s.temps, t.Valid 2) ∧ ∃ log', (X86.rules.tileStm s).run.run log = (.ok (), log') ∧
      checkDefined log'.code [⟨1⟩, ⟨2⟩, ⟨1⟩] = .ok () ∧ ChainSound s.temps 5 log'.code) ∧
    e.whole = true ∧ (∀ t ∈ e.temps, t.Valid 2) ∧ ∃ t log', (X86.rules.tileExp e).run.run log = (.ok t, log') ∧
      checkDefined log'.code [⟨1⟩, ⟨2⟩, ⟨1⟩] = .ok () ∧ ChainSound e.temps 5 log'.code ∧ t ∈ definedBy log'.code := by
  intro e s log
  have hfixed : X86.resultRegister.Valid 2 := .inl (by decide)
  have h₁ : Temp.Valid 2 ⟨1⟩ := .inr (by decide)
  have h₂ : Temp.Valid 2 ⟨2⟩ := .inr (by decide)
  have hs : ∀ t ∈ s.temps, t.Valid 2 := by
    simp [s, e, Stm.temps, Exp.temps, Exp.tempsAll, h₁, h₂, hfixed]
  have he : ∀ t ∈ e.temps, t.Valid 2 := by
    simp [e, Exp.temps, Exp.tempsAll, h₁, h₂]
  obtain ⟨_, _, hparts⟩ : ∃ code regs, Lowers 2
      [.exp (.bin .div (.temp ⟨1⟩) (.temp ⟨2⟩)), .exp (.call (.name "f") [.const 7, .temp ⟨1⟩])] code regs 4 :=
    ⟨_, _, .cons rfl (.cons rfl (.nil _) (.cons rfl (.nil _) (.nil _)))
      (.cons rfl (.cons rfl (.nil _) (.nil _)) (.nil _))⟩
  constructor
  · obtain ⟨_, _, hlowers⟩ : ∃ code regs, Lowers 2 [.stm s] code regs 5 :=
      ⟨_, _, .cons rfl (.cons rfl hparts (.cons rfl (.nil _) (.nil _))) (.nil _)⟩
    obtain ⟨journal, hrun⟩ := tileStm_run hlowers log rfl
    obtain ⟨code, hcode, hsound⟩ := lowered_code_is_chained.1 s log _ (by decide) hs hrun
    refine ⟨by decide, hs, _, hrun, ?_, ?_⟩
    · rw [hcode]
      exact hsound.passes (by simp)
    · rw [hcode]
      exact hsound
  · have htile : tile? (.exp e) = some (.shift .left _ _) := rfl
    obtain ⟨_, hlowers⟩ : ∃ code, Lowers 2 [.exp e] code [⟨5⟩] 5 := ⟨_, .cons htile hparts (.nil _)⟩
    obtain ⟨t, ht, hyields⟩ := tileExp_run hlowers
    obtain rfl : ⟨5⟩ = t := List.head_eq_of_cons_eq ht
    obtain ⟨journal, hrun⟩ := hyields log rfl
    obtain ⟨code, hcode, hsound, hvalue⟩ := lowered_code_is_chained.2 e ⟨5⟩ log _ (by decide) he hrun
    refine ⟨by decide, he, ⟨5⟩, _, hrun, ?_, ?_, ?_⟩
    · rw [hcode]
      exact hsound.passes (by simp)
    · rw [hcode]
      exact hsound
    · rw [hcode]
      simpa [definedBy, e, log, Exp.temps, Exp.tempsAll, Temp.isFixed] using hvalue

end Lowering
