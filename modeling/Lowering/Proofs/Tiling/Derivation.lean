import Lowering.Proofs.Tiling.Rules

/-!
# The code of a tree

`Lowers` relates a list of trees to the code that lowering them from left to right appends, to the registers of their
values, and to the counter of fresh registers, wherever these come from. It follows tiles and knows nothing of rules,
actions, logs or journals; `Lowers.sound` says that this is what selection does. A property of emitted code is proved by
induction on `Lowers`, with one case for a tile: its parts, its block, and the trees that follow.
-/

namespace Lowering

/-- The values of a subtree: a statement has none. -/
def Subtree.results : Subtree → Temp → List Temp
  | .stm _, _ => []
  | .exp _, t => [t]

/-- The number of nodes of a list of trees. -/
def Subtree.sizeAll : List Subtree → Nat
  | [] => 0
  | x :: xs => x.size + sizeAll xs

namespace X86

open Selecting

/-! ### The counter -/

/-- The fresh register of a tile, if it takes one, when `n` registers were handed out before. -/
def Tile.fresh [S : Supply] (tile : Tile) (n : Nat) : Temp := if tile.takesFresh then S.register n else ⟨0⟩

/-- The counter behind a tile. -/
def Tile.next (tile : Tile) (n : Nat) : Nat := if tile.takesFresh then n + 1 else n

theorem Tile.fresh_inOrder {tile : Tile} (htakes : tile.takesFresh = true) (n : Nat) :
    tile.fresh n = ⟨(n : Int) + 1⟩ := if_pos htakes

theorem Tile.le_next (tile : Tile) (n : Nat) : n ≤ tile.next n := by
  rw [Tile.next]
  split <;> omega

theorem Tile.finish_yields [S : Supply] (tile : Tile) (regs : List Temp) (n : Nat) :
    (tile.finish regs).Yields n (tile.block regs (tile.fresh n)) (.ok (tile.value regs (tile.fresh n)))
    (tile.next n) := by
  have hbody (fresh : Temp) (n : Nat) : Yields (do
      Selecting.emit (tile.block regs fresh)
      return tile.value regs fresh) n (tile.block regs fresh) (.ok (tile.value regs fresh)) n := by
    have h := (Yields.emit (tile.block regs fresh) n).bind (f := fun _ => pure (tile.value regs fresh))
      (Yields.pure (tile.value regs fresh) n)
    rwa [List.append_nil] at h
  rw [Tile.finish, Tile.fresh, Tile.next]
  cases tile.takesFresh with
  | true => exact (Yields.fresh n).bind (hbody _ (n + 1))
  | false => exact (Yields.pure _ n).bind (hbody _ n)

/-! ### Derivations -/

/-- From counter `n`, lowering trees from left to right appends `code`, leaves their values in `regs` and
the counter at `n'`. -/
inductive Lowers [S : Supply] :
    (n : Nat) → List Subtree → (code : List Instr) → (regs : List Temp) → (n' : Nat) → Prop where
  | nil (n : Nat) : Lowers n [] [] [] n
  | cons {n n₁ n₂ : Nat} {x : Subtree} {rest : List Subtree} {tile : Tile} {code code' : List Instr}
      {regs regs' : List Temp} (htile : tile? x = some tile) (hparts : Lowers n tile.parts code regs n₁)
      (hrest : Lowers (tile.next n₁) rest code' regs' n₂) :
      Lowers n (x :: rest) (code ++ tile.block regs (tile.fresh n₁) ++ code')
        (x.results (tile.value regs (tile.fresh n₁)) ++ regs') n₂

/-! ### Parts are smaller -/

theorem sizeAll_registerArgs (args : List Exp) :
    Subtree.sizeAll ((registerArgs args).map .exp) ≤ Exp.sizeAll args := by
  induction args with
  | nil => exact Nat.le_refl 0
  | cons e rest ih =>
    rw [registerArgs] at ih ⊢
    cases hconst : constOf? e with
    | some i =>
      rw [List.filter_cons_of_neg (by simp [hconst])]
      exact Nat.le_trans ih (Nat.le_add_left _ _)
    | none =>
      rw [List.filter_cons_of_pos (by simp [hconst])]
      exact Nat.add_le_add_left ih e.size

theorem Covers.sizeAll_parts {x : Subtree} {tile : Tile} (hcovers : Covers x tile) :
    Subtree.sizeAll tile.parts < x.size := by
  cases hcovers with
  | call l args =>
    have := sizeAll_registerArgs args
    simp only [Tile.parts, Subtree.size, Exp.size]
    omega
  | callReg func args =>
    have := sizeAll_registerArgs args
    simp only [Tile.parts, Subtree.size, Exp.size, Subtree.sizeAll] at this ⊢
    omega
  | _ => simp [Tile.parts, Subtree.sizeAll, Subtree.size, Stm.size, Exp.size] <;> omega

/-! ### What selection does -/

section Equations

variable {stm stm' : Stm → Selecting Unit} {exp exp' : Exp → Selecting Temp}

theorem lowerParts_congr (xs : List Subtree) {bound : Nat} (hxs : Subtree.sizeAll xs < bound)
    (hstm : ∀ s, s.size < bound → stm s = stm' s) (hexp : ∀ e, e.size < bound → exp e = exp' e) :
    lowerParts stm exp xs = lowerParts stm' exp' xs := by
  induction xs with
  | nil => rfl
  | cons x rest ih =>
    rw [Subtree.sizeAll] at hxs
    have hrest := ih (Nat.lt_of_le_of_lt (Nat.le_add_left ..) hxs)
    have hx := Nat.lt_of_le_of_lt (Nat.le_add_right ..) hxs
    cases x with
    | stm s => rw [lowerParts, lowerParts, lowerStmPart, lowerStmPart, hstm s hx, hrest]
    | exp e => rw [lowerParts, lowerParts, lowerExpPart, lowerExpPart, hexp e hx, hrest]

end Equations

/-- A statement is lowered by its tile, once the rule is noted. -/
theorem lowerStm_eq [S : Supply] {s : Stm} {tile : Tile} (htile : tile? (.stm s) = some tile) :
    ∃ rule, X86.rules.lowerStm s = Selecting.noteStm rule s >>= fun _ =>
      tile.lower X86.rules.lowerStm X86.rules.lowerExp >>= fun _ => pure () := by
  obtain ⟨rule, captures, hselect, hrun⟩ := stmRule htile
  refine ⟨rule.name, ?_⟩
  rw [RuleBook.lowerStm, hselect]
  refine bind_congr fun _ => hrun.trans ?_
  refine congrArg (· >>= fun _ => pure ()) (congrArg (· >>= tile.finish) ?_)
  exact lowerParts_congr _ (covers_of_tile? htile).sizeAll_parts (fun s hs => dif_pos hs) (fun e he => dif_pos he)

/-- An expression is lowered by its tile, and the rule is noted afterwards. -/
theorem lowerExp_eq [S : Supply] {e : Exp} {tile : Tile} (htile : tile? (.exp e) = some tile)
    (hholes : ∀ func args, e = .call func args → Exp.hole ∉ args) :
    ∃ rule, X86.rules.lowerExp e = tile.lower X86.rules.lowerStm X86.rules.lowerExp >>= fun t =>
      Selecting.noteExp rule e t >>= fun _ => pure t := by
  obtain ⟨rule, captures, hselect, hrun⟩ := expRule htile hholes
  refine ⟨rule.name, ?_⟩
  rw [RuleBook.lowerExp, hselect]
  refine congrArg (· >>= _) (hrun.trans (congrArg (· >>= tile.finish) ?_))
  exact lowerParts_congr _ (covers_of_tile? htile).sizeAll_parts (fun s hs => dif_pos hs) (fun e he => dif_pos he)

theorem isHole_of_tile? {x : Subtree} {tile : Tile} (htile : tile? x = some tile) : x.isHole = false := by
  cases covers_of_tile? htile <;> rfl

theorem hole_mem_registerArgs {args : List Exp} (hmem : Exp.hole ∈ args) : Exp.hole ∈ registerArgs args :=
  List.mem_filter.mpr ⟨hmem, rfl⟩

section Node

variable [S : Supply] {n n₁ : Nat} {tile : Tile} {code : List Instr} {regs : List Temp}
variable (hparts : (lowerParts X86.rules.lowerStm X86.rules.lowerExp tile.parts).Yields n code (.ok regs) n₁)

include hparts

theorem lowerStm_yields {s : Stm} (htile : tile? (.stm s) = some tile) :
    (lowerStmPart X86.rules.lowerStm s).Yields n (code ++ tile.block regs (tile.fresh n₁)) (.ok ()) (tile.next n₁) := by
  obtain ⟨rule, heq⟩ := lowerStm_eq htile
  have hs : Kind.stm.isHole s = false := isHole_of_tile? htile
  have hne : s ≠ .hole := by
    rintro rfl
    cases hs
  rw [lowerStmPart, hs, if_neg Bool.false_ne_true, heq]
  have htile := ((hparts.bind (tile.finish_yields regs n₁)).bind (f := fun _ => pure ()) (Yields.pure () _))
  rw [List.append_nil] at htile
  exact (Yields.noteStm rule hne n).bind htile

theorem lowerExp_yields {e : Exp} (htile : tile? (.exp e) = some tile)
    (hholes : ∀ func args, e = .call func args → Exp.hole ∉ args) :
    (lowerExpPart X86.rules.lowerExp e).Yields n (code ++ tile.block regs (tile.fresh n₁))
      (.ok (tile.value regs (tile.fresh n₁))) (tile.next n₁) := by
  obtain ⟨rule, heq⟩ := lowerExp_eq htile hholes
  have he : Kind.exp.isHole e = false := isHole_of_tile? htile
  have hne : e ≠ .hole := by
    rintro rfl
    cases he
  rw [lowerExpPart, he, if_neg Bool.false_ne_true, heq]
  have hnote := (Yields.noteExp rule hne (tile.value regs (tile.fresh n₁)) (tile.next n₁)).bind
    (f := fun _ => pure (tile.value regs (tile.fresh n₁))) (Yields.pure _ _)
  have h := (hparts.bind (tile.finish_yields regs n₁)).bind
    (f := fun t => Selecting.noteExp rule e t >>= fun _ => pure t) hnote
  rw [List.append_nil, List.append_nil] at h
  exact h

end Node

section Failing

variable [S : Supply] {n n₁ : Nat} {tile : Tile} {code : List Instr} {why : Stop Refusal}
variable (hparts : (lowerParts X86.rules.lowerStm X86.rules.lowerExp tile.parts).Yields n code (.error why) n₁)

include hparts

theorem lowerStm_yields_error {s : Stm} (htile : tile? (.stm s) = some tile) :
    (lowerStmPart X86.rules.lowerStm s).Yields n code (.error why) n₁ := by
  obtain ⟨rule, heq⟩ := lowerStm_eq htile
  have hs : Kind.stm.isHole s = false := isHole_of_tile? htile
  have hne : s ≠ .hole := by
    rintro rfl
    cases hs
  rw [lowerStmPart, hs, if_neg Bool.false_ne_true, heq]
  exact (Yields.noteStm rule hne n).bind (hparts.bind_error.bind_error)

theorem lowerExp_yields_error {e : Exp} (htile : tile? (.exp e) = some tile)
    (hholes : ∀ func args, e = .call func args → Exp.hole ∉ args) :
    (lowerExpPart X86.rules.lowerExp e).Yields n code (.error why) n₁ := by
  obtain ⟨rule, heq⟩ := lowerExp_eq htile hholes
  have he : Kind.exp.isHole e = false := isHole_of_tile? htile
  rw [lowerExpPart, he, if_neg Bool.false_ne_true, heq]
  exact hparts.bind_error.bind_error

end Failing

namespace Lowers

variable [S : Supply] {n n' : Nat} {xs : List Subtree} {code : List Instr} {regs : List Temp}

theorem isHole_eq_false (h : Lowers n xs code regs n') : ∀ x ∈ xs, x.isHole = false := by
  induction h with
  | nil n => exact fun x hx => nomatch hx
  | cons htile _ _ _ ihrest =>
    intro y hy
    obtain rfl | hy := List.mem_cons.mp hy
    · exact isHole_of_tile? htile
    · exact ihrest y hy

theorem hole_not_mem_args {tile : Tile} {func : Exp} {args : List Exp}
    (htile : tile? (.exp (.call func args)) = some tile) (h : Lowers n tile.parts code regs n') : Exp.hole ∉ args := by
  intro hmem
  have hpart : Subtree.exp .hole ∈ tile.parts := by
    have := hole_mem_registerArgs hmem
    cases covers_of_tile? htile with
    | call l args => exact List.mem_map_of_mem this
    | callReg func args => exact List.mem_cons_of_mem _ (List.mem_map_of_mem this)
  exact Bool.noConfusion (h.isHole_eq_false _ hpart)

/-- Derivations describe what selection does. -/
theorem sound (h : Lowers n xs code regs n') :
    (lowerParts X86.rules.lowerStm X86.rules.lowerExp xs).Yields n code (.ok regs) n' := by
  induction h with
  | nil n => exact Yields.pure [] n
  | @cons n n₁ n₂ x rest tile code code' regs regs' htile hparts _ ihparts ihrest =>
    cases x with
    | stm s =>
      rw [lowerParts]
      exact (lowerStm_yields ihparts htile).bind ihrest
    | exp e =>
      have hholes (func : Exp) (args : List Exp) (he : e = .call func args) : Exp.hole ∉ args :=
        hparts.hole_not_mem_args (he ▸ htile)
      rw [lowerParts]
      refine (lowerExp_yields ihparts htile hholes).bind ?_
      have hrest := ihrest.bind (f := fun regs'' => pure (tile.value regs (tile.fresh n₁) :: regs''))
        (Yields.pure _ n₂)
      rwa [List.append_nil] at hrest

theorem le (h : Lowers n xs code regs n') : n ≤ n' := by
  induction h with
  | nil n => exact Nat.le_refl n
  | @cons n n₁ n₂ x rest tile code code' regs regs' _ _ _ ihparts ihrest =>
    exact Nat.le_trans ihparts (Nat.le_trans (tile.le_next n₁) ihrest)

end Lowers

/-- A statement with a derivation is lowered, and the code goes to the end of the log. -/
theorem tileStm_run [S : Supply] {n n' : Nat} {s : Stm} {code : List Instr} {regs : List Temp}
    (h : Lowers n [.stm s] code regs n') : (X86.rules.tileStm s).Yields n code (.ok ()) n' := by
  cases h with
  | @cons _ n₁ _ _ _ tile code code' regs regs' htile hparts hrest =>
    cases hrest
    have hs : Kind.stm.isHole s = false := isHole_of_tile? htile
    have hlower := lowerStm_yields hparts.sound htile
    rw [lowerStmPart, hs, if_neg Bool.false_ne_true] at hlower
    rw [List.append_nil]
    refine hlower.attempt ?_
    intro why hfailed
    cases hfailed

/-- An expression with a derivation is lowered, and its value is in the register of the derivation. -/
theorem tileExp_run [S : Supply] {n n' : Nat} {e : Exp} {code : List Instr} {regs : List Temp}
    (h : Lowers n [.exp e] code regs n') : ∃ t, regs = [t] ∧ (X86.rules.tileExp e).Yields n code (.ok t) n' := by
  cases h with
  | @cons _ n₁ _ _ _ tile code code' regs regs' htile hparts hrest =>
    cases hrest
    have he : Kind.exp.isHole e = false := isHole_of_tile? htile
    have hholes (func : Exp) (args : List Exp) (hcall : e = .call func args) : Exp.hole ∉ args :=
      hparts.hole_not_mem_args (hcall ▸ htile)
    have hlower := lowerExp_yields hparts.sound htile hholes
    rw [lowerExpPart, he, if_neg Bool.false_ne_true] at hlower
    refine ⟨_, rfl, ?_⟩
    rw [List.append_nil]
    refine hlower.attempt ?_
    intro why hfailed
    cases hfailed

end X86

end Lowering
