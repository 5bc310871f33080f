import Lowering.Proofs.Tiling.Derivation

/-!
# Where the code of a node stands

Lowering a tree comes to its nodes in a fixed order. `Visits` says that it comes to a node with `n` registers handed
out and some code emitted before; it counts occurrences, so that two equal subtrees are two visits. The code of the
node stands right behind that code, whatever the rest of the tree is.
-/

namespace Lowering.X86

namespace Lowers

variable {n n' n'' : Nat} {xs : List Subtree} {code code' : List Instr} {regs regs' : List Temp}

/-- Lowering is a function of the trees and the counter. -/
theorem unique (h : Lowers n xs code regs n') (h' : Lowers n xs code' regs' n'') :
    code = code' ∧ regs = regs' ∧ n' = n'' := by
  induction h generalizing code' regs' n'' with
  | nil n =>
    cases h'
    exact ⟨rfl, rfl, rfl⟩
  | cons htile _ _ ihparts ihrest =>
    cases h' with
    | cons htile' hparts' hrest' =>
      cases htile.symm.trans htile'
      obtain ⟨rfl, rfl, rfl⟩ := ihparts hparts'
      obtain ⟨rfl, rfl, rfl⟩ := ihrest hrest'
      exact ⟨rfl, rfl, rfl⟩

/-- Trees are lowered one list after the other. -/
theorem append {ys : List Subtree} (h : Lowers n xs code regs n') (h' : Lowers n' ys code' regs' n'') :
    Lowers n (xs ++ ys) (code ++ code') (regs ++ regs') n'' := by
  induction h with
  | nil n => exact h'
  | cons htile hparts _ _ ihrest =>
    rw [List.append_assoc (_ ++ _), List.append_assoc (Subtree.results _ _)]
    exact .cons htile hparts (ihrest h')

/-- The code of a list of trees is that of its first trees and then that of the others. -/
theorem split (xs : List Subtree) {ys : List Subtree} (h : Lowers n (xs ++ ys) code regs n') :
    ∃ c₁ r₁ n₁ c₂ r₂, Lowers n xs c₁ r₁ n₁ ∧ Lowers n₁ ys c₂ r₂ n' ∧ code = c₁ ++ c₂ ∧ regs = r₁ ++ r₂ := by
  induction xs generalizing n code regs with
  | nil => exact ⟨[], [], n, code, regs, .nil n, h, rfl, rfl⟩
  | cons x rest ih =>
    cases h with
    | cons htile hparts hrest =>
      obtain ⟨c₁, r₁, n₁, c₂, r₂, h₁, h₂, rfl, rfl⟩ := ih hrest
      refine ⟨_, _, n₁, c₂, r₂, .cons htile hparts h₁, h₂, ?_, ?_⟩
      · rw [List.append_assoc, List.append_assoc, List.append_assoc]
      · rw [List.append_assoc]

/-- The code of a node is that of its parts and then the block of its tile. -/
theorem node {x : Subtree} {tile : Tile} (htile : tile? x = some tile) (h : Lowers n [x] code regs n') :
    ∃ c rs n₁, Lowers n tile.parts c rs n₁ ∧ code = c ++ tile.block rs (tile.fresh n₁) ∧
      regs = x.results (tile.value rs (tile.fresh n₁)) ∧ n' = tile.next n₁ := by
  cases h with
  | @cons _ n₁ _ _ _ _ c _ rs _ htile' hparts hrest =>
    cases hrest
    cases htile.symm.trans htile'
    exact ⟨c, rs, n₁, hparts, List.append_nil _, List.append_nil _, rfl⟩

end Lowers

/-- From counter `n`, lowering the trees `xs` comes to the node `x` with the counter at `k`, behind the code `pre`. -/
inductive Visits : (n : Nat) → (xs : List Subtree) → (pre : List Instr) → (x : Subtree) → (k : Nat) → Prop where
  | here (n : Nat) (x : Subtree) (rest : List Subtree) : Visits n (x :: rest) [] x n
  | inside {n k : Nat} {x y : Subtree} {rest : List Subtree} {tile : Tile} {pre : List Instr}
      (htile : tile? y = some tile) (hparts : Visits n tile.parts pre x k) : Visits n (y :: rest) pre x k
  | after {n n₁ k : Nat} {x y : Subtree} {rest : List Subtree} {code pre : List Instr} {regs : List Temp}
      (hfirst : Lowers n [y] code regs n₁) (hrest : Visits n₁ rest pre x k) : Visits n (y :: rest) (code ++ pre) x k

/-- The code of a node stands where lowering comes to it. -/
theorem Visits.code {n k n' : Nat} {xs : List Subtree} {pre code : List Instr} {x : Subtree} {regs : List Temp}
    (hvisits : Visits n xs pre x k) (h : Lowers n xs code regs n') :
    ∃ c rs k' post, Lowers k [x] c rs k' ∧ code = pre ++ c ++ post := by
  induction hvisits generalizing code regs n' with
  | here n x rest =>
    obtain ⟨c₁, r₁, n₁, c₂, r₂, h₁, -, rfl, -⟩ := Lowers.split [x] h
    exact ⟨c₁, r₁, n₁, c₂, h₁, rfl⟩
  | @inside _ _ _ _ _ tile _ htile _ ih =>
    cases h with
    | @cons _ n₁ _ _ _ _ _ code' regs _ htile' hparts _ =>
      cases htile.symm.trans htile'
      obtain ⟨c, rs, k', post, hc, rfl⟩ := ih hparts
      exact ⟨c, rs, k', post ++ tile.block regs (tile.fresh n₁) ++ code', hc, by simp only [List.append_assoc]⟩
  | @after _ _ _ _ y _ _ _ _ hfirst _ ih =>
    obtain ⟨c₁, r₁, n₁, c₂, r₂, h₁, h₂, rfl, -⟩ := Lowers.split [y] h
    obtain ⟨rfl, -, rfl⟩ := hfirst.unique h₁
    obtain ⟨c, rs, k', post, hc, rfl⟩ := ih h₂
    exact ⟨c, rs, k', post, hc, by simp only [List.append_assoc]⟩

theorem Visits.le {n k : Nat} {xs : List Subtree} {pre : List Instr} {x : Subtree} (h : Visits n xs pre x k) :
    n ≤ k := by
  induction h with
  | here n x rest => exact Nat.le_refl n
  | inside _ _ ih => exact ih
  | after hfirst _ ih => exact Nat.le_trans hfirst.le ih

end Lowering.X86
