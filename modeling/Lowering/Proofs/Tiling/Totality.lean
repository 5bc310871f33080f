import Lowering.Proofs.Effects.Order
import Lowering.Proofs.Log.Emission

/-!
# Which trees are lowered

A tree without holes is lowered exactly if all its nodes are regular: moves go to registers or memory, and operators are
on the list. Nothing else about a node matters, and no tree makes lowering fault. The tiles cover more than one node
each, so a node may never be looked at on its own; what a tile swallows besides its root are constants, names, sums and
differences, and these are regular.
-/

namespace Lowering

/-- Does a move go to a register or to memory, and is an operator on the list? Other nodes are always regular. -/
def Subtree.regular : Subtree → Bool
  | .stm (.move dst _) => dst.isPlace
  | .exp (.bin op _ _) => decide (op ∈ Op.listed)
  | _ => true

theorem Exp.mem_postorderAll {args : List Exp} {y : Subtree} :
    y ∈ Exp.postorderAll args ↔ ∃ e ∈ args, y ∈ e.postorder := by
  induction args with
  | nil => simp [Exp.postorderAll]
  | cons e rest ih => simp [Exp.postorderAll, ih]

theorem Subtree.mem_postorder_self {x : Subtree} (hx : x.isHole = false) : x ∈ x.postorder := by
  rcases x with s | e
  · cases s with
    | hole => cases hx
    | _ => simp [Subtree.postorder, Stm.postorder]
  · cases e with
    | hole => cases hx
    | _ => simp [Subtree.postorder, Exp.postorder]

namespace X86

/-! ### Nodes and tiles -/

theorem regular_iff_tile? {x : Subtree} (hx : x.whole = true) : x.regular = true ↔ ∃ tile, tile? x = some tile := by
  rcases x with s | e
  · cases s with
    | hole => cases hx
    | move dst src => cases dst <;> simp [Subtree.regular, Exp.isPlace, tile?]
    | jump target labels => cases target <;> simp [Subtree.regular, tile?]
    | _ => simp [Subtree.regular, tile?]
  · cases e with
    | hole => cases hx
    | bin op left right => cases op <;> simp [Subtree.regular, Op.listed, tile?, opTile?]
    | call func args => cases func <;> simp [Subtree.regular, tile?]
    | _ => simp [Subtree.regular, tile?]

/-- The nodes of the parts of a tile are nodes of the tree. -/
theorem Covers.mem_postorder_of_part {x y part : Subtree} {tile : Tile} (hcovers : Covers x tile)
    (hpart : part ∈ tile.parts) (hy : y ∈ part.postorder) : y ∈ x.postorder := by
  have hargs {args : List Exp} (hpart : part ∈ (registerArgs args).map Subtree.exp) : y ∈ Exp.postorderAll args := by
    obtain ⟨e, he, rfl⟩ := List.mem_map.mp hpart
    exact Exp.mem_postorderAll.mpr ⟨e, mem_of_mem_registerArgs he, hy⟩
  cases hcovers with
  | call l args => simp [Subtree.postorder, Exp.postorder, hargs hpart]
  | callReg func args =>
    obtain rfl | hpart := List.mem_cons.mp hpart
    · exact List.mem_append_left _ (List.mem_append_left _ hy)
    · exact List.mem_append_left _ (List.mem_append_right _ (hargs hpart))
  | _ =>
    simp only [Tile.parts, List.mem_cons, List.not_mem_nil, or_false] at hpart
    try rcases hpart with rfl | rfl
    all_goals simp_all [Subtree.postorder, Stm.postorder, Exp.postorder]

/-- A node of a tree is a node of a part of its tile, or it is regular. -/
theorem Covers.regular_or_mem_part {x y : Subtree} {tile : Tile} (hcovers : Covers x tile) (hy : y ∈ x.postorder) :
    y.regular = true ∨ ∃ part ∈ tile.parts, y ∈ part.postorder := by
  have hargs {args : List Exp} (hy : y ∈ Exp.postorderAll args) :
      y.regular = true ∨ ∃ part ∈ (registerArgs args).map Subtree.exp, y ∈ part.postorder := by
    obtain ⟨e, he, hy⟩ := Exp.mem_postorderAll.mp hy
    obtain he | ⟨i, rfl⟩ := mem_registerArgs_or_const he
    · exact .inr ⟨.exp e, List.mem_map_of_mem he, hy⟩
    · obtain rfl := List.mem_singleton.mp hy
      exact .inl rfl
  have hop (o : Op) (ho : o ∈ Op.listed) (left right : Exp) : (Subtree.exp (.bin o left right)).regular = true :=
    decide_eq_true ho
  cases hcovers with
  | call l args =>
    simp only [Subtree.postorder, Exp.postorder, List.mem_append, List.mem_singleton] at hy
    obtain (rfl | hy) | rfl := hy
    · exact .inl rfl
    · exact hargs hy
    · exact .inl rfl
  | callReg func args =>
    simp only [Subtree.postorder, Exp.postorder, List.mem_append, List.mem_singleton] at hy
    obtain (hy | hy) | rfl := hy
    · exact .inr ⟨_, List.mem_cons_self, hy⟩
    · obtain hregular | ⟨part, hpart, hmem⟩ := hargs hy
      · exact .inl hregular
      · exact .inr ⟨part, List.mem_cons_of_mem _ hpart, hmem⟩
    · exact .inl rfl
  | arithConst o | arithConstLeft o | arith o =>
    have := hop o.op (by cases o <;> decide)
    simp only [Subtree.postorder, Exp.postorder, List.mem_append, List.mem_singleton] at hy
    rcases hy with (hy | hy) | rfl <;> simp_all [Tile.parts, Subtree.postorder, Subtree.regular]
  | shiftConst o | shift o =>
    have := hop o.op (by cases o <;> decide)
    simp only [Subtree.postorder, Exp.postorder, List.mem_append, List.mem_singleton] at hy
    rcases hy with (hy | hy) | rfl <;> simp_all [Tile.parts, Subtree.postorder, Subtree.regular]
  | _ =>
    simp only [Subtree.postorder, Stm.postorder, Exp.postorder, List.mem_append, List.mem_singleton] at hy
    simp only [Tile.parts, List.mem_cons, List.not_mem_nil, or_false, exists_eq_left, exists_eq_or_imp, false_and,
      exists_false, Subtree.postorder]
    grind [Subtree.regular, Exp.isPlace, Op.listed]

/-! ### Whole trees -/

/-- Lowering comes to nothing but nodes of the trees. -/
theorem Visits.mem_postorder {n k : Nat} {xs : List Subtree} {pre : List Instr} {x : Subtree}
    (h : Visits n xs pre x k) (hx : x.isHole = false) : ∃ y ∈ xs, x ∈ y.postorder := by
  induction h with
  | here n x rest => exact ⟨x, List.mem_cons_self, Subtree.mem_postorder_self hx⟩
  | @inside _ _ _ y _ _ _ htile _ ih =>
    obtain ⟨part, hpart, hmem⟩ := ih hx
    exact ⟨y, List.mem_cons_self, (covers_of_tile? htile).mem_postorder_of_part hpart hmem⟩
  | after _ _ ih =>
    obtain ⟨y, hy, hmem⟩ := ih hx
    exact ⟨y, List.mem_cons_of_mem _ hy, hmem⟩

/-- All nodes of trees that are lowered are regular. -/
theorem Lowers.regular {n n' : Nat} {xs : List Subtree} {code : List Instr} {regs : List Temp}
    (h : Lowers n xs code regs n') : ∀ x ∈ xs, ∀ y ∈ x.postorder, y.regular = true := by
  induction h with
  | nil n =>
    intro x hx
    cases hx
  | cons htile _ _ ihparts ihrest =>
    intro x hx y hy
    obtain rfl | hx := List.mem_cons.mp hx
    · obtain hregular | ⟨part, hpart, hmem⟩ := (covers_of_tile? htile).regular_or_mem_part hy
      · exact hregular
      · exact ihparts part hpart y hmem
    · exact ihrest x hx y hy

/-- A whole tree has code, or lowering it comes to one of its nodes that is not regular and is refused there. -/
theorem lowers_or_irregular {x : Subtree} (hx : x.whole = true) (n : Nat) :
    ((∀ y ∈ x.postorder, y.regular = true) ∧ ∃ code regs n', Lowers n [x] code regs n') ∨
    ∃ y ∈ x.postorder, y.regular = false ∧ ∃ code n',
      (lowerParts X86.rules.lowerStm X86.rules.lowerExp [x]).Yields n code (.error (.failed (unmatched y))) n' := by
  rcases lowers_or_fails [x] (List.forall_mem_singleton.mpr hx) n with
    ⟨code, regs, n', hlowers⟩ | ⟨code, y, k, hvisits, hy, htile, hfails⟩
  · exact .inl ⟨hlowers.regular x List.mem_cons_self, code, regs, n', hlowers⟩
  · obtain ⟨z, hz, hmem⟩ := hvisits.mem_postorder (Subtree.isHole_of_whole hy)
    obtain rfl := List.mem_singleton.mp hz
    refine .inr ⟨y, hmem, ?_, code, k, hfails⟩
    rw [← Bool.not_eq_true, regular_iff_tile? hy, htile]
    simp

/-! ### Attempts -/

section Attempts

variable {n n' : Nat} {code : List Instr} {why : Refusal}

/-- A statement that is refused leaves the code of the log alone. -/
theorem tileStm_failed {s : Stm} (hs : s.whole = true)
    (h : (lowerParts X86.rules.lowerStm X86.rules.lowerExp [.stm s]).Yields n code (.error (.failed why)) n')
    {log : Log} (hlog : log.session.temps = n) :
    ∃ log', (X86.rules.tileStm s).run.run log = (.error (.failed why), log') ∧ log'.code = log.code := by
  have hhole : Kind.stm.isHole s = false := @Subtree.isHole_of_whole (.stm s) hs
  rw [lowerParts, lowerStmPart, hhole, if_neg Bool.false_ne_true] at h
  obtain ⟨journal, hrun⟩ := h log hlog
  have hlower := run_error_of_bind (fun _ log => ⟨[], log, rfl⟩) hrun
  have hwhy := RuleBook.lowerStm_speaks rules_outspoken s _ _ _ hlower
  exact ⟨_, Selecting.attempt_run_refused hwhy hlower, List.append_nil _⟩

/-- An expression that is refused leaves the code of the log alone. -/
theorem tileExp_failed {e : Exp} (he : e.whole = true)
    (h : (lowerParts X86.rules.lowerStm X86.rules.lowerExp [.exp e]).Yields n code (.error (.failed why)) n')
    {log : Log} (hlog : log.session.temps = n) :
    ∃ log', (X86.rules.tileExp e).run.run log = (.error (.failed why), log') ∧ log'.code = log.code := by
  have hhole : Kind.exp.isHole e = false := @Subtree.isHole_of_whole (.exp e) he
  rw [lowerParts, lowerExpPart, hhole, if_neg Bool.false_ne_true] at h
  obtain ⟨journal, hrun⟩ := h log hlog
  have hlower := run_error_of_bind (fun t log => ⟨[t], log, rfl⟩) hrun
  have hwhy := RuleBook.lowerExp_speaks rules_outspoken e _ _ _ hlower
  exact ⟨_, Selecting.attempt_run_refused hwhy hlower, List.append_nil _⟩

end Attempts

end X86

/-- A tree without holes is lowered exactly if all its nodes are regular. Otherwise it is refused, with the complaint
that no rule fits one of the others, and no code is left in the log. -/
theorem tree_is_lowered_iff_regular :
    (∀ (s : Stm) (log : Log), s.whole = true →
      ((∃ log', (X86.rules.tileStm s).run.run log = (.ok (), log')) ↔ ∀ x ∈ s.postorder, x.regular = true) ∧
      ((¬ ∀ x ∈ s.postorder, x.regular = true) → ∃ x ∈ s.postorder, x.regular = false ∧ ∃ log',
        (X86.rules.tileStm s).run.run log = (.error (.failed (X86.unmatched x)), log') ∧ log'.code = log.code)) ∧
    ∀ (e : Exp) (log : Log), e.whole = true →
      ((∃ t log', (X86.rules.tileExp e).run.run log = (.ok t, log')) ↔ ∀ x ∈ e.postorder, x.regular = true) ∧
      ((¬ ∀ x ∈ e.postorder, x.regular = true) → ∃ x ∈ e.postorder, x.regular = false ∧ ∃ log',
        (X86.rules.tileExp e).run.run log = (.error (.failed (X86.unmatched x)), log') ∧ log'.code = log.code) := by
  constructor
  · intro s log hs
    rcases @X86.lowers_or_irregular (.stm s) hs log.session.temps with
      ⟨hregular, code, regs, n', hlowers⟩ | ⟨x, hx, hirregular, code, n', hfails⟩
    · obtain ⟨journal, hrun⟩ := X86.tileStm_run hlowers log rfl
      exact ⟨iff_of_true ⟨_, hrun⟩ hregular, fun h => absurd hregular h⟩
    · obtain ⟨log', hrun, hcode⟩ := X86.tileStm_failed hs hfails rfl
      refine ⟨iff_of_false ?_ fun h => ?_, fun _ => ⟨x, hx, hirregular, log', hrun, hcode⟩⟩
      · rintro ⟨log'', hok⟩
        cases hok.symm.trans hrun
      · exact absurd (h x hx) (Bool.eq_false_iff.mp hirregular)
  · intro e log he
    rcases @X86.lowers_or_irregular (.exp e) he log.session.temps with
      ⟨hregular, code, regs, n', hlowers⟩ | ⟨x, hx, hirregular, code, n', hfails⟩
    · obtain ⟨t, -, hyields⟩ := X86.tileExp_run hlowers
      obtain ⟨journal, hrun⟩ := hyields log rfl
      exact ⟨iff_of_true ⟨t, _, hrun⟩ hregular, fun h => absurd hregular h⟩
    · obtain ⟨log', hrun, hcode⟩ := X86.tileExp_failed he hfails rfl
      refine ⟨iff_of_false ?_ fun h => ?_, fun _ => ⟨x, hx, hirregular, log', hrun, hcode⟩⟩
      · rintro ⟨t, log'', hok⟩
        cases hok.symm.trans hrun
      · exact absurd (h x hx) (Bool.eq_false_iff.mp hirregular)

/-- A relation off the list, an empty label and a register that was never handed out do no harm to a branch behind a
store. An operator off the list does, far down in an argument, and so does a move to a sum. -/
theorem oddBranch_is_lowered_badArgument_is_not :
    let branch : Stm := .seq (.move (.mem (.bin .minus (.temp ⟨-7⟩) (.const 4))) (.name ""))
      (.cjump (.other 77) (.const 3) (.call (.temp ⟨0⟩) [.const 1, .eseq (.jump (.const 9) []) (.temp ⟨1⟩)]) "" "")
    let shift : Exp := .bin (.other 10) (.const 1) (.const 2)
    let argument : Exp := .mem (.bin .plus (.call (.name "f") [.const 5, .mem shift]) (.const 8))
    let move : Stm := .seq (.label "") (.move (.bin .plus (.temp ⟨1⟩) (.const 4)) (.const 0))
    (branch.whole = true ∧ ∃ log', (X86.rules.tileStm branch).run.run {} = (.ok (), log')) ∧
    (argument.whole = true ∧ ∃ log',
      (X86.rules.tileExp argument).run.run {} = (.error (.failed (X86.unmatched (.exp shift))), log')) ∧
    move.whole = true ∧ ¬ ∃ log', (X86.rules.tileStm move).run.run {} = (.ok (), log') := by
  intro branch shift argument move
  refine ⟨⟨by decide, (tree_is_lowered_iff_regular.1 branch {} (by decide)).1.mpr (by decide)⟩, ⟨by decide, ?_⟩,
    by decide, ?_⟩
  · obtain ⟨x, hx, hirregular, log', hrun, -⟩ := (tree_is_lowered_iff_regular.2 argument {} (by decide)).2 (by decide)
    have honly : argument.postorder.filter (!·.regular) = [.exp shift] := rfl
    have hmem : x ∈ argument.postorder.filter (!·.regular) := List.mem_filter.mpr ⟨hx, by rw [hirregular]; rfl⟩
    rw [honly] at hmem
    obtain rfl := List.mem_singleton.mp hmem
    exact ⟨log', hrun⟩
  · rw [(tree_is_lowered_iff_regular.1 move {} (by decide)).1]
    decide

end Lowering
