import Lowering.Proofs.Tiling.Derivation

/-!
# Coverage

Which trees the tiles cover, and what selection does with them. A tree is covered if its moves go to registers
or memory, its operators are on the list and nothing is missing, except that the statement of a sequence
expression may be. Such a gap is met only when the action of its rule reads it, and reading it is a fault;
selection of a covered tree without a gap always succeeds.
-/

namespace Lowering

/-- Can the expression be the destination of a move? -/
def Exp.isPlace : Exp → Bool
  | .temp _ | .mem _ => true
  | _ => false

mutual

/-- Are all moves to registers or memory, all operators on the list and all parts there, statements of
sequence expressions apart? -/
def Stm.covered : Stm → Bool
  | .hole => false
  | .move dst src => dst.isPlace && dst.covered && src.covered
  | .exp e => e.covered
  | .label _ => true
  | .seq first second => first.covered && second.covered
  | .jump target _ => target.covered
  | .cjump _ left right _ _ => left.covered && right.covered

@[inherit_doc Stm.covered]
def Exp.covered : Exp → Bool
  | .hole => false
  | .const _ => true
  | .temp _ => true
  | .bin op left right => decide (op ∈ Op.listed) && left.covered && right.covered
  | .mem addr => addr.covered
  | .call func args => func.covered && Exp.coveredAll args
  | .name _ => true
  | .eseq s e => (Kind.stm.isHole s || s.covered) && e.covered

@[inherit_doc Stm.covered]
def Exp.coveredAll : List Exp → Bool
  | [] => true
  | e :: es => e.covered && Exp.coveredAll es

end

mutual

/-- Is the statement of a sequence expression missing? -/
def Stm.hasGap : Stm → Bool
  | .hole => false
  | .move dst src => dst.hasGap || src.hasGap
  | .exp e => e.hasGap
  | .label _ => false
  | .seq first second => first.hasGap || second.hasGap
  | .jump target _ => target.hasGap
  | .cjump _ left right _ _ => left.hasGap || right.hasGap

@[inherit_doc Stm.hasGap]
def Exp.hasGap : Exp → Bool
  | .hole => false
  | .const _ => false
  | .temp _ => false
  | .bin _ left right => left.hasGap || right.hasGap
  | .mem addr => addr.hasGap
  | .call func args => func.hasGap || Exp.hasGapAny args
  | .name _ => false
  | .eseq s e => Kind.stm.isHole s || s.hasGap || e.hasGap

@[inherit_doc Stm.hasGap]
def Exp.hasGapAny : List Exp → Bool
  | [] => false
  | e :: es => e.hasGap || Exp.hasGapAny es

end

namespace Subtree

/-- Is the tree covered? -/
def covered : Subtree → Bool
  | .stm s => s.covered
  | .exp e => e.covered

/-- Does the tree have a gap? -/
def hasGap : Subtree → Bool
  | .stm s => s.hasGap
  | .exp e => e.hasGap

/-- A tree that lowering a covered one can come to. -/
def Passable (x : Subtree) : Prop := x = .stm .hole ∨ x.covered = true

/-- A tree that lowering will fail on. -/
def Faulty (x : Subtree) : Prop := x = .stm .hole ∨ x.hasGap = true

@[simp] theorem passable_stm {s : Stm} : (Subtree.stm s).Passable ↔ s = .hole ∨ s.covered = true := by
  simp [Passable, covered]

@[simp] theorem passable_exp {e : Exp} : (Subtree.exp e).Passable ↔ e.covered = true := by
  simp [Passable, covered]

@[simp] theorem faulty_stm {s : Stm} : (Subtree.stm s).Faulty ↔ s = .hole ∨ s.hasGap = true := by
  simp [Faulty, hasGap]

@[simp] theorem faulty_exp {e : Exp} : (Subtree.exp e).Faulty ↔ e.hasGap = true := by
  simp [Faulty, hasGap]

end Subtree

theorem Exp.coveredAll_iff {args : List Exp} : Exp.coveredAll args = true ↔ ∀ e ∈ args, e.covered = true := by
  induction args with
  | nil => simp [Exp.coveredAll]
  | cons e rest ih => simp [Exp.coveredAll, ih]

theorem Exp.hasGapAny_iff {args : List Exp} : Exp.hasGapAny args = true ↔ ∃ e ∈ args, e.hasGap = true := by
  induction args with
  | nil => simp [Exp.hasGapAny]
  | cons e rest ih => simp [Exp.hasGapAny, ih]

theorem Exp.hole_not_mem_of_coveredAll {args : List Exp} (hargs : Exp.coveredAll args = true) : Exp.hole ∉ args :=
  fun hmem => Bool.noConfusion (Exp.coveredAll_iff.mp hargs _ hmem)

namespace X86

theorem tile?_of_covered {x : Subtree} (hx : x.covered = true) : ∃ tile, tile? x = some tile := by
  cases x with
  | stm s =>
    cases s with
    | hole => cases hx
    | move dst src =>
      cases dst with
      | temp t => exact ⟨_, rfl⟩
      | mem addr => exact ⟨_, rfl⟩
      | _ => cases hx
    | jump target labels => cases target <;> exact ⟨_, rfl⟩
    | _ => exact ⟨_, rfl⟩
  | exp e =>
    cases e with
    | hole => cases hx
    | bin op left right =>
      cases op with
      | other n => simp [Subtree.covered, Exp.covered, Op.listed] at hx
      | _ => exact ⟨_, rfl⟩
    | call func args => cases func <;> exact ⟨_, rfl⟩
    | _ => exact ⟨_, rfl⟩

theorem mem_registerArgs_or_const {args : List Exp} {e : Exp} (he : e ∈ args) :
    e ∈ registerArgs args ∨ ∃ i, e = .const i := by
  cases hconst : constOf? e with
  | some i => exact .inr ⟨i, eq_const_of_constOf? hconst⟩
  | none => exact .inl (List.mem_filter.mpr ⟨he, by rw [hconst]; rfl⟩)

theorem mem_of_mem_registerArgs {args : List Exp} {e : Exp} (he : e ∈ registerArgs args) : e ∈ args :=
  (List.mem_filter.mp he).1

theorem isHole_stm_iff {s : Stm} : Kind.stm.isHole s = true ↔ s = .hole := by
  cases s <;> simp [Kind.isHole]

theorem Covers.passable_parts {x : Subtree} {tile : Tile} (hcovers : Covers x tile) (hx : x.covered = true) :
    ∀ y ∈ tile.parts, y.Passable := by
  have hargs (args : List Exp) (h : Exp.coveredAll args = true) :
      ∀ y ∈ (registerArgs args).map Subtree.exp, y.Passable := by
    intro y hy
    obtain ⟨e, he, rfl⟩ := List.mem_map.mp hy
    exact Subtree.passable_exp.mpr (Exp.coveredAll_iff.mp h e (mem_of_mem_registerArgs he))
  cases hcovers with
  | call l args =>
    simp only [Subtree.covered, Exp.covered, Bool.true_and] at hx
    exact hargs args hx
  | callReg func args =>
    simp only [Subtree.covered, Exp.covered, Bool.and_eq_true] at hx
    exact List.forall_mem_cons.mpr ⟨Subtree.passable_exp.mpr hx.1, hargs args hx.2⟩
  | _ => simp_all [Tile.parts, Subtree.covered, Stm.covered, Exp.covered, isHole_stm_iff]

theorem hasGapAny_registerArgs (args : List Exp) :
    Exp.hasGapAny args = true ↔ ∃ y ∈ (registerArgs args).map Subtree.exp, y.Faulty := by
  rw [Exp.hasGapAny_iff]
  constructor
  · rintro ⟨e, he, hgap⟩
    obtain he | ⟨i, rfl⟩ := mem_registerArgs_or_const he
    · exact ⟨.exp e, List.mem_map_of_mem he, Subtree.faulty_exp.mpr hgap⟩
    · cases hgap
  · rintro ⟨y, hy, hgap⟩
    obtain ⟨e, he, rfl⟩ := List.mem_map.mp hy
    exact ⟨e, mem_of_mem_registerArgs he, Subtree.faulty_exp.mp hgap⟩

/-- A gap of a tree is a gap of one of the parts that its tile has lowered. -/
theorem Covers.hasGap_iff {x : Subtree} {tile : Tile} (hcovers : Covers x tile) (hx : x.covered = true) :
    x.hasGap = true ↔ ∃ y ∈ tile.parts, y.Faulty := by
  cases hcovers with
  | seq first second =>
    -- A sequence that is covered has both its statements.
    have hfirst : first ≠ .hole := by
      rintro rfl
      cases hx
    have hsecond : second ≠ .hole := by
      rintro rfl
      simp [Subtree.covered, Stm.covered] at hx
    simp [Tile.parts, Subtree.hasGap, Stm.hasGap, hfirst, hsecond]
  | call l args =>
    change (false || Exp.hasGapAny args) = true ↔ _
    rw [Bool.false_or]
    exact hasGapAny_registerArgs args
  | callReg func args =>
    simp only [Tile.parts, List.mem_cons, or_and_right, exists_or, exists_eq_left, ← hasGapAny_registerArgs]
    simp [Subtree.hasGap, Exp.hasGap]
  | _ => simp [Tile.parts, Subtree.hasGap, Stm.hasGap, Exp.hasGap, isHole_stm_iff, or_assoc]

theorem not_faulty_of_tile? {x : Subtree} {tile : Tile} (htile : tile? x = some tile) (hx : x.covered = true)
    (hparts : ∀ y ∈ tile.parts, ¬ y.Faulty) : ¬ x.Faulty := by
  rintro (rfl | hgap)
  · cases htile
  · obtain ⟨y, hy, hfaulty⟩ := ((covers_of_tile? htile).hasGap_iff hx).mp hgap
    exact hparts y hy hfaulty

/-- Selection of trees that are covered succeeds, or meets a gap. -/
theorem lowers_or_faults [S : Supply] (xs : List Subtree) (hxs : ∀ x ∈ xs, x.Passable) (n : Nat) :
    ((∀ x ∈ xs, ¬ x.Faulty) ∧ ∃ code regs n', Lowers n xs code regs n') ∨
    ((∃ x ∈ xs, x.Faulty) ∧ ∃ code n',
      (lowerParts X86.rules.lowerStm X86.rules.lowerExp xs).Yields n code (.error (.fault .holeRead)) n') := by
  induction hsize : Subtree.sizeAll xs using Nat.strongRecOn generalizing xs n with
  | ind size ih =>
    cases xs with
    | nil => exact .inl ⟨List.forall_mem_nil _, [], [], n, .nil n⟩
    | cons x rest =>
      obtain ⟨hx, hrest⟩ := List.forall_mem_cons.mp hxs
      rw [Subtree.sizeAll] at hsize
      obtain rfl | hx := hx
      · exact .inr ⟨⟨_, List.mem_cons_self .., .inl rfl⟩, [], n, (Selecting.Yields.throw _ n).bind_error⟩
      · obtain ⟨tile, htile⟩ := tile?_of_covered hx
        have hcovers := covers_of_tile? htile
        have hparts := hcovers.sizeAll_parts
        have hholes (e : Exp) (he : x = .exp e) (func : Exp) (args : List Exp) (hcall : e = .call func args) :
            Exp.hole ∉ args := by
          subst he hcall
          simp only [Subtree.covered, Exp.covered, Bool.and_eq_true] at hx
          exact Exp.hole_not_mem_of_coveredAll hx.2
        obtain ⟨hgood, code, regs, n₁, hlowers⟩ | ⟨hbad, code, n₁, hfails⟩ :=
          ih _ (by omega) tile.parts (hcovers.passable_parts hx) n rfl
        · have hx' := not_faulty_of_tile? htile hx hgood
          obtain ⟨hgood', code', regs', n₂, hlowers'⟩ | ⟨⟨y, hy, hbad⟩, code', n₂, hfails⟩ :=
            ih (Subtree.sizeAll rest) (by omega) rest hrest (tile.next n₁) rfl
          · exact .inl ⟨List.forall_mem_cons.mpr ⟨hx', hgood'⟩, _, _, _, .cons htile hlowers hlowers'⟩
          · refine .inr ⟨⟨y, List.mem_cons_of_mem x hy, hbad⟩,
              code ++ tile.block regs (tile.fresh n₁) ++ code', n₂, ?_⟩
            cases x with
            | stm s => exact (lowerStm_yields hlowers.sound htile).bind hfails
            | exp e => exact (lowerExp_yields hlowers.sound htile (hholes e rfl)).bind hfails.bind_error
        · refine .inr ⟨⟨x, List.mem_cons_self .., .inr ((hcovers.hasGap_iff hx).mpr hbad)⟩, code, n₁, ?_⟩
          cases x with
          | stm s => exact (lowerStm_yields_error hfails htile).bind_error
          | exp e => exact (lowerExp_yields_error hfails htile (hholes e rfl)).bind_error

/-- Every covered tree without a gap has code. -/
theorem lowers_of_covered [S : Supply] {x : Subtree} (hx : x.covered = true) (hgap : x.hasGap = false) (n : Nat) :
    ∃ code regs n', Lowers n [x] code regs n' := by
  have hne : x ≠ .stm .hole := by
    rintro rfl
    cases hx
  obtain ⟨-, hlowers⟩ | ⟨⟨y, hy, hfaulty⟩, -⟩ :=
    lowers_or_faults [x] (List.forall_mem_singleton.mpr (.inr hx)) n
  · exact hlowers
  · obtain rfl := List.mem_singleton.mp hy
    obtain rfl | hgap' := hfaulty
    · exact absurd rfl hne
    · rw [hgap] at hgap'
      cases hgap'

/-- Selection of a covered statement with a gap meets the gap. -/
theorem tileStm_faults [S : Supply] {s : Stm} (hs : s.covered = true) (hgap : s.hasGap = true) (n : Nat) :
    ∃ code n', (X86.rules.tileStm s).Yields n code (.error (.fault .holeRead)) n' := by
  obtain ⟨tile, htile⟩ := @tile?_of_covered (.stm s) hs
  have hcovers := covers_of_tile? htile
  obtain ⟨hgood, -⟩ | ⟨-, code, n', hfails⟩ := lowers_or_faults tile.parts (hcovers.passable_parts hs) n
  · exact absurd (.inr hgap) (not_faulty_of_tile? htile hs hgood)
  · have hlower := lowerStm_yields_error hfails htile
    have hhole : Kind.stm.isHole s = false := isHole_of_tile? htile
    rw [lowerStmPart, hhole, if_neg Bool.false_ne_true] at hlower
    refine ⟨code, n', hlower.attempt ?_⟩
    intro why hfailed
    cases hfailed

end X86

end Lowering
