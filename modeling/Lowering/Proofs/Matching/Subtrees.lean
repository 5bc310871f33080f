import Lowering.Proofs.Matching.Instances
import Lowering.Proofs.Tiling.Tile

/-!
# Captured trees are proper subtrees

A pattern that is more than a wildcard looks at the root of what it fits and leaves only what is below the root to its
wildcards. So every tree among its captures stands properly below the node, and so does every element of a captured
list. Literals may be of any kind here, and a wildcard may occur more than once: what its last occurrence takes is below
the node as well.
-/

namespace Lowering

/-! ### Subtrees -/

/-- The trees of a thing: a statement or an expression is one, and a list of expressions has its elements. -/
def Part.trees : Part → List Subtree
  | ⟨.stm, s⟩ => [.stm s]
  | ⟨.exp, e⟩ => [.exp e]
  | ⟨.exps, es⟩ => es.map .exp
  | _ => []

/-- The tree or the list of trees, if it is one, that a wildcard stood for. -/
def Capture.trees (c : Capture) : List Subtree := (Part.mk c.kind c.value).trees

theorem Exp.size_le_sizeAll {e : Exp} {es : List Exp} (he : e ∈ es) : e.size ≤ Exp.sizeAll es := by
  induction es with
  | nil => cases he
  | cons x rest ih =>
    rw [Exp.sizeAll]
    obtain rfl | he := List.mem_cons.mp he
    · exact Nat.le_add_right ..
    · exact Nat.le_trans (ih he) (Nat.le_add_left ..)

namespace Subtree

/-- A tree as a thing. -/
def part : Subtree → Part
  | .stm s => ⟨.stm, s⟩
  | .exp e => ⟨.exp, e⟩

/-- The trees right below the root. -/
def children (x : Subtree) : List Subtree := x.part.parts.flatMap Part.trees

/-- The tree `x` is a proper subtree of `y`. -/
def Below (x y : Subtree) : Prop := Relation.TransGen (fun a b => a ∈ b.children) x y

theorem size_lt_of_mem_children {x y : Subtree} (h : x ∈ y.children) : x.size < y.size := by
  have hargs {args : List Exp} (hx : x ∈ args.map Subtree.exp) : x.size ≤ Exp.sizeAll args := by
    obtain ⟨e, he, rfl⟩ := List.mem_map.mp hx
    exact Exp.size_le_sizeAll he
  rw [children] at h
  rcases y with s | e
  · cases s <;> simp [part, Part.parts, Stm.parts, Part.trees] at h <;> grind [size, Stm.size]
  · cases e <;> simp [part, Part.parts, Exp.parts, Part.trees] at h <;> grind [size, Exp.size]

theorem Below.size_lt {x y : Subtree} (h : x.Below y) : x.size < y.size := by
  induction h with
  | single h => exact size_lt_of_mem_children h
  | tail _ h ih => exact Nat.lt_trans ih (size_lt_of_mem_children h)

end Subtree

namespace Part

/-- The tree stands properly below a tree of the thing. -/
def Beneath (v : Part) (x : Subtree) : Prop := ∃ y ∈ v.trees, x.Below y

/-- What is at or below a part of a node stands properly below the node. -/
theorem beneath_of_part {v q : Part} (hq : q ∈ v.parts) {x : Subtree} (hx : x ∈ q.trees ∨ q.Beneath x) :
    v.Beneath x := by
  have hchild (root y : Subtree) (hroot : root.part = v) (hy : y ∈ q.trees) : y ∈ root.children :=
    List.mem_flatMap.mpr ⟨q, hroot ▸ hq, hy⟩
  have hroot (root : Subtree) (hroot : root.part = v) : x.Below root := by
    obtain hx | ⟨y, hy, hbelow⟩ := hx
    · exact .single (hchild root x hroot hx)
    · exact hbelow.tail (hchild root y hroot hy)
  obtain ⟨kind, value⟩ := v
  cases kind with
  | stm => exact ⟨_, List.mem_singleton_self _, hroot (.stm value) rfl⟩
  | exp => exact ⟨_, List.mem_singleton_self _, hroot (.exp value) rfl⟩
  | _ => cases hq

end Part

/-! ### Captures -/

/-- The step of matching captures only things whose trees have the property. -/
def CapturesOnly (P : Subtree → Prop) (step : Captures → Except (Stop Misfit) Captures) : Prop :=
  ∀ cs cs', step cs = .ok cs' → ∀ c ∈ cs', c ∈ cs ∨ ∀ x ∈ c.trees, P x

namespace CapturesOnly

variable {P Q : Subtree → Prop} {a b : Captures → Except (Stop Misfit) Captures}

theorem mono (h : CapturesOnly P a) (hPQ : ∀ x, P x → Q x) : CapturesOnly Q a :=
  fun cs cs' hok c hc => (h cs cs' hok c hc).imp_right fun hx x hmem => hPQ x (hx x hmem)

theorem append (ha : CapturesOnly P a) (hb : CapturesOnly P b) : CapturesOnly P fun cs => (a cs).bind b := by
  intro cs cs' hok c hc
  have hok : (a cs).bind b = .ok cs' := hok
  cases hcs : a cs with
  | error why =>
    rw [hcs] at hok
    cases hok
  | ok cs₁ =>
    rw [hcs] at hok
    obtain hc | hc := hb cs₁ cs' hok c hc
    · exact ha cs cs₁ hcs c hc
    · exact .inr hc

end CapturesOnly

theorem Captures.mem_of_mem_bind {k : Kind} {w : Wildcard k} {v : k.Value} {cs : Captures} {c : Capture}
    (h : c ∈ cs.bind w v) : c ∈ cs ∨ c = ⟨w.slot, k, v⟩ := by
  fun_induction Captures.bind w v cs with
  | case1 => exact .inr (List.mem_singleton.mp h)
  | case2 d rest hlt =>
    obtain rfl | h := List.mem_cons.mp h
    · exact .inr rfl
    · exact .inl h
  | case3 d rest hle heq =>
    obtain rfl | h := List.mem_cons.mp h
    · exact .inr rfl
    · exact .inl (List.mem_cons_of_mem _ h)
  | case4 d rest hle hne ih =>
    obtain rfl | h := List.mem_cons.mp h
    · exact .inl List.mem_cons_self
    · exact (ih h).imp_left (List.mem_cons_of_mem _)

/-- What a pattern may capture of a thing: all of it if the pattern is a wildcard, else what is properly below. -/
def Pattern.MayTake {k : Kind} (p : Pattern k) (v : k.Value) (x : Subtree) : Prop :=
  (∃ w, p = .wild w) ∧ x ∈ (Part.mk k v).trees ∨ (Part.mk k v).Beneath x

/-- What is captured of part `i` of a node is properly below the node. -/
theorem CapturesOnly.under {j k : Kind} {q : Pattern j} {u : j.Value} {p : Pattern k} {v : k.Value}
    {step : Captures → Except (Stop Misfit) Captures} (h : CapturesOnly (q.MayTake u) step) (i : Nat)
    (hpart : (Part.mk k v).parts[i]? = some ⟨j, u⟩) : CapturesOnly (p.MayTake v) step :=
  h.mono fun _ hx => .inr (Part.beneath_of_part (List.mem_of_getElem? hpart) (hx.imp_left And.right))

namespace Pattern

theorem capturesOnly_fitFrom {k : Kind} (p : Pattern k) (v : k.Value) :
    CapturesOnly (p.MayTake v) (p.fitFrom v) := by
  have hmisfit {P : Subtree → Prop} {why : Stop Misfit} : CapturesOnly P fun _ => .error why :=
    fun _ _ hok => by cases hok
  -- A shape hands the parts of the node on from left to right, and what is captured of a part is below the node.
  induction p with
  | any =>
    intro cs cs' hok c hc
    cases hok
    exact .inl hc
  | wild w =>
    intro cs cs' hok c hc
    cases hok
    refine (Captures.mem_of_mem_bind hc).imp_right ?_
    rintro rfl x hx
    exact .inl ⟨⟨w, rfl⟩, hx⟩
  | lit u =>
    intro cs cs' hok c hc
    rw [fitFrom, fitLiteral] at hok
    split at hok <;> cases hok
    exact .inl hc
  | move d s ihd ihs =>
    cases v with
    | move dst src => exact ((ihd dst).under 0 rfl).append ((ihs src).under 1 rfl)
    | _ => exact hmisfit
  | exp e ih =>
    cases v with
    | exp x => exact (ih x).under 0 rfl
    | _ => exact hmisfit
  | label l ih =>
    cases v with
    | label x => exact (ih x).under 0 rfl
    | _ => exact hmisfit
  | seq a b iha ihb =>
    cases v with
    | seq first second => exact ((iha first).under 0 rfl).append ((ihb second).under 1 rfl)
    | _ => exact hmisfit
  | jump t ls iht ihls =>
    cases v with
    | jump target labels => exact ((iht target).under 0 rfl).append ((ihls labels).under 1 rfl)
    | _ => exact hmisfit
  | cjump o l r t f iho ihl ihr iht ihf =>
    cases v with
    | cjump rel left right ifTrue ifFalse =>
      exact ((iho rel).under 0 rfl).append (((ihl left).under 1 rfl).append (((ihr right).under 2 rfl).append
        (((iht ifTrue).under 3 rfl).append ((ihf ifFalse).under 4 rfl))))
    | _ => exact hmisfit
  | const c ih =>
    cases v with
    | const value => exact (ih value).under 0 rfl
    | _ => exact hmisfit
  | temp t ih =>
    cases v with
    | temp reg => exact (ih reg).under 0 rfl
    | _ => exact hmisfit
  | bin o l r iho ihl ihr =>
    cases v with
    | bin op left right =>
      exact ((iho op).under 0 rfl).append (((ihl left).under 1 rfl).append ((ihr right).under 2 rfl))
    | _ => exact hmisfit
  | mem a ih =>
    cases v with
    | mem addr => exact (ih addr).under 0 rfl
    | _ => exact hmisfit
  | call f as ihf ihas =>
    cases v with
    | call func args => exact ((ihf func).under 0 rfl).append ((ihas args).under 1 rfl)
    | _ => exact hmisfit
  | name l ih =>
    cases v with
    | name x => exact (ih x).under 0 rfl
    | _ => exact hmisfit
  | eseq s e ihs ihe =>
    cases v with
    | eseq x y => exact ((ihs x).under 0 rfl).append ((ihe y).under 1 rfl)
    | _ => exact hmisfit

/-- The trees that a pattern captures stand properly below what it fits, unless the pattern is a mere wildcard. -/
theorem beneath_of_fit {k : Kind} {p : Pattern k} (hp : ∀ w, p ≠ .wild w) {v : k.Value} {cs : Captures}
    (hfit : p.fit v = .ok cs) {c : Capture} (hc : c ∈ cs) {x : Subtree} (hx : x ∈ c.trees) :
    (Part.mk k v).Beneath x := by
  obtain hc | htrees := capturesOnly_fitFrom p v [] cs hfit c hc
  · cases hc
  · obtain ⟨⟨w, hw⟩, -⟩ | hbeneath := htrees x hx
    · exact absurd hw (hp w)
    · exact hbeneath

end Pattern

end Lowering
