import Lowering.Temp
import Lowering.Tree.Op

/-!
# Trees

The intermediate language has statements, which act, and expressions, which yield a word. A tree may have
holes where nothing was put in: the empty sequence is one, and no rule of a target lowers one.
-/

namespace Lowering

/-- A machine word. -/
abbrev Word := BitVec 32

mutual

/-- A statement. -/
inductive Stm where
  /-- The place of a statement that is missing. -/
  | hole
  | move (dst src : Exp)
  /-- Evaluates an expression and drops its value. -/
  | exp (e : Exp)
  | label (name : Label)
  | seq (first second : Stm)
  /-- Goes to the address that `target` yields, one of the `labels`. -/
  | jump (target : Exp) (labels : List Label)
  | cjump (rel : Rel) (left right : Exp) (ifTrue ifFalse : Label)

/-- An expression. -/
inductive Exp where
  /-- The place of an expression that is missing. -/
  | hole
  | const (value : Word)
  | temp (reg : Temp)
  | bin (op : Op) (left right : Exp)
  /-- The word in memory at an address. -/
  | mem (addr : Exp)
  | call (func : Exp) (args : List Exp)
  /-- The address of a label. -/
  | name (label : Label)
  /-- Runs a statement, then yields the expression. -/
  | eseq (s : Stm) (e : Exp)

end

instance : Inhabited Stm := ⟨.hole⟩

instance : Inhabited Exp := ⟨.hole⟩

/-! ### Size -/

mutual

/-- The number of nodes of a statement. -/
def Stm.size : Stm → Nat
  | .hole => 1
  | .move dst src => dst.size + src.size + 1
  | .exp e => e.size + 1
  | .label _ => 1
  | .seq first second => first.size + second.size + 1
  | .jump target _ => target.size + 1
  | .cjump _ left right _ _ => left.size + right.size + 1

/-- The number of nodes of an expression. -/
def Exp.size : Exp → Nat
  | .hole => 1
  | .const _ => 1
  | .temp _ => 1
  | .bin _ left right => left.size + right.size + 1
  | .mem addr => addr.size + 1
  | .call func args => func.size + Exp.sizeAll args + 1
  | .name _ => 1
  | .eseq s e => s.size + e.size + 1

/-- The number of nodes of a list of expressions. -/
def Exp.sizeAll : List Exp → Nat
  | [] => 0
  | e :: es => e.size + Exp.sizeAll es

end

/-! ### Equality -/

mutual

/-- Do two statements agree node by node? -/
def Stm.same : Stm → Stm → Bool
  | .hole, .hole => true
  | .move d s, .move d' s' => d.same d' && s.same s'
  | .exp e, .exp e' => e.same e'
  | .label l, .label l' => l == l'
  | .seq a b, .seq a' b' => a.same a' && b.same b'
  | .jump t ls, .jump t' ls' => t.same t' && ls == ls'
  | .cjump o l r t f, .cjump o' l' r' t' f' =>
    o == o' && l.same l' && r.same r' && t == t' && f == f'
  | _, _ => false

/-- Do two expressions agree node by node? -/
def Exp.same : Exp → Exp → Bool
  | .hole, .hole => true
  | .const v, .const v' => v == v'
  | .temp t, .temp t' => t == t'
  | .bin o l r, .bin o' l' r' => o == o' && l.same l' && r.same r'
  | .mem a, .mem a' => a.same a'
  | .call f as, .call f' as' => f.same f' && Exp.sameAll as as'
  | .name l, .name l' => l == l'
  | .eseq s e, .eseq s' e' => s.same s' && e.same e'
  | _, _ => false

/-- Do two lists of expressions agree node by node? -/
def Exp.sameAll : List Exp → List Exp → Bool
  | [], [] => true
  | e :: es, e' :: es' => e.same e' && Exp.sameAll es es'
  | _, _ => false

end

mutual

theorem Stm.same_iff : (a b : Stm) → (a.same b = true ↔ a = b)
  | .hole, b => by cases b <;> simp [Stm.same]
  | .move d s, b => by cases b <;> simp [Stm.same, Exp.same_iff d, Exp.same_iff s]
  | .exp e, b => by cases b <;> simp [Stm.same, Exp.same_iff e]
  | .label l, b => by cases b <;> simp [Stm.same]
  | .seq f s, b => by cases b <;> simp [Stm.same, Stm.same_iff f, Stm.same_iff s]
  | .jump t ls, b => by cases b <;> simp [Stm.same, Exp.same_iff t]
  | .cjump o l r t f, b => by cases b <;> simp [Stm.same, Exp.same_iff l, Exp.same_iff r, and_assoc]

theorem Exp.same_iff : (a b : Exp) → (a.same b = true ↔ a = b)
  | .hole, b => by cases b <;> simp [Exp.same]
  | .const v, b => by cases b <;> simp [Exp.same]
  | .temp t, b => by cases b <;> simp [Exp.same]
  | .bin o l r, b => by cases b <;> simp [Exp.same, Exp.same_iff l, Exp.same_iff r, and_assoc]
  | .mem a, b => by cases b <;> simp [Exp.same, Exp.same_iff a]
  | .call f as, b => by cases b <;> simp [Exp.same, Exp.same_iff f, Exp.sameAll_iff as]
  | .name l, b => by cases b <;> simp [Exp.same]
  | .eseq s e, b => by cases b <;> simp [Exp.same, Stm.same_iff s, Exp.same_iff e]

theorem Exp.sameAll_iff : (as bs : List Exp) → (Exp.sameAll as bs = true ↔ as = bs)
  | [], bs => by cases bs <;> simp [Exp.sameAll]
  | e :: es, bs => by cases bs <;> simp [Exp.sameAll, Exp.same_iff e, Exp.sameAll_iff es]

end

instance : DecidableEq Stm := fun a b => decidable_of_iff _ (Stm.same_iff a b)

instance : DecidableEq Exp := fun a b => decidable_of_iff _ (Exp.same_iff a b)

/-! ### Building trees -/

namespace Stm

/-- Runs statements from left to right; holes are left out. -/
def seqs : List Stm → Stm
  | [] => .hole
  | s :: rest =>
    match s, seqs rest with
    | .hole, r => r
    | s, .hole => s
    | s, r => .seq s r

/-- Goes to a label. -/
def goto (l : Label) : Stm := .jump (.name l) [l]

end Stm

end Lowering
