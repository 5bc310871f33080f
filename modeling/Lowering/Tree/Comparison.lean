import Lowering.Tree.Basic

/-!
# Comparing trees

Two trees are compared part by part, from left to right, up to the first difference. Calls and jumps hold
lists, and lists are not compared: where the comparison meets two calls or two jumps in the same place, it is
a fault, whatever they hold.
-/

namespace Lowering

/-- Goes on with a comparison if the one before it found no difference. -/
def andThen (first : Except Fault Bool) (second : Except Fault Bool) : Except Fault Bool :=
  match first with
  | .ok true => second
  | other => other

mutual

/-- Do two statements agree? -/
def Stm.agrees : Stm → Stm → Except Fault Bool
  | .hole, .hole => .ok true
  | .move d s, .move d' s' => andThen (d.agrees d') (s.agrees s')
  | .exp e, .exp e' => e.agrees e'
  | .label l, .label l' => .ok (l == l')
  | .seq a b, .seq a' b' => andThen (a.agrees a') (b.agrees b')
  | .jump .., .jump .. => .error .incomparable
  | .cjump o l r t f, .cjump o' l' r' t' f' =>
    andThen (.ok (o == o')) (andThen (l.agrees l') (andThen (r.agrees r') (.ok (t == t' && f == f'))))
  | _, _ => .ok false

/-- Do two expressions agree? -/
def Exp.agrees : Exp → Exp → Except Fault Bool
  | .hole, .hole => .ok true
  | .const v, .const v' => .ok (v == v')
  | .temp t, .temp t' => .ok (t == t')
  | .bin o l r, .bin o' l' r' => andThen (.ok (o == o')) (andThen (l.agrees l') (r.agrees r'))
  | .mem a, .mem a' => a.agrees a'
  | .call .., .call .. => .error .incomparable
  | .name l, .name l' => .ok (l == l')
  | .eseq s e, .eseq s' e' => andThen (s.agrees s') (e.agrees e')
  | _, _ => .ok false

end

end Lowering
