import Lowering.Tree.Comparison
import Lowering.Tree.Printer

/-!
# Kinds

Patterns describe statements and expressions, and also the parts that these hold: words, registers,
labels, lists, operators and relations. A kind says which of these a pattern describes.
-/

namespace Lowering

/-- The kind of thing that a pattern describes. -/
inductive Kind where
  | stm
  | exp
  | word
  | temp
  | label
  | labels
  | exps
  | op
  | rel
  deriving DecidableEq, Repr

namespace Kind

/-- The things of a kind. -/
abbrev Value : Kind → Type
  | .stm => Stm
  | .exp => Exp
  | .word => Word
  | .temp => Temp
  | .label => Label
  | .labels => List Label
  | .exps => List Exp
  | .op => Op
  | .rel => Rel

/-- Do two things of a kind agree? Lists are not compared. -/
def agrees : (k : Kind) → k.Value → k.Value → Except Fault Bool
  | .stm, a, b => Stm.agrees a b
  | .exp, a, b => Exp.agrees a b
  | .word, a, b => .ok (a == b)
  | .temp, a, b => .ok (a == b)
  | .label, a, b => .ok (a == b)
  | .labels, _, _ => .error .incomparable
  | .exps, _, _ => .error .incomparable
  | .op, a, b => .ok (a == b)
  | .rel, a, b => .ok (a == b)

/-- Is the value a hole? Only statements and expressions can be missing. -/
def isHole : (k : Kind) → k.Value → Bool
  | .stm, .hole => true
  | .exp, .hole => true
  | _, _ => false

/-- The name of a kind in messages. -/
def text : Kind → Text
  | .stm | .exp => "<nil>"
  | .word => "int32"
  | .temp => "temp.Temp"
  | .label => "temp.Label"
  | .labels => "[]temp.Label"
  | .exps => "[]tree.Exp"
  | .op => "tree.Op"
  | .rel => "tree.RelOp"

end Kind

end Lowering
