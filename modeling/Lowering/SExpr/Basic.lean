import Lowering.Text.Basic

/-!
# S-expressions

An expression is a word, an integer or a list of expressions in parentheses, and knows the span of the
source it was read from. A document is the sequence of the lists of a source.
-/

namespace Lowering

/-- A stretch of the source, from `start` up to but not including `stop`. -/
structure Span where
  start : Nat
  stop : Nat
  deriving DecidableEq, Repr

/-- An expression with the span it was read from. -/
inductive SExpr where
  | atom (span : Span) (text : Text)
  | int (span : Span) (value : Int)
  | list (span : Span) (items : List SExpr)

namespace SExpr

/-- The span of an expression. -/
def span : SExpr → Span
  | .atom span _ => span
  | .int span _ => span
  | .list span _ => span

end SExpr

/-- The word at the head of a list, empty if there is none. -/
def headOf : List SExpr → Text
  | .atom _ text :: _ => text
  | _ => []

/-- What follows the head of a list. -/
def argsOf (items : List SExpr) : List SExpr := items.tail

/-- The lists of a source, in order. -/
structure Document where
  span : Span
  forms : List SExpr

/-- What a grammar reads: one expression or a whole document. -/
inductive Node where
  | expr (e : SExpr)
  | document (d : Document)

end Lowering
