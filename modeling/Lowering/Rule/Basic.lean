import Lowering.Pattern.Basic
import Lowering.Rule.Action

/-!
# Rules

A rule couples a pattern with the action for the nodes that fit it. A rule set is an ordered list of rules,
and the first rule that fits a node is chosen for it, so the rules with larger patterns go first. A fault in a
pattern that is tried ends the search.
-/

namespace Lowering

/-- A rule for nodes of kind `k` whose action yields an `α`. -/
structure Rule (k : Kind) (α : Type) where
  name : Text
  pattern : Pattern k
  action : Captures → Action α

/-- An ordered list of rules for nodes of one kind. -/
structure RuleSet (k : Kind) (α : Type) where
  name : Text
  rules : List (Rule k α)

namespace RuleSet

/-- The first of some rules that fits a node, with its captures. -/
def firstFit {k : Kind} {α : Type} (node : k.Value) :
    List (Rule k α) → Except (Stop Misfit) (Rule k α × Captures)
  | [] => .error (.failed .misfit)
  | rule :: rest =>
    match rule.pattern.fit node with
    | .ok captures => .ok (rule, captures)
    | .error (.failed _) => firstFit node rest
    | .error (.fault f) => .error (.fault f)

/-- The rule chosen for a node, with its captures. -/
def select {k : Kind} {α : Type} (set : RuleSet k α) (node : k.Value) :
    Except (Stop Misfit) (Rule k α × Captures) :=
  firstFit node set.rules

end RuleSet

/-- The rules of a target: statements yield nothing, expressions the register of their value. -/
structure RuleBook where
  stm : RuleSet .stm Unit
  exp : RuleSet .exp Temp

namespace RuleBook

/-- The rule chosen for a statement. -/
def selectStm (book : RuleBook) (s : Stm) : Except (Stop Refusal) (Rule .stm Unit × Captures) :=
  (book.stm.select s).mapError (·.map fun _ => .unmatchedStm book.stm.name s)

/-- The rule chosen for an expression. -/
def selectExp (book : RuleBook) (e : Exp) : Except (Stop Refusal) (Rule .exp Temp × Captures) :=
  (book.exp.select e).mapError (·.map fun _ => .unmatchedExp book.exp.name e)

end RuleBook

end Lowering
