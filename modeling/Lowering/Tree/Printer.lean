import Lowering.Tree.Basic

/-!
# Trees in print

A tree is written as nested forms `(head part …)`, and a hole as `<nil>`. Listed operators and relations
are written by name, so a complete tree of them can be read off its text.
-/

namespace Lowering

/-- A form with a head and its parts. -/
def formText (head : Text) (parts : List Text) : Text :=
  "(" ++ Text.join " " (head :: parts) ++ ")"

mutual

/-- The text of a statement. -/
def Stm.text : Stm → Text
  | .hole => "<nil>"
  | .move dst src => formText "move" [dst.text, src.text]
  | .exp e => formText "exp" [e.text]
  | .label name => formText "label" [name]
  | .seq first second => formText "seq" [first.text, second.text]
  | .jump target labels => formText "jump" (target.text :: labels)
  | .cjump rel left right ifTrue ifFalse =>
    formText "cjump" [rel.text, left.text, right.text, ifTrue, ifFalse]

/-- The text of an expression. -/
def Exp.text : Exp → Text
  | .hole => "<nil>"
  | .const value => formText "const" [Text.ofInt value.toInt]
  | .temp reg => formText "temp" [reg.text]
  | .bin op left right => formText op.text [left.text, right.text]
  | .mem addr => formText "mem" [addr.text]
  | .call func args => formText "call" (func.text :: Exp.texts args)
  | .name label => formText "name" [label]
  | .eseq s e => formText "eseq" [s.text, e.text]

/-- The texts of a list of expressions. -/
def Exp.texts : List Exp → List Text
  | [] => []
  | e :: es => e.text :: Exp.texts es

end

end Lowering
