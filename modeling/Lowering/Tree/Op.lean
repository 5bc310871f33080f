import Lowering.Fault

/-!
# Operators and relations

Ten operators and ten relations are listed, each with a number and a name. A tree may also hold a number
outside the list; it is written with that number, and no rule of a target knows it.
-/

namespace Lowering

/-- A binary operator on words. -/
inductive Op where
  | plus
  | minus
  | mul
  | div
  | and
  | or
  | shl
  | shr
  | sar
  | xor
  /-- A number outside the list. -/
  | other (code : Int)
  deriving DecidableEq, Repr

namespace Op

/-- The listed operators, in the order of their numbers. -/
def listed : List Op := [.plus, .minus, .mul, .div, .and, .or, .shl, .shr, .sar, .xor]

/-- The operator with a given number. -/
def ofCode (code : Int) : Op :=
  if code < 0 then .other code else (listed[code.toNat]?).getD (.other code)

/-- The number of an operator. -/
def code : Op → Int
  | .plus => 0
  | .minus => 1
  | .mul => 2
  | .div => 3
  | .and => 4
  | .or => 5
  | .shl => 6
  | .shr => 7
  | .sar => 8
  | .xor => 9
  | .other code => code

/-- The name of an operator. -/
def text : Op → Text
  | .plus => "+"
  | .minus => "-"
  | .mul => "*"
  | .div => "/"
  | .and => "and"
  | .or => "or"
  | .shl => "<<"
  | .shr => ">>"
  | .sar => "a>>"
  | .xor => "xor"
  | .other code => "op" ++ Text.ofInt code

/-- The listed operator with a given name. -/
def ofText? (name : Text) : Option Op := listed.find? (·.text == name)

end Op

/-- A relation between words, signed or unsigned. -/
inductive Rel where
  | eq
  | ne
  | lt
  | gt
  | le
  | ge
  | ult
  | ule
  | ugt
  | uge
  /-- A number outside the list. -/
  | other (code : Int)
  deriving DecidableEq, Repr

namespace Rel

/-- The listed relations, in the order of their numbers. -/
def listed : List Rel := [.eq, .ne, .lt, .gt, .le, .ge, .ult, .ule, .ugt, .uge]

/-- The relation with a given number. -/
def ofCode (code : Int) : Rel :=
  if code < 0 then .other code else (listed[code.toNat]?).getD (.other code)

/-- The number of a relation. -/
def code : Rel → Int
  | .eq => 0
  | .ne => 1
  | .lt => 2
  | .gt => 3
  | .le => 4
  | .ge => 5
  | .ult => 6
  | .ule => 7
  | .ugt => 8
  | .uge => 9
  | .other code => code

/-- The name of a relation. -/
def text : Rel → Text
  | .eq => "=="
  | .ne => "!="
  | .lt => "<"
  | .gt => ">"
  | .le => "<="
  | .ge => ">="
  | .ult => "u<"
  | .ule => "u<="
  | .ugt => "u>"
  | .uge => "u>="
  | .other code => "rel" ++ Text.ofInt code

/-- The listed relation with a given name. -/
def ofText? (name : Text) : Option Rel := listed.find? (·.text == name)

/-- The relation that holds exactly where the given one does not. -/
def negate : Rel → Except Fault Rel
  | .eq => .ok .ne
  | .ne => .ok .eq
  | .lt => .ok .ge
  | .ge => .ok .lt
  | .gt => .ok .le
  | .le => .ok .gt
  | .ult => .ok .uge
  | .uge => .ok .ult
  | .ugt => .ok .ule
  | .ule => .ok .ugt
  | .other code => .error (.noNegation (text (.other code)))

/-- The relation that holds for the operands in the other order. -/
def commute : Rel → Rel
  | .lt => .gt
  | .gt => .lt
  | .le => .ge
  | .ge => .le
  | .ult => .ugt
  | .ugt => .ult
  | .ule => .uge
  | .uge => .ule
  | rel => rel

end Rel

end Lowering
