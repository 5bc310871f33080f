import Lowering.Instr.Template
import Lowering.X86.Frame

/-!
# Listings

A listing has one line per instruction. Labels stand at the margin and instructions behind a tab; an
instruction without text is left out. Renumbering replaces the names of virtual registers in a text by
`t1`, `t2`, … in the order in which they first appear, so that two listings can be compared whatever
registers were handed out to them.
-/

namespace Lowering

/-- The line of an instruction. -/
def Instr.line (names : Temp → Text) (x : Instr) : Except Fault Text := do
  let t ← x.text names
  if t.isEmpty then return []
  else
    match x with
    | .label .. => return t ++ "\n"
    | _ => return "\t" ++ t ++ "\n"

namespace Listing

/-- The lines of instructions. -/
def lines (names : Temp → Text) : List Instr → Except Fault Text
  | [] => .ok []
  | x :: rest => do
    let line ← x.line names
    let tail ← lines names rest
    return line ++ tail

/-- The lines of instructions between a prolog and an epilog. -/
def between (names : Temp → Text) (prolog : Text) (body : List Instr) (epilog : Text) : Except Fault Text := do
  let body ← lines names body
  return prolog ++ body ++ epilog

/-- The listing of a procedure, registers named as in its frame. -/
def procedure (p : X86.Procedure) : Except Fault Text := between X86.tempName p.prolog p.body p.epilog

/-- The listings of procedures, with an empty line between neighbours. -/
def procedures : List X86.Procedure → Except Fault Text
  | [] => .ok []
  | [p] => procedure p
  | p :: rest => do
    let head ← procedure p
    let tail ← procedures rest
    return head ++ "\n" ++ tail

/-! ### Renumbering -/

/-- Is the byte part of a word? -/
def isWordByte (b : UInt8) : Bool := Text.isAlphanumeric b || b == Text.byte '_'

/-- Is the word the name of a virtual register? -/
def isTempName : Text → Bool
  | c :: ds => c == Text.byte 't' && !ds.isEmpty && ds.all Text.isDigit
  | [] => false

/-- The number of a name: its place among the names seen so far, which it joins if it is new. -/
def numberOf (seen : List Text) (name : Text) : Nat × List Text :=
  match seen.idxOf? name with
  | some i => (i + 1, seen)
  | none => (seen.length + 1, seen ++ [name])

/-- Renumbers the rest of a text, given the names seen so far. -/
def renumberFrom (seen : List Text) : Text → Text
  | [] => []
  | c :: rest =>
    if isWordByte c then
      let word := c :: rest.takeWhile isWordByte
      let after := rest.drop (word.length - 1)
      if isTempName word then
        let (n, seen) := numberOf seen word
        "t" ++ Text.ofNat n ++ renumberFrom seen after
      else word ++ renumberFrom seen after
    else c :: renumberFrom seen rest
termination_by t => t.length
decreasing_by
  all_goals simp only [List.length_drop, List.length_cons]
  all_goals omega

/-- A text with the names of virtual registers numbered in the order in which they appear. -/
def renumber (t : Text) : Text := renumberFrom [] t

end Listing

end Lowering
