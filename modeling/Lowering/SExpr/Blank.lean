import Lowering.Fault

/-!
# Blanks

A skipper passes over blanks and, if it knows comments, over comments that run from a mark to the end of
their line. The end of the line is not part of the comment.
-/

namespace Lowering

/-- The bytes that count as blank, and the mark that starts a comment. -/
structure Skipper where
  blanks : List UInt8
  comment : Option UInt8 := none
  deriving DecidableEq, Repr

namespace Skipper

/-- A skipper for the given blanks, whose codes have to be below 64. -/
def ofBlanks (blanks : List UInt8) (comment : Option UInt8) : Except Fault Skipper :=
  if blanks.all (· < 64) then .ok ⟨blanks, comment⟩ else .error .highBlank

def space : Skipper := { blanks := [32] }

def spaceTab : Skipper := { blanks := [32, 9] }

def spaceAll : Skipper := { blanks := [32, 9, 13, 10] }

/-- All blanks, and comments that start with a semicolon. -/
def blank : Skipper := { spaceAll with comment := some 59 }

/-- The length of the rest of a line, its end left out. -/
def lineLength (t : Text) : Nat := (t.takeWhile (· != Text.newline)).length

/-- The number of bytes at the start of a text that are skipped. -/
def count (s : Skipper) : Text → Nat
  | [] => 0
  | b :: rest =>
    if s.blanks.contains b then 1 + s.count rest
    else if s.comment = some b then 1 + lineLength rest + s.count (rest.drop (lineLength rest))
    else 0
termination_by t => t.length
decreasing_by
  all_goals simp only [List.length_drop, List.length_cons]
  all_goals omega

/-- The position behind the bytes that are skipped from a position on. -/
def skip (s : Skipper) (t : Text) (pos : Nat) : Nat := pos + s.count (t.drop pos)

/-- The position behind the bytes that are skipped, for a position that may lie before the text. -/
def skipFrom (s : Skipper) (t : Text) (pos : Int) : Except Fault Nat :=
  if pos < 0 then .error .noSuchPosition else .ok (s.skip t pos.toNat)

end Skipper

end Lowering
