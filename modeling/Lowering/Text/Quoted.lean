import Lowering.Text.Printable
import Lowering.Text.Basic

/-!
# Quoted texts

A quoted text stands between double quotes. Printable characters stand for themselves, a quote and a
backslash get a backslash, the usual control characters their letter; every other scalar value is written
by its number, and a byte that belongs to no well-formed UTF-8 sequence as `\x` and two hex digits.
-/

namespace Lowering.Text

/-! ### Scalar values -/

/-- Is the byte a continuation byte of a UTF-8 sequence? -/
def isTail (b : UInt8) : Bool := 0x80 ≤ b && b ≤ 0xbf

/-- The low six bits of a continuation byte. -/
def tailBits (b : UInt8) : Nat := b.toNat % 64

/-- The scalar value whose UTF-8 sequence a text begins with, and the length of the sequence. -/
def firstScalar? : Text → Option (Nat × Nat)
  | [] => none
  | a :: rest =>
    if a < 0x80 then some (a.toNat, 1)
    else if 0xc2 ≤ a && a ≤ 0xdf then
      match rest with
      | b :: _ => if isTail b then some (a.toNat % 32 * 64 + tailBits b, 2) else none
      | _ => none
    else if 0xe0 ≤ a && a ≤ 0xef then
      match rest with
      | b :: c :: _ =>
        let low := if a = 0xe0 then 0xa0 else 0x80
        let high := if a = 0xed then 0x9f else 0xbf
        if low ≤ b && b ≤ high && isTail c then
          some ((a.toNat % 16 * 64 + tailBits b) * 64 + tailBits c, 3)
        else none
      | _ => none
    else if 0xf0 ≤ a && a ≤ 0xf4 then
      match rest with
      | b :: c :: d :: _ =>
        let low := if a = 0xf0 then 0x90 else 0x80
        let high := if a = 0xf4 then 0x8f else 0xbf
        if low ≤ b && b ≤ high && isTail c && isTail d then
          some (((a.toNat % 8 * 64 + tailBits b) * 64 + tailBits c) * 64 + tailBits d, 4)
        else none
      | _ => none
    else none

/-! ### Escapes -/

/-- The byte of a hex digit below sixteen. -/
def hexDigit (n : Nat) : UInt8 := if n < 10 then digit n else UInt8.ofNat (87 + n)

/-- The low `width` hex digits of a number. -/
def hex : (width : Nat) → Nat → Text
  | 0, _ => []
  | width + 1, n => hex width (n / 16) ++ [hexDigit (n % 16)]

/-- The letter of a control character that has one. -/
def controlLetter? : Nat → Option Char
  | 7 => some 'a'
  | 8 => some 'b'
  | 9 => some 't'
  | 10 => some 'n'
  | 11 => some 'v'
  | 12 => some 'f'
  | 13 => some 'r'
  | _ => none

/-- How a quoted text writes the scalar value `c`, whose UTF-8 sequence is `bytes`. -/
def escaped (c : Nat) (bytes : Text) : Text :=
  if c = 0x22 || c = 0x5c then byte '\\' :: bytes
  else if isPrintable c then bytes
  else
    match controlLetter? c with
    | some letter => [byte '\\', byte letter]
    | none =>
      if c < 0x80 then "\\x" ++ hex 2 c
      else if c < 0x10000 then "\\u" ++ hex 4 c
      else "\\U" ++ hex 8 c

/-- The text between the quotes. -/
def quotedBody : Text → Text
  | [] => []
  | a :: rest =>
    match firstScalar? (a :: rest) with
    | some (c, n) => escaped c ((a :: rest).take n) ++ quotedBody (rest.drop (n - 1))
    | none => "\\x" ++ hex 2 a.toNat ++ quotedBody rest
termination_by t => t.length
decreasing_by
  all_goals simp only [List.length_drop, List.length_cons]
  all_goals omega

/-- A text between double quotes, with escapes. -/
def quoted (t : Text) : Text := "\"" ++ quotedBody t ++ "\""

end Lowering.Text
