import Lowering.Text.Basic

/-!
# The wire form of a text

A text travels behind a header that gives its length: one byte for a short text, more for a longer one.
-/

namespace Lowering.Text

/-- The low bytes of a number, the highest first. -/
def bigEndian : (width : Nat) → Nat → Text
  | 0, _ => []
  | width + 1, n => bigEndian width (n / 256) ++ [UInt8.ofNat n]

/-- The header of a text of length `n`: a byte that says how wide the length is, or holds it if it is below
24, and the length. -/
def wireHeader (n : Nat) : Text :=
  if n < 24 then [UInt8.ofNat (0x60 + n)]
  else if n < 0x100 then 0x78 :: bigEndian 1 n
  else if n < 0x10000 then 0x79 :: bigEndian 2 n
  else if n < 0x100000000 then 0x7a :: bigEndian 4 n
  else 0x7b :: bigEndian 8 n

/-- A text behind the header that gives its length. -/
def wire (t : Text) : Text := wireHeader t.length ++ t

end Lowering.Text
