/-!
# Texts

Names, templates and source files need not be valid UTF-8, so a text is the list of its bytes. String
literals stand for their UTF-8 bytes. Numbers are written in decimal, with a minus sign and no padding.
-/

namespace Lowering

/-- A text is a list of bytes; nothing is assumed about their encoding. -/
abbrev Text := List UInt8

namespace Text

/-- The UTF-8 bytes of a string. -/
def ofString (s : String) : Text := s.toByteArray.data.toList

instance : Coe String Text := ⟨ofString⟩

/-! ### Byte classes -/

/-- The byte of an ASCII character. -/
def byte (c : Char) : UInt8 := c.toNat.toUInt8

/-- The byte that ends a line. -/
def newline : UInt8 := 10

def isDigit (b : UInt8) : Bool := 48 ≤ b && b ≤ 57

def isLower (b : UInt8) : Bool := 97 ≤ b && b ≤ 122

def isUpper (b : UInt8) : Bool := 65 ≤ b && b ≤ 90

def isAlphanumeric (b : UInt8) : Bool := isLower b || isUpper b || isDigit b

/-! ### Decimal numbers -/

/-- The byte of a digit below ten. -/
def digit (n : Nat) : UInt8 := UInt8.ofNat (48 + n)

/-- A natural number in decimal. -/
def ofNat (n : Nat) : Text :=
  if n < 10 then [digit n] else ofNat (n / 10) ++ [digit (n % 10)]
termination_by n

/-- An integer in decimal, with a minus sign where it is negative. -/
def ofInt : Int → Text
  | .ofNat n => ofNat n
  | .negSucc n => byte '-' :: ofNat (n + 1)

/-- The number that a list of decimal digits spells. -/
def digitsValue (ds : Text) : Nat := ds.foldl (fun n d => 10 * n + (d.toNat - 48)) 0

/-! ### Sequences of texts -/

/-- The texts with a separator between neighbours. -/
def join (sep : Text) : List Text → Text
  | [] => []
  | [t] => t
  | t :: ts => t ++ sep ++ join sep ts

/-- The texts between square brackets, separated by blanks. -/
def bracketed (ts : List Text) : Text := "[" ++ join " " ts ++ "]"

/-- A truth value as `true` or `false`. -/
def ofBool (b : Bool) : Text := if b then "true" else "false"

end Text

end Lowering
