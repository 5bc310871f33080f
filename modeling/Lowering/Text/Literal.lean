import Lowering.Text.Basic

/-!
# Integer literals

A literal has an optional sign and a base: `0b`, `0o` and `0x` in either case, a leading `0` for octal,
decimal otherwise. Underscores may stand between digits and after a base mark. Values have 64 bits.
Digits are read from the left, and a value that outgrows 64 bits is out of range whatever follows; only a
complete scan is then held to the rule on underscores.
-/

namespace Lowering.Text

/-- Why a text is no integer literal. -/
inductive LiteralError where
  | malformed
  | outOfRange
  deriving DecidableEq, Repr

/-- The lower-case form of an ASCII letter. -/
def lower (b : UInt8) : UInt8 := b ||| 0x20

/-- The value of a digit or letter in bases up to 36. -/
def digitValue? (b : UInt8) : Option Nat :=
  if isDigit b then some (b.toNat - 48)
  else if isLower (lower b) then some ((lower b).toNat - 97 + 10)
  else none

/-- The base of an unsigned literal and what follows its base mark. -/
def splitBase : Text → Nat × Text
  | 48 :: mark :: d :: rest =>
    if lower mark = byte 'b' then (2, d :: rest)
    else if lower mark = byte 'o' then (8, d :: rest)
    else if lower mark = byte 'x' then (16, d :: rest)
    else (8, mark :: d :: rest)
  | 48 :: rest => (8, rest)
  | t => (10, t)

/-- The largest unsigned value. -/
def maxUnsigned : Nat := 0xffffffffffffffff

/-- The size of the least signed value, one more than the largest one. -/
def signedLimit : Nat := 0x8000000000000000

/-- Reads digits behind the value `n` already read, passing over underscores. -/
def readDigits (base : Nat) (n : Nat) : Text → Except LiteralError Nat
  | [] => .ok n
  | b :: rest =>
    if b = byte '_' then readDigits base n rest
    else
      match digitValue? b with
      | none => .error .malformed
      | some d =>
        if base ≤ d then .error .malformed
        else if maxUnsigned < n * base + d then .error .outOfRange
        else readDigits base (n * base + d) rest

/-- What stood before the next byte when the underscores of a literal are checked. -/
inductive Before where
  | start
  | digit
  | underscore
  | other
  deriving DecidableEq, Repr

/-- Each underscore follows a digit or the base mark and is followed by a digit. -/
def underscoresAllowed (hex : Bool) (before : Before) : Text → Bool
  | [] => before != .underscore
  | b :: rest =>
    if isDigit b || (hex && byte 'a' ≤ lower b && lower b ≤ byte 'f') then underscoresAllowed hex .digit rest
    else if b = byte '_' then before == .digit && underscoresAllowed hex .underscore rest
    else before != .underscore && underscoresAllowed hex .other rest

/-- The rule on underscores for an unsigned literal. -/
def underscoresOk : Text → Bool
  | 48 :: mark :: rest =>
    if lower mark = byte 'b' || lower mark = byte 'o' || lower mark = byte 'x' then
      underscoresAllowed (lower mark = byte 'x') .digit rest
    else underscoresAllowed false .start (48 :: mark :: rest)
  | t => underscoresAllowed false .start t

/-- The value of an unsigned literal. -/
def readUnsigned (t : Text) : Except LiteralError Nat :=
  if t.isEmpty then .error .malformed
  else
    let (base, digits) := splitBase t
    match readDigits base 0 digits with
    | .error e => .error e
    | .ok n => if digits.contains (byte '_') && !underscoresOk t then .error .malformed else .ok n

/-- The value of a literal behind a minus sign. -/
def readNegative (t : Text) : Except LiteralError Int := do
  let n ← readUnsigned t
  if signedLimit < n then .error .outOfRange else .ok (-n)

/-- The value of a literal without a minus sign. -/
def readPositive (t : Text) : Except LiteralError Int := do
  let n ← readUnsigned t
  if signedLimit ≤ n then .error .outOfRange else .ok n

/-- The value of a literal, between `-2 ^ 63` and `2 ^ 63 - 1`. -/
def readInt : Text → Except LiteralError Int
  | 45 :: rest => readNegative rest
  | 43 :: rest => readPositive rest
  | t => readPositive t

end Lowering.Text
