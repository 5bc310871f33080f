import Lowering.Fault

/-!
# Dense sets of integers

A dense set keeps one bit per key, counted from its base, and grows as larger keys arrive. Keys and base
have 64 bits, and so has their distance: a key whose distance to the base wraps around to a negative number
counts as below it.
-/

namespace Lowering

/-- A set of integers that keeps one bit per key, counted from the base. -/
structure DenseSet where
  base : Int
  words : Array UInt64 := #[]
  deriving Repr

namespace DenseSet

/-- How far a key lies above the base, in 64 bits. -/
def distance (s : DenseSet) (k : Int) : Int := (k - s.base).bmod 0x10000000000000000

/-- The word and the bit of a key that is not below the base. -/
def place? (s : DenseSet) (k : Int) : Option (Nat × Nat) :=
  let p := s.distance k
  if p < 0 then none else some (p.toNat / 64, p.toNat % 64)

/-- The word in which only the given bit is set. -/
def mask (bit : Nat) : UInt64 := 1 <<< UInt64.ofNat bit

def contains (s : DenseSet) (k : Int) : Bool :=
  match s.place? k with
  | none => false
  | some (i, j) =>
    match s.words[i]? with
    | none => false
    | some w => w &&& mask j != 0

/-- The set with room for word `i`. -/
def grow (s : DenseSet) (i : Nat) : DenseSet :=
  { s with words := s.words ++ Array.replicate (i + 1 - s.words.size) 0 }

/-- The set with one more key; a key below the base is a fault. -/
def insert (s : DenseSet) (k : Int) : Except Fault DenseSet :=
  match s.place? k with
  | none => .error .keyBelowBase
  | some (i, j) =>
    let s := s.grow i
    .ok { s with words := s.words.modify i (· ||| mask j) }

end DenseSet

end Lowering
