import Lowering.Frame.Access

/-!
# Sessions

A session counts the virtual registers and the labels it has handed out and, if it is asked to, keeps a
journal of what was lowered. Counters only grow: what a failed attempt took is not given back. Which register
a request is answered with is up to a supply: where nobody else takes registers they come in the order of their
numbers, and otherwise those that others took are missing.
-/

namespace Lowering

/-- An entry of the journal. -/
inductive Event where
  | newFrame (name : Label) (escapes : List Bool) (formals : List Access)
  | newLocal (name : Label) (escapes : Bool) (access : Access)
  /-- A rule was chosen for a statement. -/
  | tiledStm (rule : Text) (node : Stm)
  /-- A rule was chosen for an expression and has left its value in a register. -/
  | tiledExp (rule : Text) (node : Exp) (reg : Temp)
  | function (name : Label) (escapes : List Bool)
  /-- The whole tree of a function, entry and exit included. -/
  | wholeTree (s : Stm)
  | lowered (instrs : Nat)
  | package (functions : Nat)
  | file (name : Text) (size : Nat)

/-- The counters and the journal, oldest entry first. -/
structure Session where
  temps : Nat := 0
  labels : Nat := 0
  /-- Is a journal kept? -/
  journaling : Bool := false
  journal : List Event := []

/-- Where virtual registers come from: the one that a request is answered with, given the number of requests
before it. -/
class Supply where
  register : Nat → Temp

/-- Registers in the order of their numbers, from one on. -/
instance Supply.inOrder : Supply := ⟨fun n => ⟨(n : Int) + 1⟩⟩

/-- From the request after `n` others on, the registers are virtual and come in increasing order. -/
structure Supply.Increasing (S : Supply) (n : Nat) : Prop where
  positive : 0 < (S.register n).id
  increases : ∀ k, n ≤ k → (S.register k).id < (S.register (k + 1)).id

namespace Session

/-- Hands out a virtual register. -/
def freshTemp [S : Supply] : StateM Session Temp :=
  modifyGet fun s => (S.register s.temps, { s with temps := s.temps + 1 })

/-- Hands out a label. -/
def freshLabel : StateM Session Label :=
  modifyGet fun s => (Label.numbered (s.labels + 1), { s with labels := s.labels + 1 })

/-- Adds an entry to the journal, if one is kept. -/
def record (e : Event) : StateM Session Unit :=
  modify fun s => if s.journaling then { s with journal := s.journal ++ [e] } else s

end Session

end Lowering
