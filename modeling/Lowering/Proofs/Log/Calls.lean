import Lowering.Proofs.Ending
import Lowering.Proofs.Log.Blindness

/-!
# Calls on one log

Trees are handed to selection one after the other, on a log that goes from call to call. The log holds what the calls
that ran to their end emitted, in the order of the calls, and nothing else: a call that is refused, however deep and
after however much code, leaves the log as it was, whether the refusal comes with an error or not. All that remains of
it is that the counter of registers has moved on. Where no action looks at the number of a register, the calls after it
cannot tell. Calls are served to a depth, so actions may ask for trees of any size.
-/

namespace Lowering

/-- A whole tree to be lowered. -/
inductive Call where
  | stm (s : Stm)
  | exp (e : Exp)

namespace Call

open Selecting

def size : Call → Nat
  | .stm s => s.size
  | .exp e => e.size

/-- The request that a call makes. It ends in the register of an expression's value. -/
def request : Call → Action (Option Temp)
  | .stm s => .stm s (.done none)
  | .exp e => .exp e fun t => .done (some t)

/-- The value of a call that is given up without an error. -/
def unset : Call → Option Temp
  | .stm _ => none
  | .exp _ => some ⟨0⟩

/-- Serves a call to a depth; `none` if it is cut off. -/
def serve (book : RuleBook) (depth : Nat) : Call → Selecting (Option (Option Temp))
  | .stm s => Option.map (fun _ => none) <$> book.tileStmWithin depth s
  | .exp e => Option.map some <$> book.tileExpWithin depth e

/-- Serves a call by selection. -/
def select (book : RuleBook) : Call → Selecting (Option Temp)
  | .stm s => (fun _ => none) <$> book.tileStm s
  | .exp e => some <$> book.tileExp e

/-- What calls are answered. -/
abbrev Answer := Except (Stop Refusal) (Option (Option Temp))

variable {book : RuleBook} {depth : Nat}

/-! ### One call -/

end Call

end Lowering
