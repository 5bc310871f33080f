import Lowering.Instr.Basic
import Lowering.Tree.Printer

/-!
# Actions

What a rule does with the node it was chosen for is an action: a tree of requests. An action can have a
part of the node lowered, ask for a fresh register, append instructions to the log, refuse the node, or
raise a fault; it cannot look at the log or take anything back. An interpreter gives requests their
meaning.
-/

namespace Lowering

/-- Why lowering gave up on a tree. -/
inductive Refusal where
  /-- No rule of the named set fits a statement. -/
  | unmatchedStm (rules : Text) (node : Stm)
  /-- No rule of the named set fits an expression. -/
  | unmatchedExp (rules : Text) (node : Exp)
  /-- An action refused its node, with the message of an error or without any error. -/
  | refused (message : Option Text)
  deriving DecidableEq

/-- A message that says nothing is replaced by a note. -/
def orNoMessage (message : Text) : Text := if message.isEmpty then "(no message)" else message

/-- The text of a refusal. -/
def Refusal.message : Refusal → Text
  | .unmatchedStm rules node => rules ++ " rules: " ++ node.text ++ ": unmatched shape"
  | .unmatchedExp rules node => rules ++ " rules: " ++ node.text ++ ": unmatched shape"
  | .refused message => orNoMessage (message.getD [])

/-- Does the refusal come with an error? -/
def Refusal.isError : Refusal → Bool
  | .refused none => false
  | _ => true

/-- A tree of requests that yields an `α`. -/
inductive Action (α : Type) where
  | done (value : α)
  /-- Lowers a statement. -/
  | stm (s : Stm) (next : Action α)
  /-- Lowers an expression and goes on with the register that holds its value. -/
  | exp (e : Exp) (next : Temp → Action α)
  /-- Asks for a fresh virtual register. -/
  | fresh (next : Temp → Action α)
  /-- Appends instructions to the log. -/
  | emit (code : List Instr) (next : Action α)
  | refuse (why : Refusal)
  | fault (f : Fault)

namespace Action

/-- Goes on with `f` once an action is done. -/
def bind {α β : Type} (x : Action α) (f : α → Action β) : Action β :=
  match x with
  | .done a => f a
  | .stm s next => .stm s (next.bind f)
  | .exp e next => .exp e fun t => (next t).bind f
  | .fresh next => .fresh fun t => (next t).bind f
  | .emit code next => .emit code (next.bind f)
  | .refuse why => .refuse why
  | .fault g => .fault g

instance : Monad Action where
  pure := .done
  bind := Action.bind

/-! ### Single requests -/

def lowerStm (s : Stm) : Action Unit := .stm s (.done ())

def lowerExp (e : Exp) : Action Temp := .exp e .done

def freshTemp : Action Temp := .fresh .done

def append (code : List Instr) : Action Unit := .emit code (.done ())

/-- Goes on with a value, or raises the fault in its place. -/
def orFault {α : Type} : Except Fault α → Action α
  | .ok a => .done a
  | .error f => .fault f

/-! ### Meaning -/

/-- What a monad has to offer to give requests a meaning. -/
structure Handler (m : Type → Type) where
  stm : Stm → m Unit
  exp : Exp → m Temp
  fresh : m Temp
  emit : List Instr → m Unit
  refuse : {α : Type} → Refusal → m α
  fault : {α : Type} → Fault → m α

/-- Runs an action, request by request. -/
def run {m : Type → Type} [Monad m] {α : Type} (h : Handler m) : Action α → m α
  | .done a => Pure.pure a
  | .stm s next => do
    h.stm s
    next.run h
  | .exp e next => do
    let t ← h.exp e
    (next t).run h
  | .fresh next => do
    let t ← h.fresh
    (next t).run h
  | .emit code next => do
    h.emit code
    next.run h
  | .refuse why => h.refuse why
  | .fault f => h.fault f

end Action

end Lowering
