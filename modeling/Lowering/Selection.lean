import Lowering.Rule.Basic
import Lowering.Session

/-!
# Instruction selection

A tree is lowered from its root: the rule chosen for the root tiles the top of the tree, and its action has
the remaining subtrees lowered in turn. Instructions are appended to a log and never reordered. Actions may
only lower trees smaller than their own node, so lowering always ends. A refusal anywhere takes the log back
to where the whole attempt began, also if it comes without an error and the attempt has none to report; a fault
leaves it as it stands. Fresh registers are not given back. If a journal is kept, the rule of a statement is noted
before its action runs and that of an expression after it.
-/

namespace Lowering

/-- What selection works on: the session and the instructions so far. -/
structure Log where
  session : Session := {}
  code : List Instr := []

/-- A step of selection. -/
abbrev Selecting := ExceptT (Stop Refusal) (StateM Log)

namespace Selecting

/-- Runs a step of the session. -/
def session {α : Type} (step : StateM Session α) : Selecting α :=
  modifyGet fun log =>
    let (a, session) := step.run log.session
    (a, { log with session })

/-- Appends instructions to the log. -/
def emit (code : List Instr) : Selecting Unit :=
  modify fun log => { log with code := log.code ++ code }

/-- Runs a step if a journal is kept. -/
def whenJournaling (step : Selecting Unit) : Selecting Unit := do
  let log ← get
  if log.session.journaling then step

/-- Notes the rule that was chosen for a statement; a hole cannot be noted. -/
def noteStm (rule : Text) (s : Stm) : Selecting Unit :=
  whenJournaling <|
    match s with
    | .hole => throw (.fault .holeNoted)
    | s => session (Session.record (.tiledStm rule s))

/-- Notes the rule that was chosen for an expression and the register of its value; a hole cannot be noted. -/
def noteExp (rule : Text) (e : Exp) (reg : Temp) : Selecting Unit :=
  whenJournaling <|
    match e with
    | .hole => throw (.fault .holeNoted)
    | e => session (Session.record (.tiledExp rule e reg))

/-- The meaning of requests, given how subtrees are lowered. -/
def handler [S : Supply] (stm : Stm → Selecting Unit) (exp : Exp → Selecting Temp) : Action.Handler Selecting where
  stm := stm
  exp := exp
  fresh := session Session.freshTemp
  emit := emit
  refuse why := throw (.failed why)
  fault f := throw (.fault f)

/-- What an attempt answers to a refusal. One that comes without an error is answered with a value that was
never set. -/
def answerTo {α : Type} (unset : α) (why : Refusal) : Except (Stop Refusal) α :=
  if why.isError then .error (.failed why) else .ok unset

/-- Runs steps so that a refusal takes the log back to where they began. -/
def attempt {α : Type} (unset : α) (steps : Selecting α) : Selecting α := fun log =>
  match steps log with
  | (.error (.failed why), log') => (answerTo unset why, { log' with code := log'.code.take log.code.length })
  | result => result

end Selecting

namespace RuleBook

mutual

/-- Lowers a statement by the rule chosen for it. -/
def lowerStm [S : Supply] (book : RuleBook) (s : Stm) : Selecting Unit :=
  match book.selectStm s with
  | .error why => throw why
  | .ok (rule, captures) => do
    Selecting.noteStm rule.name s
    (rule.action captures).run <| Selecting.handler
      (fun s' => if _h : s'.size < s.size then book.lowerStm s' else throw (.fault .endless))
      (fun e' => if _h : e'.size < s.size then book.lowerExp e' else throw (.fault .endless))
termination_by s.size

/-- Lowers an expression by the rule chosen for it and yields the register of its value. -/
def lowerExp [S : Supply] (book : RuleBook) (e : Exp) : Selecting Temp :=
  match book.selectExp e with
  | .error why => throw why
  | .ok (rule, captures) => do
    let t ← (rule.action captures).run <| Selecting.handler
      (fun s' => if _h : s'.size < e.size then book.lowerStm s' else throw (.fault .endless))
      (fun e' => if _h : e'.size < e.size then book.lowerExp e' else throw (.fault .endless))
    Selecting.noteExp rule.name e t
    return t
termination_by e.size

end

/-- Lowers a whole statement. -/
def tileStm [S : Supply] (book : RuleBook) (s : Stm) : Selecting Unit := Selecting.attempt () (book.lowerStm s)

/-- Lowers a whole expression. -/
def tileExp [S : Supply] (book : RuleBook) (e : Exp) : Selecting Temp := Selecting.attempt ⟨0⟩ (book.lowerExp e)

end RuleBook

end Lowering
