import Lowering.Session
import Lowering.X86.Form

/-!
# x86 frames

The activation record of a function under the 32-bit C convention:

    ebp+12  second incoming argument
    ebp+8   first incoming argument
    ebp+4   return address
    ebp     saved ebp
    ebp-4   first local

Formals that need an address are packed into the lowest argument slots, the others live in registers; entry
code moves every argument to where its formal lives. Locals that need an address take the slots below the
frame pointer.
-/

namespace Lowering.X86

/-- The activation record of a function. -/
structure Frame where
  name : Label := []
  formals : List Access := []
  /-- The number of slots taken by locals. -/
  locals : Nat := 0
  /-- A sealed frame belongs to no function and holds no locals. -/
  sealed : Bool := false
  deriving DecidableEq, Repr

/-- The frame pointer as an expression. -/
def framePointerExp : Exp := .temp framePointer

/-- The result register as an expression. -/
def resultExp : Exp := .temp resultRegister

/-- The distance of the first incoming argument from the frame pointer. -/
def firstFormalOffset : Nat := 8

/-- Gives each formal its storage, slots from `offset` up to those that need an address. -/
def placeFormals [S : Supply] (offset : Nat) : List Bool → StateM Session (List Access)
  | [] => return []
  | true :: rest => do
    let accesses ← placeFormals (offset + wordSize) rest
    return .inFrame offset :: accesses
  | false :: rest => do
    let t ← Session.freshTemp
    let accesses ← placeFormals offset rest
    return .inReg t :: accesses

/-- A hook that a target does not provide. -/
structure MissingHook where
  target : Text
  hook : Text

/-- The text of the complaint about a missing hook. -/
def MissingHook.message (m : MissingHook) : Text := m.target ++ ": " ++ m.hook ++ ": unimplemented target hook"

namespace Frame

/-- The frame that stands for no function. -/
def shared : Frame := { sealed := true }

/-- The frame of a function; `escapes` says of each formal whether it needs an address. -/
def create [S : Supply] (name : Label) (escapes : List Bool) : StateM Session Frame := do
  let formals ← placeFormals firstFormalOffset escapes
  Session.record (.newFrame name escapes formals)
  return { name, formals }

/-- The storage of one more local. -/
def addLocal [S : Supply] (frame : Frame) (escapes : Bool) : ExceptT Fault (StateM Session) (Access × Frame) := do
  if frame.sealed then
    throw .noLocals
  let (access, frame) ←
    if escapes then
      let locals := frame.locals + 1
      pure (.inFrame (-(locals * wordSize : Nat)), { frame with locals })
    else do
      let t ← Session.freshTemp
      pure (.inReg t, frame)
  Session.record (.newLocal frame.name escapes access)
  return (access, frame)

/-- Where the caller puts argument `i`. -/
def incoming (i : Nat) : Access := .inFrame (firstFormalOffset + i * wordSize : Nat)

/-- Moves the arguments from number `i` on to where their formals live; one that is there stays. -/
def entryMoves (i : Nat) : List Access → List Stm
  | [] => []
  | a :: rest =>
    if a = incoming i then entryMoves (i + 1) rest
    else .move (a.exp framePointerExp) ((incoming i).exp framePointerExp) :: entryMoves (i + 1) rest

/-- A fresh register for each register that the function has to hand back. -/
def saveRegisters [S : Supply] : List Temp → StateM Session (List (Temp × Temp))
  | [] => return []
  | r :: rest => do
    let t ← Session.freshTemp
    let saved ← saveRegisters rest
    return (r, t) :: saved

/-- Puts a body between entry code, which places the arguments and saves registers, and exit code, which
restores them. -/
def wrap [S : Supply] (frame : Frame) (body : Stm) : StateM Session Stm := do
  let saved ← saveRegisters calleeSaved
  let saves := saved.map fun (r, t) => Stm.move (.temp t) (.temp r)
  let restores := saved.map fun (r, t) => Stm.move (.temp r) (.temp t)
  return Stm.seqs (entryMoves 0 frame.formals ++ saves ++ [body] ++ restores)

/-- The registers in use when a function returns. -/
def liveAtExit : List Temp := [resultRegister, stackPointer, framePointer] ++ calleeSaved

/-- Code followed by a note, without text, of the registers in use when the function returns. -/
def withExit (code : List Instr) : List Instr := code ++ [.oper [] [] liveAtExit [] []]

/-- The line that makes room for locals, if there are any. -/
def roomForLocals (frame : Frame) : Text :=
  match frame.locals * wordSize with
  | 0 => []
  | n => "\tsub esp, " ++ Text.ofNat n ++ "\n"

/-- The text that makes the frame. -/
def prolog (frame : Frame) : Text :=
  frame.name ++ ":\n\tpush ebp\n\tmov ebp, esp\n" ++ frame.roomForLocals

/-- The text that takes the frame down and returns. -/
def epilog : Text := "\tmov esp, ebp\n\tpop ebp\n\tret\n"

/-- Outgoing arguments are pushed, so they have no storage in the frame. -/
def outgoing (_frame : Frame) (_index : Int) : Except MissingHook Access := .error ⟨"x86", "OutArg"⟩

def text (frame : Frame) : Text :=
  "x86 frame " ++ frame.name ++ " formals " ++ Text.bracketed (frame.formals.map Access.text) ++
    " locals " ++ Text.ofNat frame.locals

end Frame

/-- The code of a function, ready to be listed. -/
structure Procedure where
  frame : Frame
  prolog : Text
  body : List Instr
  epilog : Text

/-- Completes the code of a function once its frame is known. -/
def Frame.procedure (frame : Frame) (body : List Instr) : Procedure where
  frame := frame
  prolog := frame.prolog
  body := body
  epilog := Frame.epilog

end Lowering.X86
