import Lowering.Rule.Basic
import Lowering.X86.Form

/-!
# The x86 rules

Statements and expressions are tiled by the forms of x86 instruction. Operands are lowered from left to
right; a two-operand operation copies its left operand into the result register and updates that in place.
Larger tiles stand before the smaller ones they cover. Calls follow the C convention: arguments are
lowered from left to right, pushed from right to left and taken off the stack by the caller, and the result
is in `eax`.
-/

namespace Lowering.X86

/-! ### Wildcards

Captures are listed in the order of the slots. -/

namespace Wild

def d : Wildcard .temp := ⟨1⟩
def l : Wildcard .label := ⟨2⟩
def s : Wildcard .stm := ⟨3⟩
def r : Wildcard .stm := ⟨4⟩
def e : Wildcard .exp := ⟨5⟩
def f : Wildcard .exp := ⟨6⟩
def i : Wildcard .word := ⟨7⟩
def j : Wildcard .word := ⟨8⟩
def ls : Wildcard .labels := ⟨9⟩
def rel : Wildcard .rel := ⟨10⟩
def t : Wildcard .label := ⟨11⟩
def u : Wildcard .label := ⟨12⟩
def args : Wildcard .exps := ⟨13⟩

end Wild

/-! ### Parts of actions -/

/-- What a wildcard stood for. -/
def read {k : Kind} (w : Wildcard k) (c : Captures) : Action k.Value := Action.orFault (c.read w)

/-- Lowers the expression that a wildcard stood for. -/
def lowered (w : Wildcard .exp) (c : Captures) : Action Temp := do
  let e ← read w c
  Action.lowerExp e

/-- Emits one instruction. -/
def emit (x : Instr) : Action Unit := Action.append [x]

/-- Emits an operation into a fresh register. -/
def define (form : Form) (src : List Temp) : Action Temp := do
  let t ← Action.freshTemp
  emit (oper form [t] src)
  return t

/-- Copies a register into a fresh one. -/
def copied (src : Temp) : Action Temp := do
  let t ← Action.freshTemp
  emit (copy t src)
  return t

/-- The branch on a relation. -/
def branch (rel : Rel) (ifTrue ifFalse : Label) : Instr := .oper (Form.branch rel).asm [] [] [ifTrue, ifFalse] []

/-! ### Statements -/

def storeRules : List (Rule .stm Unit) := [
  { name := "store [e+i], j"
    pattern := .move (.mem (.binary .plus Wild.e (.const Wild.i))) (.const Wild.j)
    action := fun c => do
      let a ← lowered Wild.e c
      let i ← read Wild.i c
      let j ← read Wild.j c
      emit (oper (.storeConst i j) [] [a]) },
  { name := "store [e+i], f"
    pattern := .move (.mem (.binary .plus Wild.e (.const Wild.i))) Wild.f
    action := fun c => do
      let a ← lowered Wild.e c
      let b ← lowered Wild.f c
      let i ← read Wild.i c
      emit (oper (.store i) [] [a, b]) },
  { name := "store [i+e], f"
    pattern := .move (.mem (.binary .plus (.const Wild.i) Wild.e)) Wild.f
    action := fun c => do
      let a ← lowered Wild.e c
      let b ← lowered Wild.f c
      let i ← read Wild.i c
      emit (oper (.store i) [] [a, b]) },
  { name := "store [e-i], f"
    pattern := .move (.mem (.binary .minus Wild.e (.const Wild.i))) Wild.f
    action := fun c => do
      let a ← lowered Wild.e c
      let b ← lowered Wild.f c
      let i ← read Wild.i c
      emit (oper (.store (-i)) [] [a, b]) },
  { name := "store [i], f"
    pattern := .move (.mem (.const Wild.i)) Wild.f
    action := fun c => do
      let b ← lowered Wild.f c
      let i ← read Wild.i c
      emit (oper (.storeAt i) [] [b]) },
  { name := "store [e], j"
    pattern := .move (.mem Wild.e) (.const Wild.j)
    action := fun c => do
      let a ← lowered Wild.e c
      let j ← read Wild.j c
      emit (oper (.storeConst 0 j) [] [a]) },
  { name := "store [e], f"
    pattern := .move (.mem Wild.e) Wild.f
    action := fun c => do
      let a ← lowered Wild.e c
      let b ← lowered Wild.f c
      emit (oper (.store 0) [] [a, b]) }]

def moveRules : List (Rule .stm Unit) := [
  { name := "load d, i"
    pattern := .move (.temp Wild.d) (.const Wild.i)
    action := fun c => do
      let i ← read Wild.i c
      let d ← read Wild.d c
      emit (oper (.loadConst i) [d] []) },
  { name := "load d, [e+i]"
    pattern := .move (.temp Wild.d) (.mem (.binary .plus Wild.e (.const Wild.i)))
    action := fun c => do
      let a ← lowered Wild.e c
      let i ← read Wild.i c
      let d ← read Wild.d c
      emit (oper (.load i) [d] [a]) },
  { name := "move d, e"
    pattern := .move (.temp Wild.d) Wild.e
    action := fun c => do
      let d ← read Wild.d c
      let a ← lowered Wild.e c
      emit (copy d a) },
  { name := "exp"
    pattern := .exp Wild.e
    action := fun c => do
      let _ ← lowered Wild.e c
      return () }]

def controlRules : List (Rule .stm Unit) := [
  { name := "label"
    pattern := .label Wild.l
    action := fun c => do
      let l ← read Wild.l c
      emit (.label (l ++ ":") l) },
  { name := "seq"
    pattern := .seq Wild.s Wild.r
    action := fun c => do
      let s ← read Wild.s c
      Action.lowerStm s
      let r ← read Wild.r c
      Action.lowerStm r },
  { name := "jmp l"
    pattern := .jump (.name Wild.l) Wild.ls
    action := fun c => do
      let l ← read Wild.l c
      emit (.oper Form.jump.asm [] [] [l] []) },
  { name := "jmp e"
    pattern := .jump Wild.e Wild.ls
    action := fun c => do
      let a ← lowered Wild.e c
      let ls ← read Wild.ls c
      emit (.oper Form.jumpReg.asm [] [a] ls []) },
  { name := "cjump e, i"
    pattern := .cjump Wild.rel Wild.e (.const Wild.i) Wild.t Wild.u
    action := fun c => do
      let a ← lowered Wild.e c
      let i ← read Wild.i c
      let rel ← read Wild.rel c
      let t ← read Wild.t c
      let u ← read Wild.u c
      Action.append [oper (.cmpConst i) [] [a], branch rel t u] },
  { name := "cjump i, e"
    pattern := .cjump Wild.rel (.const Wild.i) Wild.e Wild.t Wild.u
    action := fun c => do
      let a ← lowered Wild.e c
      let i ← read Wild.i c
      let rel ← read Wild.rel c
      let t ← read Wild.t c
      let u ← read Wild.u c
      Action.append [oper (.cmpConst i) [] [a], branch (Rel.commute rel) t u] },
  { name := "cjump e, f"
    pattern := .cjump Wild.rel Wild.e Wild.f Wild.t Wild.u
    action := fun c => do
      let a ← lowered Wild.e c
      let b ← lowered Wild.f c
      let rel ← read Wild.rel c
      let t ← read Wild.t c
      let u ← read Wild.u c
      Action.append [oper .cmp [] [a, b], branch rel t u] }]

/-- The rules for statements. -/
def stmRules : RuleSet .stm Unit where
  name := "x86 stm"
  rules := storeRules ++ moveRules ++ controlRules

/-! ### Expressions -/

def loadRules : List (Rule .exp Temp) := [
  { name := "[e+i]"
    pattern := .mem (.binary .plus Wild.e (.const Wild.i))
    action := fun c => do
      let a ← lowered Wild.e c
      let i ← read Wild.i c
      define (.load i) [a] },
  { name := "[i+e]"
    pattern := .mem (.binary .plus (.const Wild.i) Wild.e)
    action := fun c => do
      let a ← lowered Wild.e c
      let i ← read Wild.i c
      define (.load i) [a] },
  { name := "[e-i]"
    pattern := .mem (.binary .minus Wild.e (.const Wild.i))
    action := fun c => do
      let a ← lowered Wild.e c
      let i ← read Wild.i c
      define (.load (-i)) [a] },
  { name := "[i]"
    pattern := .mem (.const Wild.i)
    action := fun c => do
      let i ← read Wild.i c
      define (.loadAt i) [] },
  { name := "[e]"
    pattern := .mem Wild.e
    action := fun c => do
      let a ← lowered Wild.e c
      define (.load 0) [a] }]

/-- Copies the value of an operand and updates the copy by a constant. -/
def updateConst (form : Word → Form) (c : Captures) : Action Temp := do
  let a ← lowered Wild.e c
  let t ← copied a
  let i ← read Wild.i c
  emit (oper (form i) [t] [t])
  return t

/-- Copies the value of the left operand and updates the copy by the right one. -/
def update (form : Form) (c : Captures) : Action Temp := do
  let a ← lowered Wild.e c
  let b ← lowered Wild.f c
  let t ← copied a
  emit (oper form [t] [t, b])
  return t

def arithRules (o : Arith) : List (Rule .exp Temp) :=
  [{ name := o.mnemonic ++ " e, i"
     pattern := .binary o.op Wild.e (.const Wild.i)
     action := updateConst (.arithConst o) }] ++
  (if o.commutes then
    [{ name := o.mnemonic ++ " i, e"
       pattern := .binary o.op (.const Wild.i) Wild.e
       action := updateConst (.arithConst o) }]
  else []) ++
  [{ name := o.mnemonic ++ " e, f"
     pattern := .binary o.op Wild.e Wild.f
     action := update (.arith o) }]

def mulDivRules : List (Rule .exp Temp) := [
  { name := "imul e, i"
    pattern := .binary .mul Wild.e (.const Wild.i)
    action := fun c => do
      let a ← lowered Wild.e c
      let i ← read Wild.i c
      define (.mulConst i) [a] },
  { name := "imul i, e"
    pattern := .binary .mul (.const Wild.i) Wild.e
    action := fun c => do
      let a ← lowered Wild.e c
      let i ← read Wild.i c
      define (.mulConst i) [a] },
  { name := "imul e, f"
    pattern := .binary .mul Wild.e Wild.f
    action := update .mul },
  { name := "idiv e, f"
    pattern := .binary .div Wild.e Wild.f
    action := fun c => do
      let a ← lowered Wild.e c
      let b ← lowered Wild.f c
      let eax := Register.eax.temp
      let edx := Register.edx.temp
      Action.append [
        copy eax a,
        oper .signExtend [edx] [eax],
        oper .div [eax, edx] [b, eax, edx]]
      copied eax }]

def shiftRules (o : Shift) : List (Rule .exp Temp) := [
  { name := o.mnemonic ++ " e, i"
    pattern := .binary o.op Wild.e (.const Wild.i)
    action := updateConst fun i => .shiftConst o (i &&& 31) },
  { name := o.mnemonic ++ " e, f"
    pattern := .binary o.op Wild.e Wild.f
    action := fun c => do
      let a ← lowered Wild.e c
      let b ← lowered Wild.f c
      let t ← copied a
      let ecx := Register.ecx.temp
      Action.append [copy ecx b, oper (.shift o) [t] [t, ecx]]
      return t }]

def leafRules : List (Rule .exp Temp) := [
  { name := "const"
    pattern := .const Wild.i
    action := fun c => do
      let i ← read Wild.i c
      define (.loadConst i) [] },
  { name := "temp"
    pattern := .temp Wild.d
    action := fun c => read Wild.d c },
  { name := "name"
    pattern := .name Wild.l
    action := fun c => do
      let t ← Action.freshTemp
      let l ← read Wild.l c
      emit (.oper Form.loadSymbol.asm [t] [] [] [l])
      return t },
  { name := "eseq"
    pattern := .eseq Wild.s Wild.e
    action := fun c => do
      let s ← read Wild.s c
      Action.lowerStm s
      lowered Wild.e c }]

/-- Lowers arguments from left to right. A constant needs no register. -/
def lowerArgs : List Exp → Action (List (Word ⊕ Temp))
  | [] => return []
  | .const i :: rest => do
    let vs ← lowerArgs rest
    return .inl i :: vs
  | e :: rest => do
    let t ← Action.lowerExp e
    let vs ← lowerArgs rest
    return .inr t :: vs

/-- The push of one argument. -/
def push : Word ⊕ Temp → Instr
  | .inl i => oper (.pushConst i) [stackPointer] [stackPointer]
  | .inr t => oper .push [stackPointer] [t, stackPointer]

/-- Lowers arguments and pushes them from right to left; yields their number. -/
def pushArgs (args : List Exp) : Action Nat := do
  let vs ← lowerArgs args
  Action.append (vs.reverse.map push)
  return args.length

/-- Takes `n` arguments off the stack and copies the result of the call. -/
def afterCall (n : Nat) : Action Temp := do
  if n ≠ 0 then
    emit (oper (.pop (n * wordSize)) [stackPointer] [stackPointer])
  copied resultRegister

def callRules : List (Rule .exp Temp) := [
  { name := "call l"
    pattern := .call (.name Wild.l) Wild.args
    action := fun c => do
      let args ← read Wild.args c
      let n ← pushArgs args
      let l ← read Wild.l c
      emit (.oper Form.call.asm callerSaved [] [] [l])
      afterCall n },
  { name := "call f"
    pattern := .call Wild.f Wild.args
    action := fun c => do
      let a ← lowered Wild.f c
      let args ← read Wild.args c
      let n ← pushArgs args
      emit (oper .callReg callerSaved [a])
      afterCall n }]

/-- The rules for expressions. -/
def expRules : RuleSet .exp Temp where
  name := "x86 exp"
  rules := loadRules ++ Arith.all.flatMap arithRules ++ mulDivRules ++ Shift.all.flatMap shiftRules ++
    leafRules ++ callRules

/-- The rules of the target. -/
def rules : RuleBook where
  stm := stmRules
  exp := expRules

end Lowering.X86
