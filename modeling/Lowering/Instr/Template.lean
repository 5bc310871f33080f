import Lowering.Instr.Basic

/-!
# Templates

The template of an instruction names its operands by placeholders: `s` and a number for a register it
uses, `d` for one it defines, `j` for a label it may go to and `l` for a symbol. A placeholder is a whole
word; letters, digits, underscores and points make up words. A label is written as its template stands.
-/

namespace Lowering

/-- Is the byte part of a word? -/
def isTemplateWord (b : UInt8) : Bool :=
  Text.isAlphanumeric b || b == Text.byte '_' || b == Text.byte '.'

/-- Does the text go on with a word? -/
def goesOnWithWord : Text → Bool
  | [] => false
  | b :: _ => isTemplateWord b

/-- The operands that placeholders name, each already in print. -/
structure Operands where
  uses : List Text
  defs : List Text
  jumps : List Text
  syms : List Text

namespace Operands

/-- The operands that a placeholder letter counts. -/
def family? (x : Operands) (letter : UInt8) : Option (List Text) :=
  if letter = Text.byte 's' then some x.uses
  else if letter = Text.byte 'd' then some x.defs
  else if letter = Text.byte 'j' then some x.jumps
  else if letter = Text.byte 'l' then some x.syms
  else none

/-- Expands the rest of a template, where `fresh` says that no word has begun yet. -/
def expandFrom (x : Operands) (template : Text) (fresh : Bool) : Text → Except Fault Text
  | [] => .ok []
  | c :: rest =>
    let digits := rest.takeWhile Text.isDigit
    match (if fresh && !digits.isEmpty && !goesOnWithWord (rest.drop digits.length)
      then x.family? c else none) with
    | none => do
      let tail ← expandFrom x template (!isTemplateWord c) rest
      .ok (c :: tail)
    | some family =>
      match family[Text.digitsValue digits]? with
      | none => .error (.noOperand (c :: digits) template)
      | some operand => do
        let tail ← expandFrom x template false (rest.drop digits.length)
        .ok (operand ++ tail)
termination_by t => t.length
decreasing_by
  all_goals simp only [List.length_drop, List.length_cons]
  all_goals omega

/-- Expands a template. -/
def expand (x : Operands) (template : Text) : Except Fault Text := x.expandFrom template true template

end Operands

namespace Instr

/-- The operands of an instruction, registers named by `names`. -/
def operands (names : Temp → Text) (x : Instr) : Operands where
  uses := x.uses.map names
  defs := x.defs.map names
  jumps := x.targets
  syms := x.symbols

/-- An instruction in print, registers named by `names`. -/
def text (names : Temp → Text) (x : Instr) : Except Fault Text :=
  match x with
  | .label asm _ => .ok asm
  | _ => (x.operands names).expand x.asm

/-- How a message cites an instruction: in print, or as a note on the fault that printing meets. -/
def cited (x : Instr) : Text :=
  match x.text Temp.text with
  | .ok t => t
  | .error f => "%!v(PANIC=String method: " ++ f.message ++ ")"

end Instr

end Lowering
