import Lowering.Temp

/-!
# x86 registers

The eight general registers of a 32-bit x86, numbered from one.
-/

namespace Lowering.X86

/-- A general register. -/
inductive Register where
  | eax
  | ecx
  | edx
  | ebx
  | esp
  | ebp
  | esi
  | edi
  deriving DecidableEq, Repr

namespace Register

/-- All registers, in the order of their numbers. -/
def all : List Register := [.eax, .ecx, .edx, .ebx, .esp, .ebp, .esi, .edi]

/-- The number of a register. -/
def number : Register → Nat
  | .eax => 1
  | .ecx => 2
  | .edx => 3
  | .ebx => 4
  | .esp => 5
  | .ebp => 6
  | .esi => 7
  | .edi => 8

def text : Register → Text
  | .eax => "eax"
  | .ecx => "ecx"
  | .edx => "edx"
  | .ebx => "ebx"
  | .esp => "esp"
  | .ebp => "ebp"
  | .esi => "esi"
  | .edi => "edi"

/-- The fixed register that stands for a machine register. -/
def temp (r : Register) : Temp := ⟨-(r.number : Int)⟩

/-- The machine register with a given number. -/
def ofNumber? (n : Nat) : Option Register := all.find? (·.number == n)

end Register

/-- The frame pointer. -/
def framePointer : Temp := Register.ebp.temp

/-- The stack pointer. -/
def stackPointer : Temp := Register.esp.temp

/-- The register that holds the result of a call. -/
def resultRegister : Temp := Register.eax.temp

/-- The registers that a function hands back as it found them. -/
def calleeSaved : List Temp := [Register.ebx.temp, Register.esi.temp, Register.edi.temp]

/-- The registers that a call may change. -/
def callerSaved : List Temp := [Register.eax.temp, Register.ecx.temp, Register.edx.temp]

/-- The size of a word in bytes. -/
def wordSize : Nat := 4

/-- The name of a register: fixed ones go by the name of the machine register, if there is one. -/
def tempName (t : Temp) : Text :=
  match t.reg?.bind fun r => Register.ofNumber? r.toNat with
  | some r => r.text
  | none => t.text

end Lowering.X86
