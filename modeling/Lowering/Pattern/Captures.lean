import Lowering.Pattern.Kind

/-!
# Captures

A wildcard is a numbered slot of one kind. Captures hold what the wildcards of a pattern stood for, in the
order of the slots; a slot that is filled twice keeps the later value.
-/

namespace Lowering

/-- A slot that a pattern can fill with a thing of kind `k`. -/
structure Wildcard (k : Kind) where
  slot : Nat
  deriving DecidableEq, Repr

/-- A wildcard is written `_` with its slot, a colon and its kind. -/
def Wildcard.text {k : Kind} (w : Wildcard k) : Text := "_" ++ Text.ofNat w.slot ++ ":" ++ k.text

/-- What a wildcard stood for. -/
structure Capture where
  slot : Nat
  kind : Kind
  value : kind.Value

/-- The captures of one match, in the order of their slots. -/
abbrev Captures := List Capture

namespace Captures

/-- Fills a slot, over what was there. -/
def bind {k : Kind} (w : Wildcard k) (v : k.Value) : Captures → Captures
  | [] => [⟨w.slot, k, v⟩]
  | c :: rest =>
    if w.slot < c.slot then ⟨w.slot, k, v⟩ :: c :: rest
    else if w.slot = c.slot then ⟨w.slot, k, v⟩ :: rest
    else c :: bind w v rest

/-- What a wildcard stood for, if it is bound. -/
def get? {k : Kind} (w : Wildcard k) : Captures → Option k.Value
  | [] => none
  | c :: rest =>
    if c.slot = w.slot then
      if h : c.kind = k then some (h ▸ c.value) else none
    else get? w rest

/-- What a wildcard stood for. It is a fault to read one that is not bound or that captured a hole. -/
def read {k : Kind} (w : Wildcard k) (cs : Captures) : Except Fault k.Value :=
  match cs.get? w with
  | none => .error (.unbound w.text)
  | some v => if k.isHole v then .error .holeRead else .ok v

end Captures

end Lowering
