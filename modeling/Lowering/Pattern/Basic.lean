import Lowering.Pattern.Captures

/-!
# Patterns

A pattern of a kind describes some things of that kind and captures parts of them. Parts are matched from
left to right, and matching stops at the first part that does not fit, or at the first literal that cannot be
compared with what stands there, which is a fault.
-/

namespace Lowering

/-- A description of things of kind `k`. -/
inductive Pattern : Kind → Type where
  /-- Fits anything. -/
  | any {k : Kind} : Pattern k
  /-- Fits anything and captures it. -/
  | wild {k : Kind} (w : Wildcard k) : Pattern k
  /-- Fits what agrees with `v`. -/
  | lit {k : Kind} (v : k.Value) : Pattern k
  | move (dst src : Pattern .exp) : Pattern .stm
  | exp (e : Pattern .exp) : Pattern .stm
  | label (name : Pattern .label) : Pattern .stm
  | seq (first second : Pattern .stm) : Pattern .stm
  | jump (target : Pattern .exp) (labels : Pattern .labels) : Pattern .stm
  | cjump (rel : Pattern .rel) (left right : Pattern .exp) (ifTrue ifFalse : Pattern .label) : Pattern .stm
  | const (value : Pattern .word) : Pattern .exp
  | temp (reg : Pattern .temp) : Pattern .exp
  | bin (op : Pattern .op) (left right : Pattern .exp) : Pattern .exp
  | mem (addr : Pattern .exp) : Pattern .exp
  | call (func : Pattern .exp) (args : Pattern .exps) : Pattern .exp
  | name (label : Pattern .label) : Pattern .exp
  | eseq (s : Pattern .stm) (e : Pattern .exp) : Pattern .exp

/-- A pattern does not fit. -/
inductive Misfit where
  | misfit
  deriving DecidableEq, Repr

namespace Pattern

instance {k : Kind} : Coe (Wildcard k) (Pattern k) := ⟨.wild⟩

/-- An application of one operator. -/
def binary (op : Op) (left right : Pattern .exp) : Pattern .exp := .bin (.lit op) left right

/-- Compares a thing with a literal. -/
def fitLiteral {k : Kind} (v x : k.Value) (cs : Captures) : Except (Stop Misfit) Captures :=
  match k.agrees x v with
  | .ok true => .ok cs
  | .ok false => .error (.failed .misfit)
  | .error f => .error (.fault f)

/-- Matches a thing and adds what it captures to `cs`. -/
def fitFrom : {k : Kind} → Pattern k → k.Value → Captures → Except (Stop Misfit) Captures
  | _, .any, _, cs => .ok cs
  | _, .wild w, v, cs => .ok (cs.bind w v)
  | _, .lit v, x, cs => fitLiteral v x cs
  | _, .move d s, n, cs =>
    match n with
    | .move dst src => (fitFrom d dst cs).bind (fitFrom s src)
    | _ => .error (.failed .misfit)
  | _, .exp e, n, cs =>
    match n with
    | .exp x => fitFrom e x cs
    | _ => .error (.failed .misfit)
  | _, .label l, n, cs =>
    match n with
    | .label x => fitFrom l x cs
    | _ => .error (.failed .misfit)
  | _, .seq a b, n, cs =>
    match n with
    | .seq first second => (fitFrom a first cs).bind (fitFrom b second)
    | _ => .error (.failed .misfit)
  | _, .jump t ls, n, cs =>
    match n with
    | .jump target labels => (fitFrom t target cs).bind (fitFrom ls labels)
    | _ => .error (.failed .misfit)
  | _, .cjump o l r t f, n, cs =>
    match n with
    | .cjump rel left right ifTrue ifFalse => do
      let cs ← fitFrom o rel cs
      let cs ← fitFrom l left cs
      let cs ← fitFrom r right cs
      let cs ← fitFrom t ifTrue cs
      fitFrom f ifFalse cs
    | _ => .error (.failed .misfit)
  | _, .const v, n, cs =>
    match n with
    | .const value => fitFrom v value cs
    | _ => .error (.failed .misfit)
  | _, .temp t, n, cs =>
    match n with
    | .temp reg => fitFrom t reg cs
    | _ => .error (.failed .misfit)
  | _, .bin o l r, n, cs =>
    match n with
    | .bin op left right => do
      let cs ← fitFrom o op cs
      let cs ← fitFrom l left cs
      fitFrom r right cs
    | _ => .error (.failed .misfit)
  | _, .mem a, n, cs =>
    match n with
    | .mem addr => fitFrom a addr cs
    | _ => .error (.failed .misfit)
  | _, .call f as, n, cs =>
    match n with
    | .call func args => (fitFrom f func cs).bind (fitFrom as args)
    | _ => .error (.failed .misfit)
  | _, .name l, n, cs =>
    match n with
    | .name x => fitFrom l x cs
    | _ => .error (.failed .misfit)
  | _, .eseq s e, n, cs =>
    match n with
    | .eseq x y => (fitFrom s x cs).bind (fitFrom e y)
    | _ => .error (.failed .misfit)

/-- The captures of a match; it fails if the pattern does not fit. -/
def fit {k : Kind} (p : Pattern k) (v : k.Value) : Except (Stop Misfit) Captures := fitFrom p v []

end Pattern

end Lowering
