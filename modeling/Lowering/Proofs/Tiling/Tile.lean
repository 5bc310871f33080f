import Lowering.X86.Rules

/-!
# Tiles

Every rule of the target does the same thing in the same order: it has some subtrees of its node lowered, from
left to right, it takes at most one fresh register, and it appends one block of instructions. A tile is what is
left of a rule once its pattern has been matched: which subtrees are lowered, and which block follows. The rules
come down to about half as many tiles, and the rest of the theory reads rules only through their tiles.
-/

namespace Lowering

/-- A tree that can be lowered on its own. -/
inductive Subtree where
  | stm (s : Stm)
  | exp (e : Exp)

namespace Subtree

/-- The number of nodes of a subtree. -/
def size : Subtree → Nat
  | .stm s => s.size
  | .exp e => e.size

/-- Is the subtree missing? -/
def isHole : Subtree → Bool
  | .stm s => Kind.stm.isHole s
  | .exp e => Kind.exp.isHole e

end Subtree

namespace X86

/-- The top of a tree as the rules cover it. -/
inductive Tile where
  | store (addr src : Exp) (disp : Word)
  | storeConst (addr : Exp) (disp value : Word)
  | storeAt (addr : Word) (src : Exp)
  | setConst (dst : Temp) (value : Word)
  | setLoad (dst : Temp) (addr : Exp) (disp : Word)
  | setCopy (dst : Temp) (src : Exp)
  | drop (e : Exp)
  | label (name : Label)
  | seq (first second : Stm)
  | jump (name : Label)
  | jumpReg (target : Exp) (labels : List Label)
  | branchConst (rel : Rel) (left : Exp) (right : Word) (ifTrue ifFalse : Label)
  | branch (rel : Rel) (left right : Exp) (ifTrue ifFalse : Label)
  | load (addr : Exp) (disp : Word)
  | loadAt (addr : Word)
  | arithConst (op : Arith) (left : Exp) (right : Word)
  | arith (op : Arith) (left right : Exp)
  | mulConst (left : Exp) (right : Word)
  | mul (left right : Exp)
  | div (left right : Exp)
  | shiftConst (op : Shift) (left : Exp) (count : Word)
  | shift (op : Shift) (left count : Exp)
  | const (value : Word)
  | temp (reg : Temp)
  | name (label : Label)
  | eseq (s : Stm) (e : Exp)
  | call (func : Label) (args : List Exp)
  | callReg (func : Exp) (args : List Exp)

/-- The value of an expression that is a constant. -/
def constOf? : Exp → Option Word
  | .const i => some i
  | _ => none

/-! ### Arguments of calls -/

/-- The arguments that need a register. -/
def registerArgs (args : List Exp) : List Exp := args.filter (constOf? · |>.isNone)

/-- Arguments as they are pushed, given the registers of those that need one. -/
def placeArgs : List Exp → List Temp → List (Word ⊕ Temp)
  | [], _ => []
  | e :: rest, regs =>
    match constOf? e with
    | some i => .inl i :: placeArgs rest regs
    | none => .inr (regs.headD ⟨0⟩) :: placeArgs rest regs.tail

/-- The block of a call: arguments are pushed from right to left and taken off again. -/
def callBlock (call : Instr) (args : List (Word ⊕ Temp)) (fresh : Temp) : List Instr :=
  args.reverse.map push ++ [call] ++
    (if args.length ≠ 0 then [oper (.pop (args.length * wordSize)) [stackPointer] [stackPointer]] else []) ++
    [copy fresh resultRegister]

namespace Tile

/-- The subtrees that a tile has lowered, in order. -/
def parts : Tile → List Subtree
  | .store addr src _ => [.exp addr, .exp src]
  | .storeConst addr _ _ => [.exp addr]
  | .storeAt _ src => [.exp src]
  | .setConst _ _ => []
  | .setLoad _ addr _ => [.exp addr]
  | .setCopy _ src => [.exp src]
  | .drop e => [.exp e]
  | .label _ => []
  | .seq first second => [.stm first, .stm second]
  | .jump _ => []
  | .jumpReg target _ => [.exp target]
  | .branchConst _ left _ _ _ => [.exp left]
  | .branch _ left right _ _ => [.exp left, .exp right]
  | .load addr _ => [.exp addr]
  | .loadAt _ => []
  | .arithConst _ left _ => [.exp left]
  | .arith _ left right => [.exp left, .exp right]
  | .mulConst left _ => [.exp left]
  | .mul left right => [.exp left, .exp right]
  | .div left right => [.exp left, .exp right]
  | .shiftConst _ left _ => [.exp left]
  | .shift _ left count => [.exp left, .exp count]
  | .const _ => []
  | .temp _ => []
  | .name _ => []
  | .eseq s e => [.stm s, .exp e]
  | .call _ args => (registerArgs args).map .exp
  | .callReg func args => .exp func :: (registerArgs args).map .exp

/-- Does a tile take a fresh register? -/
def takesFresh : Tile → Bool
  | .load .. | .loadAt _ | .arithConst .. | .arith .. | .mulConst .. | .mul .. | .div .. | .shiftConst ..
  | .shift .. | .const _ | .name _ | .call .. | .callReg .. => true
  | _ => false

/-- The instructions of a tile, given the registers of its parts and the fresh one. -/
def block (tile : Tile) (regs : List Temp) (fresh : Temp) : List Instr :=
  let a := regs.getD 0 ⟨0⟩
  let b := regs.getD 1 ⟨0⟩
  match tile with
  | .store _ _ disp => [oper (.store disp) [] [a, b]]
  | .storeConst _ disp value => [oper (.storeConst disp value) [] [a]]
  | .storeAt addr _ => [oper (.storeAt addr) [] [a]]
  | .setConst dst value => [oper (.loadConst value) [dst] []]
  | .setLoad dst _ disp => [oper (.load disp) [dst] [a]]
  | .setCopy dst _ => [copy dst a]
  | .drop _ => []
  | .label l => [.label (l ++ ":") l]
  | .seq _ _ => []
  | .jump l => [.oper Form.jump.asm [] [] [l] []]
  | .jumpReg _ labels => [.oper Form.jumpReg.asm [] [a] labels []]
  | .branchConst rel _ right ifTrue ifFalse => [oper (.cmpConst right) [] [a], X86.branch rel ifTrue ifFalse]
  | .branch rel _ _ ifTrue ifFalse => [oper .cmp [] [a, b], X86.branch rel ifTrue ifFalse]
  | .load _ disp => [oper (.load disp) [fresh] [a]]
  | .loadAt addr => [oper (.loadAt addr) [fresh] []]
  | .arithConst op _ right => [copy fresh a, oper (.arithConst op right) [fresh] [fresh]]
  | .arith op _ _ => [copy fresh a, oper (.arith op) [fresh] [fresh, b]]
  | .mulConst _ right => [oper (.mulConst right) [fresh] [a]]
  | .mul _ _ => [copy fresh a, oper .mul [fresh] [fresh, b]]
  | .div _ _ =>
    [copy Register.eax.temp a,
     oper .signExtend [Register.edx.temp] [Register.eax.temp],
     oper .div [Register.eax.temp, Register.edx.temp] [b, Register.eax.temp, Register.edx.temp],
     copy fresh Register.eax.temp]
  | .shiftConst op _ count => [copy fresh a, oper (.shiftConst op count) [fresh] [fresh]]
  | .shift op _ _ =>
    [copy fresh a, copy Register.ecx.temp b, oper (.shift op) [fresh] [fresh, Register.ecx.temp]]
  | .const value => [oper (.loadConst value) [fresh] []]
  | .temp _ => []
  | .name l => [.oper Form.loadSymbol.asm [fresh] [] [] [l]]
  | .eseq _ _ => []
  | .call func args => callBlock (.oper Form.call.asm callerSaved [] [] [func]) (placeArgs args regs) fresh
  | .callReg _ args => callBlock (oper .callReg callerSaved [a]) (placeArgs args regs.tail) fresh

/-- The register that holds the value of an expression, given those of its parts and the fresh one. -/
def value (tile : Tile) (regs : List Temp) (fresh : Temp) : Temp :=
  match tile with
  | .temp reg => reg
  | .eseq _ _ => regs.getD 0 ⟨0⟩
  | _ => fresh

end Tile

/-! ### Which tile covers a tree -/

/-- An address as instructions write it. -/
inductive Address where
  /-- A register plus a displacement, and whether a constant can be stored there without a register. -/
  | based (base : Exp) (disp : Word) (takesConst : Bool)
  | absolute (addr : Word)

/-- How the rules read an address. -/
def addressOf : Exp → Address
  | .bin .plus e f =>
    match constOf? f, constOf? e with
    | some i, _ => .based e i true
    | none, some i => .based f i false
    | none, none => .based (.bin .plus e f) 0 true
  | .bin .minus e f =>
    match constOf? f with
    | some i => .based e (-i) false
    | none => .based (.bin .minus e f) 0 true
  | .const i => .absolute i
  | e => .based e 0 true

def loadTile (addr : Exp) : Tile :=
  match addressOf addr with
  | .based e disp _ => .load e disp
  | .absolute i => .loadAt i

def storeTile (addr src : Exp) : Tile :=
  match addressOf addr, constOf? src with
  | .based e disp true, some j => .storeConst e disp j
  | .based e disp _, _ => .store e src disp
  | .absolute i, _ => .storeAt i src

/-- A load straight into a register is known only for one form of address. -/
def setTile (dst : Temp) : Exp → Tile
  | .const i => .setConst dst i
  | .mem (.bin .plus e f) =>
    match constOf? f with
    | some i => .setLoad dst e i
    | none => .setCopy dst (.mem (.bin .plus e f))
  | e => .setCopy dst e

def branchTile (rel : Rel) (left right : Exp) (ifTrue ifFalse : Label) : Tile :=
  match constOf? right, constOf? left with
  | some i, _ => .branchConst rel left i ifTrue ifFalse
  | none, some i => .branchConst rel.commute right i ifTrue ifFalse
  | none, none => .branch rel left right ifTrue ifFalse

def arithTile (op : Arith) (left right : Exp) : Tile :=
  match constOf? right, constOf? left with
  | some i, _ => .arithConst op left i
  | none, some i => if op.commutes then .arithConst op right i else .arith op left right
  | none, none => .arith op left right

def mulTile (left right : Exp) : Tile :=
  match constOf? right, constOf? left with
  | some i, _ => .mulConst left i
  | none, some i => .mulConst right i
  | none, none => .mul left right

def shiftTile (op : Shift) (left right : Exp) : Tile :=
  match constOf? right with
  | some i => .shiftConst op left (i &&& 31)
  | none => .shift op left right

/-- The tile of an operation; numbers outside the list have none. -/
def opTile? : Op → Exp → Exp → Option Tile
  | .plus, e, f => some (arithTile .add e f)
  | .minus, e, f => some (arithTile .sub e f)
  | .mul, e, f => some (mulTile e f)
  | .div, e, f => some (.div e f)
  | .and, e, f => some (arithTile .and e f)
  | .or, e, f => some (arithTile .or e f)
  | .shl, e, f => some (shiftTile .left e f)
  | .shr, e, f => some (shiftTile .right e f)
  | .sar, e, f => some (shiftTile .arithmeticRight e f)
  | .xor, e, f => some (arithTile .xor e f)
  | .other _, _, _ => none

/-- The tile that covers the top of a tree. A missing tree has none. -/
def tile? : Subtree → Option Tile
  | .stm (.move (.mem addr) src) => some (storeTile addr src)
  | .stm (.move (.temp dst) src) => some (setTile dst src)
  | .stm (.exp e) => some (.drop e)
  | .stm (.label name) => some (.label name)
  | .stm (.seq first second) => some (.seq first second)
  | .stm (.jump (.name name) _) => some (.jump name)
  | .stm (.jump target labels) => some (.jumpReg target labels)
  | .stm (.cjump rel left right ifTrue ifFalse) => some (branchTile rel left right ifTrue ifFalse)
  | .exp (.mem addr) => some (loadTile addr)
  | .exp (.bin op left right) => opTile? op left right
  | .exp (.const value) => some (.const value)
  | .exp (.temp reg) => some (.temp reg)
  | .exp (.name label) => some (.name label)
  | .exp (.eseq s e) => some (.eseq s e)
  | .exp (.call (.name func) args) => some (.call func args)
  | .exp (.call func args) => some (.callReg func args)
  | _ => none

/-! ### The ways to cover a tree -/

/-- The forms of tree that a tile covers. Properties of code are read off from these; which form is tried
first no longer matters for them. -/
inductive Covers : Subtree → Tile → Prop where
  | store (addr src : Exp) : Covers (.stm (.move (.mem addr) src)) (.store addr src 0)
  | storeSum (e src : Exp) (i : Word) :
    Covers (.stm (.move (.mem (.bin .plus e (.const i))) src)) (.store e src i)
  | storeSumLeft (e src : Exp) (i : Word) :
    Covers (.stm (.move (.mem (.bin .plus (.const i) e)) src)) (.store e src i)
  | storeDifference (e src : Exp) (i : Word) :
    Covers (.stm (.move (.mem (.bin .minus e (.const i))) src)) (.store e src (-i))
  | storeAt (i : Word) (src : Exp) : Covers (.stm (.move (.mem (.const i)) src)) (.storeAt i src)
  | storeConst (addr : Exp) (j : Word) : Covers (.stm (.move (.mem addr) (.const j))) (.storeConst addr 0 j)
  | storeConstSum (e : Exp) (i j : Word) :
    Covers (.stm (.move (.mem (.bin .plus e (.const i))) (.const j))) (.storeConst e i j)
  | setConst (dst : Temp) (i : Word) : Covers (.stm (.move (.temp dst) (.const i))) (.setConst dst i)
  | setLoad (dst : Temp) (e : Exp) (i : Word) :
    Covers (.stm (.move (.temp dst) (.mem (.bin .plus e (.const i))))) (.setLoad dst e i)
  | setCopy (dst : Temp) (src : Exp) : Covers (.stm (.move (.temp dst) src)) (.setCopy dst src)
  | drop (e : Exp) : Covers (.stm (.exp e)) (.drop e)
  | label (l : Label) : Covers (.stm (.label l)) (.label l)
  | seq (first second : Stm) : Covers (.stm (.seq first second)) (.seq first second)
  | jump (l : Label) (labels : List Label) : Covers (.stm (.jump (.name l) labels)) (.jump l)
  | jumpReg (target : Exp) (labels : List Label) (htarget : ∀ l, target ≠ .name l) :
    Covers (.stm (.jump target labels)) (.jumpReg target labels)
  | branchConst (rel : Rel) (e : Exp) (i : Word) (t f : Label) :
    Covers (.stm (.cjump rel e (.const i) t f)) (.branchConst rel e i t f)
  | branchConstLeft (rel : Rel) (e : Exp) (i : Word) (t f : Label) :
    Covers (.stm (.cjump rel (.const i) e t f)) (.branchConst rel.commute e i t f)
  | branch (rel : Rel) (left right : Exp) (t f : Label) :
    Covers (.stm (.cjump rel left right t f)) (.branch rel left right t f)
  | load (addr : Exp) : Covers (.exp (.mem addr)) (.load addr 0)
  | loadSum (e : Exp) (i : Word) : Covers (.exp (.mem (.bin .plus e (.const i)))) (.load e i)
  | loadSumLeft (e : Exp) (i : Word) : Covers (.exp (.mem (.bin .plus (.const i) e))) (.load e i)
  | loadDifference (e : Exp) (i : Word) : Covers (.exp (.mem (.bin .minus e (.const i)))) (.load e (-i))
  | loadAt (i : Word) : Covers (.exp (.mem (.const i))) (.loadAt i)
  | arithConst (o : Arith) (e : Exp) (i : Word) : Covers (.exp (.bin o.op e (.const i))) (.arithConst o e i)
  | arithConstLeft (o : Arith) (e : Exp) (i : Word) (hcommutes : o.commutes = true) :
    Covers (.exp (.bin o.op (.const i) e)) (.arithConst o e i)
  | arith (o : Arith) (left right : Exp) : Covers (.exp (.bin o.op left right)) (.arith o left right)
  | mulConst (e : Exp) (i : Word) : Covers (.exp (.bin .mul e (.const i))) (.mulConst e i)
  | mulConstLeft (e : Exp) (i : Word) : Covers (.exp (.bin .mul (.const i) e)) (.mulConst e i)
  | mul (left right : Exp) : Covers (.exp (.bin .mul left right)) (.mul left right)
  | div (left right : Exp) : Covers (.exp (.bin .div left right)) (.div left right)
  | shiftConst (o : Shift) (e : Exp) (i : Word) :
    Covers (.exp (.bin o.op e (.const i))) (.shiftConst o e (i &&& 31))
  | shift (o : Shift) (left right : Exp) (hright : constOf? right = none) :
    Covers (.exp (.bin o.op left right)) (.shift o left right)
  | const (i : Word) : Covers (.exp (.const i)) (.const i)
  | temp (t : Temp) : Covers (.exp (.temp t)) (.temp t)
  | name (l : Label) : Covers (.exp (.name l)) (.name l)
  | eseq (s : Stm) (e : Exp) : Covers (.exp (.eseq s e)) (.eseq s e)
  | call (l : Label) (args : List Exp) : Covers (.exp (.call (.name l) args)) (.call l args)
  | callReg (func : Exp) (args : List Exp) (hfunc : ∀ l, func ≠ .name l) :
    Covers (.exp (.call func args)) (.callReg func args)

@[simp] theorem constOf?_const (i : Word) : constOf? (.const i) = some i := rfl

theorem eq_const_of_constOf? {e : Exp} {i : Word} (he : constOf? e = some i) : e = .const i := by
  cases e with
  | const j => exact congrArg Exp.const (Option.some.inj he)
  | _ => cases he

namespace Covers

theorem of_storeTile (addr src : Exp) : Covers (.stm (.move (.mem addr) src)) (storeTile addr src) := by
  have hplain (haddr : addressOf addr = .based addr 0 true) :
      Covers (.stm (.move (.mem addr) src)) (storeTile addr src) := by
    cases hsrc : constOf? src with
    | some j =>
      obtain rfl := eq_const_of_constOf? hsrc
      simpa [storeTile, haddr] using storeConst addr j
    | none => simpa [storeTile, haddr, hsrc] using store addr src
  cases addr with
  | bin op e f =>
    cases op with
    | plus =>
      cases hf : constOf? f with
      | some i =>
        obtain rfl := eq_const_of_constOf? hf
        cases hsrc : constOf? src with
        | some j =>
          obtain rfl := eq_const_of_constOf? hsrc
          exact storeConstSum e i j
        | none => simpa [storeTile, addressOf, hsrc] using storeSum e src i
      | none =>
        cases he : constOf? e with
        | some i =>
          obtain rfl := eq_const_of_constOf? he
          simpa [storeTile, addressOf, hf] using storeSumLeft f src i
        | none => exact hplain (by simp [addressOf, hf, he])
    | minus =>
      cases hf : constOf? f with
      | some i =>
        obtain rfl := eq_const_of_constOf? hf
        simpa [storeTile, addressOf] using storeDifference e src i
      | none => exact hplain (by simp [addressOf, hf])
    | _ => exact hplain rfl
  | const i => exact storeAt i src
  | _ => exact hplain rfl

theorem of_loadTile (addr : Exp) : Covers (.exp (.mem addr)) (loadTile addr) := by
  cases addr with
  | bin op e f =>
    cases op with
    | plus =>
      cases hf : constOf? f with
      | some i =>
        obtain rfl := eq_const_of_constOf? hf
        exact loadSum e i
      | none =>
        cases he : constOf? e with
        | some i =>
          obtain rfl := eq_const_of_constOf? he
          simpa [loadTile, addressOf, hf] using loadSumLeft f i
        | none => simpa [loadTile, addressOf, hf, he] using load (.bin .plus e f)
    | minus =>
      cases hf : constOf? f with
      | some i =>
        obtain rfl := eq_const_of_constOf? hf
        exact loadDifference e i
      | none => simpa [loadTile, addressOf, hf] using load (.bin .minus e f)
    | _ => exact load _
  | const i => exact loadAt i
  | _ => exact load _

theorem of_setTile (dst : Temp) (src : Exp) : Covers (.stm (.move (.temp dst) src)) (setTile dst src) := by
  cases src with
  | const i => exact setConst dst i
  | mem addr =>
    cases addr with
    | bin op e f =>
      cases op with
      | plus =>
        cases hf : constOf? f with
        | some i =>
          obtain rfl := eq_const_of_constOf? hf
          exact setLoad dst e i
        | none => simpa [setTile, hf] using setCopy dst (.mem (.bin .plus e f))
      | _ => exact setCopy dst _
    | _ => exact setCopy dst _
  | _ => exact setCopy dst _

theorem of_branchTile (rel : Rel) (left right : Exp) (t f : Label) :
    Covers (.stm (.cjump rel left right t f)) (branchTile rel left right t f) := by
  cases hright : constOf? right with
  | some i =>
    obtain rfl := eq_const_of_constOf? hright
    exact branchConst rel left i t f
  | none =>
    cases hleft : constOf? left with
    | some i =>
      obtain rfl := eq_const_of_constOf? hleft
      simpa [branchTile, hright] using branchConstLeft rel right i t f
    | none => simpa [branchTile, hright, hleft] using branch rel left right t f

theorem of_arithTile (o : Arith) (left right : Exp) :
    Covers (.exp (.bin o.op left right)) (arithTile o left right) := by
  cases hright : constOf? right with
  | some i =>
    obtain rfl := eq_const_of_constOf? hright
    exact arithConst o left i
  | none =>
    cases hleft : constOf? left with
    | some i =>
      obtain rfl := eq_const_of_constOf? hleft
      cases hcommutes : o.commutes with
      | true => simpa [arithTile, hright, hcommutes] using arithConstLeft o right i hcommutes
      | false => simpa [arithTile, hright, hcommutes] using arith o (.const i) right
    | none => simpa [arithTile, hright, hleft] using arith o left right

theorem of_mulTile (left right : Exp) : Covers (.exp (.bin .mul left right)) (mulTile left right) := by
  cases hright : constOf? right with
  | some i =>
    obtain rfl := eq_const_of_constOf? hright
    exact mulConst left i
  | none =>
    cases hleft : constOf? left with
    | some i =>
      obtain rfl := eq_const_of_constOf? hleft
      simpa [mulTile, hright] using mulConstLeft right i
    | none => simpa [mulTile, hright, hleft] using mul left right

theorem of_shiftTile (o : Shift) (left right : Exp) :
    Covers (.exp (.bin o.op left right)) (shiftTile o left right) := by
  cases hright : constOf? right with
  | some i =>
    obtain rfl := eq_const_of_constOf? hright
    exact shiftConst o left i
  | none => simpa [shiftTile, hright] using shift o left right hright

end Covers

theorem covers_of_opTile? {op : Op} {left right : Exp} {tile : Tile} (htile : opTile? op left right = some tile) :
    Covers (.exp (.bin op left right)) tile := by
  cases op with
  | other n => cases htile
  | plus => cases htile; exact .of_arithTile .add left right
  | minus => cases htile; exact .of_arithTile .sub left right
  | mul => cases htile; exact .of_mulTile left right
  | div => cases htile; exact .div left right
  | and => cases htile; exact .of_arithTile .and left right
  | or => cases htile; exact .of_arithTile .or left right
  | shl => cases htile; exact .of_shiftTile .left left right
  | shr => cases htile; exact .of_shiftTile .right left right
  | sar => cases htile; exact .of_shiftTile .arithmeticRight left right
  | xor => cases htile; exact .of_arithTile .xor left right

theorem covers_of_tile? {x : Subtree} {tile : Tile} (htile : tile? x = some tile) : Covers x tile := by
  cases x with
  | stm s =>
    cases s with
    | hole => cases htile
    | move dst src =>
      cases dst with
      | mem addr => cases htile; exact .of_storeTile addr src
      | temp dst => cases htile; exact .of_setTile dst src
      | _ => cases htile
    | exp e => cases htile; exact .drop e
    | label l => cases htile; exact .label l
    | seq first second => cases htile; exact .seq first second
    | jump target labels =>
      cases target with
      | name l => cases htile; exact .jump l labels
      | _ => cases htile; exact .jumpReg _ labels fun _ => Exp.noConfusion
    | cjump rel left right t f => cases htile; exact .of_branchTile rel left right t f
  | exp e =>
    cases e with
    | hole => cases htile
    | const i => cases htile; exact .const i
    | temp t => cases htile; exact .temp t
    | bin op left right => exact covers_of_opTile? htile
    | mem addr => cases htile; exact .of_loadTile addr
    | call func args =>
      cases func with
      | name l => cases htile; exact .call l args
      | _ => cases htile; exact .callReg _ args fun _ => Exp.noConfusion
    | name l => cases htile; exact .name l
    | eseq s e => cases htile; exact .eseq s e

end X86

end Lowering
