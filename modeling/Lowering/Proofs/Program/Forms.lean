import Lowering.Program.Build

/-!
# The forms of a body

Which forms the builder knows, and what it does with each. A form it does not know, because of its head or the number of
its parts, is an error at once. The cases are told apart here and nowhere else: what is to be shown of every form is
shown of these shapes.
-/

namespace Lowering.Program

/-! ### Heads -/

theorem items_of_headOf {items : List SExpr} {head : Text} (hitems : headOf items = head) (hhead : head ≠ []) :
    ∃ span parts, items = .atom span head :: parts := by
  match items with
  | .atom span text :: parts => exact ⟨span, parts, by rw [← hitems]; rfl⟩
  | .int .. :: _ | .list .. :: _ | [] => exact absurd hitems.symm hhead

theorem items_of_stmHead {items : List SExpr} {head : StmHead} (h : StmHead.ofText? (headOf items) = some head) :
    ∃ at' parts, items = .atom at' head.text :: parts := by
  have htext : head.text = headOf items := by simpa using List.find?_some h
  exact items_of_headOf htext.symm (by cases head <;> decide)

theorem items_of_expHead {items : List SExpr} {head : ExpHead} (h : ExpHead.ofText? (headOf items) = some head) :
    ∃ at' parts, items = .atom at' head.text :: parts := by
  have htext : head.text = headOf items := by simpa using List.find?_some h
  exact items_of_headOf htext.symm (by cases head <;> decide)

theorem items_of_op {items : List SExpr} {op : Op} (h : Op.ofText? (headOf items) = some op) :
    op ∈ Op.listed ∧ ∃ at' parts, items = .atom at' op.text :: parts := by
  have hop : op ∈ Op.listed := List.mem_of_find?_eq_some h
  have htext : op.text = headOf items := by simpa using List.find?_some h
  refine ⟨hop, items_of_headOf htext.symm ?_⟩
  revert hop
  cases op with
  | other code => exact fun hop => absurd hop (by simp [Op.listed])
  | _ => exact fun _ => by decide

theorem rel_ofText {rel : Rel} (hrel : rel ∈ Rel.listed) : Rel.ofText? rel.text = some rel := by
  revert rel
  decide

theorem op_ofText {op : Op} (hop : op ∈ Op.listed) : Op.ofText? op.text = some op := by
  revert op
  decide

/-- Operators are no heads of other expressions. -/
theorem expHead_op {op : Op} (hop : op ∈ Op.listed) : ExpHead.ofText? op.text = none := by
  revert op
  decide

/-! ### Statements -/

/-- What the builder does with each form of statement. -/
structure StmRules (S : Supply) (src : Source) : Prop where
  move (span at' : Span) (d s : SExpr) : buildStm src (.list span [.atom at' "move", d, s]) = do
    let dst ← Building.within .moveDst (buildExp src d)
    if !isDestination dst then
      Building.fail src d (.moveTo dst)
    let value ← Building.within .moveSrc (buildExp src s)
    return .move dst value
  exp (span at' : Span) (e : SExpr) : buildStm src (.list span [.atom at' "exp", e]) = do
    let value ← buildExp src e
    return .exp value
  label (span at' : Span) (l : SExpr) : buildStm src (.list span [.atom at' "label", l]) = do
    let name ← Building.ofExcept (nameOf src l)
    return .label name
  seq (span at' : Span) (parts : List SExpr) : buildStm src (.list span (.atom at' "seq" :: parts)) = do
    let stms ← buildSeq src 0 parts
    return Stm.seqs stms
  goto (span at' : Span) (l : SExpr) : buildStm src (.list span [.atom at' "jump", l]) = do
    let name ← Building.ofExcept (nameOf src l)
    return Stm.goto name
  jump (span at' : Span) (t l : SExpr) (ls : List SExpr) :
    buildStm src (.list span (.atom at' "jump" :: t :: l :: ls)) = do
      let target ← Building.within .jumpTarget (buildExp src t)
      let labels ← labelsOf src (l :: ls)
      return .jump target labels
  cjump (span at' : Span) (o l r t f : SExpr) :
    buildStm src (.list span [.atom at' "cjump", o, l, r, t, f]) = do
      let name ← Building.ofExcept (nameOf src o)
      match Rel.ofText? name with
      | none => Building.fail src o (.unknownRelation name)
      | some rel =>
        let left ← Building.within .left (buildExp src l)
        let right ← Building.within .right (buildExp src r)
        let ifTrue ← Building.ofExcept (nameOf src t)
        let ifFalse ← Building.ofExcept (nameOf src f)
        return .cjump rel left right ifTrue ifFalse

theorem stmRules [S : Supply] (src : Source) : StmRules S src := by
  constructor <;> intros <;> rw [buildStm.eq_def] <;> rfl

/-- A form of a statement that the builder knows, or an error at once. -/
inductive StmShape (src : Source) : SExpr → Prop where
  | move (span at' : Span) (d s : SExpr) : StmShape src (.list span [.atom at' "move", d, s])
  | exp (span at' : Span) (e : SExpr) : StmShape src (.list span [.atom at' "exp", e])
  | label (span at' : Span) (l : SExpr) : StmShape src (.list span [.atom at' "label", l])
  | seq (span at' : Span) (parts : List SExpr) : StmShape src (.list span (.atom at' "seq" :: parts))
  | goto (span at' : Span) (l : SExpr) : StmShape src (.list span [.atom at' "jump", l])
  | jump (span at' : Span) (t l : SExpr) (ls : List SExpr) :
    StmShape src (.list span (.atom at' "jump" :: t :: l :: ls))
  | cjump (span at' : Span) (o l r t f : SExpr) : StmShape src (.list span [.atom at' "cjump", o, l, r, t, f])
  | wrong {x : SExpr} (h : ∀ [Supply] w, ∃ e, (buildStm src x).run.run w = (.error (.failed e), w)) : StmShape src x

theorem stmShape (src : Source) (x : SExpr) : StmShape src x := by
  match x with
  | .atom .. | .int .. => exact .wrong fun w => ⟨_, by unfold buildStm; rfl⟩
  | .list span items =>
    cases hhead : StmHead.ofText? (headOf items) with
    | none =>
      refine .wrong fun w => ⟨errorAt src (.list span items) (.unknownStatement (headOf items)), ?_⟩
      unfold buildStm
      dsimp only
      rw [hhead]
      rfl
    | some head =>
      obtain ⟨at', parts, rfl⟩ := items_of_stmHead hhead
      cases head with
      | move =>
        match parts with
        | [d, s] => exact .move span at' d s
        | [] | [_] | _ :: _ :: _ :: _ => exact .wrong fun w => ⟨_, by unfold buildStm; rfl⟩
      | exp =>
        match parts with
        | [e] => exact .exp span at' e
        | [] | _ :: _ :: _ => exact .wrong fun w => ⟨_, by unfold buildStm; rfl⟩
      | label =>
        match parts with
        | [l] => exact .label span at' l
        | [] | _ :: _ :: _ => exact .wrong fun w => ⟨_, by unfold buildStm; rfl⟩
      | seq => exact .seq span at' parts
      | jump =>
        match parts with
        | [l] => exact .goto span at' l
        | t :: l :: ls => exact .jump span at' t l ls
        | [] => exact .wrong fun w => ⟨_, by unfold buildStm; rfl⟩
      | cjump =>
        match parts with
        | [o, l, r, t, f] => exact .cjump span at' o l r t f
        | [] | [_] | [_, _] | [_, _, _] | [_, _, _, _] | _ :: _ :: _ :: _ :: _ :: _ :: _ =>
          exact .wrong fun w => ⟨_, by unfold buildStm; rfl⟩

/-! ### Expressions -/

/-- The storage of a formal, or an error about its number. -/
def formalAt (src : Source) (nspan : Span) (value : Int) : Building Exp := do
  let formals := (← get).frame.formals
  match (if value < 0 then none else formals[value.toNat]?) with
  | some a => return a.exp X86.framePointerExp
  | none => Building.fail src (.int nspan value) (.formalRange formals.length)

/-- What the builder does with each form of expression other than an operator's. -/
structure ExpRules (S : Supply) (src : Source) : Prop where
  int (span : Span) (value : Int) : buildExp src (.int span value) = constant src (.int span value) value
  framePointer (span : Span) : buildExp src (.atom span "fp") = return X86.framePointerExp
  result (span : Span) : buildExp src (.atom span "rv") = return X86.resultExp
  const (span at' vspan : Span) (value : Int) :
    buildExp src (.list span [.atom at' "const", .int vspan value]) = constant src (.int vspan value) value
  temp (span at' : Span) (n : SExpr) : buildExp src (.list span [.atom at' "temp", n]) = do
    let name ← Building.ofExcept (nameOf src n)
    let t ← Building.namedTemp name
    return .temp t
  formal (span at' nspan : Span) (value : Int) :
    buildExp src (.list span [.atom at' "formal", .int nspan value]) = formalAt src nspan value
  «local» (span at' : Span) (n flag : SExpr) : buildExp src (.list span [.atom at' "local", n, flag]) = do
    let name ← Building.ofExcept (nameOf src n)
    let escapes ← Building.ofExcept (flagOf src flag)
    let a ← Building.namedLocal name escapes
    return a.exp X86.framePointerExp
  mem (span at' : Span) (a : SExpr) : buildExp src (.list span [.atom at' "mem", a]) = do
    let addr ← Building.within .mem (buildExp src a)
    return .mem addr
  name (span at' : Span) (l : SExpr) : buildExp src (.list span [.atom at' "name", l]) = do
    let name ← Building.ofExcept (nameOf src l)
    return .name name
  call (span at' : Span) (f : SExpr) (args : List SExpr) :
    buildExp src (.list span (.atom at' "call" :: f :: args)) = do
      let func ← Building.within .callTarget (buildExp src f)
      let values ← buildArgs src 0 args
      return .call func values
  eseq (span at' : Span) (s e : SExpr) : buildExp src (.list span [.atom at' "eseq", s, e]) = do
    let stm ← Building.within .eseqStm (buildStm src s)
    let value ← Building.within .eseqExp (buildExp src e)
    return .eseq stm value

theorem expRules [S : Supply] (src : Source) : ExpRules S src := by
  constructor <;> intros <;> rw [buildExp.eq_def] <;> rfl

theorem buildExp_op [S : Supply] (src : Source) (span at' : Span) {op : Op} (hop : op ∈ Op.listed)
    (parts : List SExpr) :
    buildExp src (.list span (.atom at' op.text :: parts)) =
      match parts with
      | [l, r] => do
        let left ← Building.within (.opLeft op) (buildExp src l)
        let right ← Building.within (.opRight op) (buildExp src r)
        return .bin op left right
      | parts => wrongArity src span (.atom at' op.text :: parts) 2 := by
  rw [buildExp.eq_def]
  dsimp only [headOf]
  rw [expHead_op hop]
  dsimp only
  rw [op_ofText hop]
  match parts with
  | [] | [_] | [_, _] | _ :: _ :: _ :: _ => rfl

theorem buildExp_bin [S : Supply] (src : Source) (span at' : Span) {op : Op} (hop : op ∈ Op.listed) (l r : SExpr) :
    buildExp src (.list span [.atom at' op.text, l, r]) = do
      let left ← Building.within (.opLeft op) (buildExp src l)
      let right ← Building.within (.opRight op) (buildExp src r)
      return .bin op left right := buildExp_op src span at' hop [l, r]

/-- A form of an expression that the builder knows, or an error at once. -/
inductive ExpShape (src : Source) : SExpr → Prop where
  | int (span : Span) (value : Int) : ExpShape src (.int span value)
  | framePointer (span : Span) : ExpShape src (.atom span "fp")
  | result (span : Span) : ExpShape src (.atom span "rv")
  | const (span at' vspan : Span) (value : Int) : ExpShape src (.list span [.atom at' "const", .int vspan value])
  | temp (span at' : Span) (n : SExpr) : ExpShape src (.list span [.atom at' "temp", n])
  | formal (span at' nspan : Span) (value : Int) : ExpShape src (.list span [.atom at' "formal", .int nspan value])
  | «local» (span at' : Span) (n flag : SExpr) : ExpShape src (.list span [.atom at' "local", n, flag])
  | mem (span at' : Span) (a : SExpr) : ExpShape src (.list span [.atom at' "mem", a])
  | name (span at' : Span) (l : SExpr) : ExpShape src (.list span [.atom at' "name", l])
  | call (span at' : Span) (f : SExpr) (args : List SExpr) : ExpShape src (.list span (.atom at' "call" :: f :: args))
  | eseq (span at' : Span) (s e : SExpr) : ExpShape src (.list span [.atom at' "eseq", s, e])
  | bin (span at' : Span) {op : Op} (hop : op ∈ Op.listed) (l r : SExpr) :
    ExpShape src (.list span [.atom at' op.text, l, r])
  | wrong {x : SExpr} (h : ∀ [Supply] w, ∃ e, (buildExp src x).run.run w = (.error (.failed e), w)) : ExpShape src x

theorem expShape (src : Source) (x : SExpr) : ExpShape src x := by
  match x with
  | .int span value => exact .int span value
  | .atom span text =>
    by_cases hfp : text = Text.ofString "fp"
    · subst hfp
      exact .framePointer span
    · by_cases hrv : text = Text.ofString "rv"
      · subst hrv
        exact .result span
      · refine .wrong fun w => ⟨errorAt src (.atom span text) (.unknownAtom text), ?_⟩
        unfold buildExp
        rw [if_neg hfp, if_neg hrv]
        rfl
  | .list span items =>
    cases hhead : ExpHead.ofText? (headOf items) with
    | some head =>
      obtain ⟨at', parts, rfl⟩ := items_of_expHead hhead
      cases head with
      | const =>
        match parts with
        | [.int vspan value] => exact .const span at' vspan value
        | [] | [.atom ..] | [.list ..] | _ :: _ :: _ => exact .wrong fun w => ⟨_, by unfold buildExp; rfl⟩
      | temp =>
        match parts with
        | [n] => exact .temp span at' n
        | [] | _ :: _ :: _ => exact .wrong fun w => ⟨_, by unfold buildExp; rfl⟩
      | formal =>
        match parts with
        | [.int nspan value] => exact .formal span at' nspan value
        | [] | [.atom ..] | [.list ..] | _ :: _ :: _ => exact .wrong fun w => ⟨_, by unfold buildExp; rfl⟩
      | «local» =>
        match parts with
        | [n, flag] => exact .local span at' n flag
        | [] | [_] | _ :: _ :: _ :: _ => exact .wrong fun w => ⟨_, by unfold buildExp; rfl⟩
      | mem =>
        match parts with
        | [a] => exact .mem span at' a
        | [] | _ :: _ :: _ => exact .wrong fun w => ⟨_, by unfold buildExp; rfl⟩
      | name =>
        match parts with
        | [l] => exact .name span at' l
        | [] | _ :: _ :: _ => exact .wrong fun w => ⟨_, by unfold buildExp; rfl⟩
      | call =>
        match parts with
        | f :: args => exact .call span at' f args
        | [] => exact .wrong fun w => ⟨_, by unfold buildExp; rfl⟩
      | eseq =>
        match parts with
        | [s, e] => exact .eseq span at' s e
        | [] | [_] | _ :: _ :: _ :: _ => exact .wrong fun w => ⟨_, by unfold buildExp; rfl⟩
    | none =>
      cases hop : Op.ofText? (headOf items) with
      | none =>
        refine .wrong fun w => ⟨errorAt src (.list span items) (.unknownExpression (headOf items)), ?_⟩
        unfold buildExp
        dsimp only
        rw [hhead]
        dsimp only
        rw [hop]
        rfl
      | some op =>
        obtain ⟨hlisted, at', parts, rfl⟩ := items_of_op hop
        match parts with
        | [l, r] => exact .bin span at' hlisted l r
        | [] | [_] | _ :: _ :: _ :: _ => exact .wrong fun w => ⟨_, by rw [buildExp_op src span at' hlisted]; rfl⟩

end Lowering.Program
