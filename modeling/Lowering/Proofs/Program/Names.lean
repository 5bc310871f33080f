import Mathlib.Data.List.Dedup
import Lowering.Proofs.Frame.Allocation
import Lowering.Proofs.Program.Grammar

/-!
# Names in bodies

A body mentions registers and locals by name. The builder meets the mentions from left to right and gives storage to a
name when it meets it for the first time; this is all it does to its workspace. From what one mention does follows what
is true of the names of a whole body: each stands for one register or one slot, whatever stands for one name stands for
no other, and whether a local has a slot is decided where it is mentioned first.
-/

namespace Lowering

/-- A name in a body: of a register, or of a local that may need an address. -/
inductive Mention where
  | temp (name : Text)
  | «local» (name : Text) (escapes : Bool)
  deriving DecidableEq, Repr

namespace Mention

/-- The local that a mention is of, with what is said of it. -/
def local? : Mention → Option (Text × Bool)
  | .temp _ => none
  | .local name escapes => some (name, escapes)

/-- The locals among mentions, in order. -/
def locals (ms : List Mention) : List (Text × Bool) := ms.filterMap local?

variable {ms : List Mention} {name n : Text} {escapes : Bool}

theorem temp_mem_temp : temp n ∈ ms ++ [.temp name] ↔ temp n ∈ ms ∨ n = name := by
  rw [List.mem_append, List.mem_singleton, temp.injEq]

theorem temp_mem_local : temp n ∈ ms ++ [.local name escapes] ↔ temp n ∈ ms := by
  rw [List.mem_append, List.mem_singleton]
  exact or_iff_left Mention.noConfusion

theorem locals_temp : locals (ms ++ [.temp name]) = locals ms := by
  rw [locals, List.filterMap_append]
  exact List.append_nil _

/-- What is said of a local where it is mentioned first is not changed by later mentions. -/
theorem lookup_local : (locals (ms ++ [.local name escapes])).lookup n =
    ((locals ms).lookup n).or (if n = name then some escapes else none) := by
  rw [locals, List.filterMap_append, List.lookup_append]
  congr 1
  show List.lookup n [(name, escapes)] = _
  rw [List.lookup_cons]
  by_cases hn : n = name
  · rw [if_pos hn, beq_iff_eq.mpr hn]
  · rw [if_neg hn, beq_eq_false_iff_ne.mpr hn]
    rfl

end Mention

/-- Does the variable live in a slot of the frame? -/
def Access.inSlot (a : Access) : Bool := a.offset?.isSome

namespace SExpr

/-- The mention that a list with these items is, if it is one. -/
def mention? : List SExpr → Option Mention
  | [.atom _ head, .atom _ name] => if head = Text.ofString "temp" then some (.temp name) else none
  | [.atom _ head, .atom _ name, .atom _ flag] =>
    if head = Text.ofString "local" then some (.local name (decide (flag = Text.ofBool true))) else none
  | _ => none

mutual

/-- The mentions in an expression, from left to right. -/
def mentions : SExpr → List Mention
  | .list _ items => (mention? items).toList ++ mentionsAll items
  | _ => []

@[inherit_doc mentions]
def mentionsAll : List SExpr → List Mention
  | [] => []
  | x :: rest => x.mentions ++ mentionsAll rest

end

theorem mention?_of_ne {head : Text} (htemp : head ≠ Text.ofString "temp") (hlocal : head ≠ Text.ofString "local")
    (at' : Span) (parts : List SExpr) : mention? (.atom at' head :: parts) = none := by
  unfold mention?
  split
  · next heq =>
    cases heq
    exact if_neg htemp
  · next heq =>
    cases heq
    exact if_neg hlocal
  · rfl

/-- A form that is no mention mentions what its parts mention. -/
theorem mentions_form {head : Text} (htemp : head ≠ Text.ofString "temp") (hlocal : head ≠ Text.ofString "local")
    (span at' : Span) (parts : List SExpr) :
    (SExpr.list span (.atom at' head :: parts)).mentions = mentionsAll parts := by
  rw [mentions, mention?_of_ne htemp hlocal]
  rfl

theorem mentions_temp (span at' nspan : Span) (name : Text) :
    (SExpr.list span [.atom at' "temp", .atom nspan name]).mentions = [.temp name] := rfl

theorem mentions_local (span at' nspan fspan : Span) (name : Text) (escapes : Bool) :
    (SExpr.list span [.atom at' "local", .atom nspan name, .atom fspan (Text.ofBool escapes)]).mentions =
      [.local name escapes] := by
  cases escapes <;> rfl

end SExpr

namespace Program

/-! ### Meeting mentions -/

/-- One workspace comes of the other by meeting mentions in order. -/
inductive Workspace.Meets (w : Workspace) : List Mention → Workspace → Prop where
  | nil : Meets w [] w
  | knownTemp {ms : List Mention} {w' : Workspace} {name : Text} {t : Temp} (h : Meets w ms w')
    (hknown : w'.temps.lookup name = some t) : Meets w (ms ++ [.temp name]) w'
  | newTemp {ms : List Mention} {w' : Workspace} {name : Text} (h : Meets w ms w')
    (hnew : w'.temps.lookup name = none) : Meets w (ms ++ [.temp name]) (w'.withTemp name)
  | knownLocal {ms : List Mention} {w' : Workspace} {name : Text} {a : Access} (h : Meets w ms w')
    (hknown : w'.locals.lookup name = some a) (escapes : Bool) : Meets w (ms ++ [.local name escapes]) w'
  | newLocal {ms : List Mention} {w' : Workspace} {name : Text} {escapes : Bool} {a : Access} {frame : X86.Frame}
    {session : Session} (h : Meets w ms w') (hnew : w'.locals.lookup name = none)
    (hadd : (w'.frame.addLocal escapes).run w'.session = (.ok (a, frame), session)) :
    Meets w (ms ++ [.local name escapes]) (w'.withLocal name a frame session)

theorem Workspace.Meets.trans {w w' w'' : Workspace} {ms ms' : List Mention} (h : w.Meets ms w')
    (h' : w'.Meets ms' w'') : w.Meets (ms ++ ms') w'' := by
  induction h' with
  | nil => rwa [List.append_nil]
  | knownTemp _ hknown ih =>
    rw [← List.append_assoc]
    exact .knownTemp ih hknown
  | newTemp _ hnew ih =>
    rw [← List.append_assoc]
    exact .newTemp ih hnew
  | knownLocal _ hknown escapes ih =>
    rw [← List.append_assoc]
    exact .knownLocal ih hknown escapes
  | newLocal _ hnew hadd ih =>
    rw [← List.append_assoc]
    exact .newLocal ih hnew hadd

namespace Building

variable {α β : Type}

/-- If the step succeeds, all it does to the workspace is to meet the mentions. -/
def Meets (x : Building α) (w : Workspace) (ms : List Mention) : Prop :=
  ∀ a w', x.run.run w = (.ok a, w') → w.Meets ms w'

namespace Meets

variable {x : Building α} {f : α → Building β} {w : Workspace} {ms ms' : List Mention}

theorem pure (a : α) (w : Workspace) : Meets (Pure.pure a) w [] := by
  intro b w' hrun
  obtain rfl : w = w' := congrArg Prod.snd hrun
  exact .nil

theorem of_error (hx : ∃ e, x.run.run w = (.error (.failed e), w)) : Meets x w ms := by
  intro a w' hrun
  obtain ⟨e, he⟩ := hx
  rw [he] at hrun
  cases (Prod.mk.inj hrun).1

theorem bind (hx : Meets x w ms) (hf : ∀ a w₁, Meets (f a) w₁ ms') : Meets (x >>= f) w (ms ++ ms') := by
  intro b w' hrun
  cases hfirst : x.run.run w with
  | mk r w₁ =>
    cases r with
    | ok a =>
      rw [bind_run_ok hfirst] at hrun
      exact (hx a w₁ hfirst).trans (hf a w₁ b w' hrun)
    | error why =>
      rw [bind_run_error hfirst] at hrun
      cases (Prod.mk.inj hrun).1

theorem bind_pure (hx : Meets x w ms) (g : α → β) : Meets (x >>= fun a => Pure.pure (g a)) w ms := by
  rw [← List.append_nil ms]
  exact hx.bind fun a w₁ => .pure (g a) w₁

theorem within (step : Step) (hx : Meets x w ms) : Meets (Building.within step x) w ms := by
  intro a w' hrun
  rw [within_run] at hrun
  cases hpart : x.run.run w with
  | mk r w₁ =>
    rw [hpart] at hrun
    cases r with
    | ok b =>
      cases hrun
      exact hx _ _ hpart
    | error why => cases (Prod.mk.inj hrun).1

/-- A name that is asked for is a word. -/
theorem nameOf_bind {src : Source} {n : SExpr} {f : Text → Building β}
    (hf : ∀ span name, n = .atom span name → Meets (f name) w ms) : Meets (ofExcept (nameOf src n) >>= f) w ms := by
  cases n with
  | atom span name => exact hf span name rfl
  | int | list => exact .of_error ⟨_, rfl⟩

/-- A truth value that is asked for is spelled out. -/
theorem flagOf_bind {src : Source} {x : SExpr} {f : Bool → Building β}
    (hf : ∀ span flag, x = .atom span (Text.ofBool flag) → Meets (f flag) w ms) :
    Meets (ofExcept (flagOf src x) >>= f) w ms := by
  cases x with
  | atom span text =>
    by_cases htrue : text = Text.ofBool true
    · subst htrue
      exact hf span true rfl
    · by_cases hfalse : text = Text.ofBool false
      · subst hfalse
        exact hf span false rfl
      · refine .of_error ⟨errorAt src (.atom span text) .noFlag, ?_⟩
        rw [flagOf, if_neg htrue, if_neg hfalse]
        rfl
  | int | list => exact .of_error ⟨_, rfl⟩

theorem get_bind {f : Workspace → Building β} (hf : Meets (f w) w ms) : Meets (get >>= f) w ms := hf

theorem namedTemp (name : Text) (w : Workspace) : Meets (Building.namedTemp name) w [.temp name] := by
  apply get_bind
  intro t w' hrun
  cases hlookup : w.temps.lookup name with
  | some t' =>
    rw [hlookup] at hrun
    obtain rfl : w = w' := congrArg Prod.snd hrun
    exact .knownTemp .nil hlookup
  | none =>
    rw [hlookup] at hrun
    obtain rfl : w.withTemp name = w' := congrArg Prod.snd hrun
    exact .newTemp .nil hlookup

theorem namedLocal (name : Text) (escapes : Bool) (w : Workspace) :
    Meets (Building.namedLocal name escapes) w [.local name escapes] := by
  apply get_bind
  intro a w' hrun
  cases hlookup : w.locals.lookup name with
  | some a' =>
    rw [hlookup] at hrun
    obtain rfl : w = w' := congrArg Prod.snd hrun
    exact .knownLocal .nil hlookup escapes
  | none =>
    rw [hlookup] at hrun
    dsimp only at hrun
    split at hrun
    · cases (Prod.mk.inj hrun).1
    · next a' frame session hadd =>
      obtain rfl : w.withLocal name a' frame session = w' := congrArg Prod.snd hrun
      exact .newLocal .nil hlookup hadd

end Meets

end Building

/-! ### Bodies -/

theorem constant_meets (src : Source) (x : SExpr) (value : Int) (w : Workspace) :
    Building.Meets (constant src x value) w [] := by
  unfold constant
  split
  · exact .of_error ⟨_, rfl⟩
  · exact .pure _ w

theorem formalAt_meets (src : Source) (nspan : Span) (value : Int) (w : Workspace) :
    Building.Meets (formalAt src nspan value) w [] := by
  apply Building.Meets.get_bind
  dsimp only
  split
  · exact .pure _ w
  · exact .of_error ⟨_, rfl⟩

theorem labelsOf_meets (src : Source) (xs : List SExpr) (w : Workspace) :
    Building.Meets (labelsOf src xs) w (SExpr.mentionsAll xs) := by
  induction xs generalizing w with
  | nil => exact .pure [] w
  | cons x rest ih =>
    apply Building.Meets.nameOf_bind
    intro span name h
    subst h
    exact (ih w).bind_pure _

theorem mentions_bin {op : Op} (hop : op ∈ Op.listed) (span at' : Span) (parts : List SExpr) :
    (SExpr.list span (.atom at' op.text :: parts)).mentions = SExpr.mentionsAll parts := by
  have hhead : op.text ≠ Text.ofString "temp" ∧ op.text ≠ Text.ofString "local" := by
    revert op
    decide
  exact SExpr.mentions_form hhead.1 hhead.2 span at' parts

mutual

/-- Building a statement meets what it mentions, from left to right, and does nothing else. -/
theorem buildStm_meets (src : Source) (x : SExpr) (w : Workspace) : Building.Meets (buildStm src x) w x.mentions := by
  cases stmShape src x with
  | wrong h => exact .of_error (h w)
  | move span at' d s =>
    rw [(stmRules src).move, SExpr.mentions_form (by decide) (by decide)]
    refine .bind (.within _ (buildExp_meets src d w)) fun dst w₁ => ?_
    cases hdst : isDestination dst with
    | false => exact .of_error ⟨_, rfl⟩
    | true => exact .bind (.within _ (buildExp_meets src s w₁)) fun value w₂ => .pure _ w₂
  | exp span at' e =>
    rw [(stmRules src).exp, SExpr.mentions_form (by decide) (by decide)]
    exact .bind (buildExp_meets src e w) fun value w₁ => .pure _ w₁
  | label span at' l =>
    rw [(stmRules src).label, SExpr.mentions_form (by decide) (by decide)]
    apply Building.Meets.nameOf_bind
    intro lspan name h
    subst h
    exact .pure _ w
  | seq span at' parts =>
    rw [(stmRules src).seq, SExpr.mentions_form (by decide) (by decide)]
    exact (buildSeq_meets src 0 parts w).bind_pure _
  | goto span at' l =>
    rw [(stmRules src).goto, SExpr.mentions_form (by decide) (by decide)]
    apply Building.Meets.nameOf_bind
    intro lspan name h
    subst h
    exact .pure _ w
  | jump span at' t l ls =>
    rw [(stmRules src).jump, SExpr.mentions_form (by decide) (by decide)]
    refine .bind (.within _ (buildExp_meets src t w)) fun target w₁ => ?_
    exact (labelsOf_meets src (l :: ls) w₁).bind_pure _
  | cjump span at' o l r t f =>
    rw [(stmRules src).cjump, SExpr.mentions_form (by decide) (by decide)]
    apply Building.Meets.nameOf_bind
    intro ospan name h
    subst h
    cases hrel : Rel.ofText? name with
    | none => exact .of_error ⟨_, rfl⟩
    | some rel =>
      show Building.Meets _ w (l.mentions ++ SExpr.mentionsAll [r, t, f])
      refine .bind (.within _ (buildExp_meets src l w)) fun left w₁ => ?_
      refine .bind (.within _ (buildExp_meets src r w₁)) fun right w₂ => ?_
      apply Building.Meets.nameOf_bind
      intro tspan ifTrue h
      subst h
      apply Building.Meets.nameOf_bind
      intro fspan ifFalse h
      subst h
      exact .pure _ w₂
termination_by sizeOf x

theorem buildSeq_meets (src : Source) (index : Nat) (xs : List SExpr) (w : Workspace) :
    Building.Meets (buildSeq src index xs) w (SExpr.mentionsAll xs) := by
  unfold buildSeq
  match xs with
  | [] => exact .pure [] w
  | x :: rest =>
    refine .bind (.within _ (buildStm_meets src x w)) fun s w₁ => ?_
    exact (buildSeq_meets src (index + 1) rest w₁).bind_pure _
termination_by sizeOf xs

theorem buildExp_meets (src : Source) (x : SExpr) (w : Workspace) : Building.Meets (buildExp src x) w x.mentions := by
  cases expShape src x with
  | wrong h => exact .of_error (h w)
  | int span value =>
    rw [(expRules src).int]
    exact constant_meets src _ value w
  | framePointer span =>
    rw [(expRules src).framePointer]
    exact .pure _ w
  | result span =>
    rw [(expRules src).result]
    exact .pure _ w
  | const span at' vspan value =>
    rw [(expRules src).const, SExpr.mentions_form (by decide) (by decide)]
    exact constant_meets src _ value w
  | temp span at' n =>
    rw [(expRules src).temp]
    apply Building.Meets.nameOf_bind
    intro nspan name h
    subst h
    rw [SExpr.mentions_temp]
    exact (Building.Meets.namedTemp name w).bind_pure _
  | formal span at' nspan value =>
    rw [(expRules src).formal, SExpr.mentions_form (by decide) (by decide)]
    exact formalAt_meets src nspan value w
  | «local» span at' n flag =>
    rw [(expRules src).local]
    apply Building.Meets.nameOf_bind
    intro nspan name h
    subst h
    apply Building.Meets.flagOf_bind
    intro fspan escapes h
    subst h
    rw [SExpr.mentions_local]
    exact (Building.Meets.namedLocal name escapes w).bind_pure _
  | mem span at' a =>
    rw [(expRules src).mem, SExpr.mentions_form (by decide) (by decide)]
    exact .bind (.within _ (buildExp_meets src a w)) fun addr w₁ => .pure _ w₁
  | name span at' l =>
    rw [(expRules src).name, SExpr.mentions_form (by decide) (by decide)]
    apply Building.Meets.nameOf_bind
    intro lspan name h
    subst h
    exact .pure _ w
  | call span at' f args =>
    rw [(expRules src).call, SExpr.mentions_form (by decide) (by decide)]
    refine .bind (.within _ (buildExp_meets src f w)) fun func w₁ => ?_
    exact (buildArgs_meets src 0 args w₁).bind_pure _
  | eseq span at' s e =>
    rw [(expRules src).eseq, SExpr.mentions_form (by decide) (by decide)]
    refine .bind (.within _ (buildStm_meets src s w)) fun stm w₁ => ?_
    exact .bind (.within _ (buildExp_meets src e w₁)) fun value w₂ => .pure _ w₂
  | bin span at' hop l r =>
    rw [buildExp_bin src span at' hop, mentions_bin hop]
    refine .bind (.within _ (buildExp_meets src l w)) fun left w₁ => ?_
    exact .bind (.within _ (buildExp_meets src r w₁)) fun right w₂ => .pure _ w₂
termination_by sizeOf x

theorem buildArgs_meets (src : Source) (index : Nat) (xs : List SExpr) (w : Workspace) :
    Building.Meets (buildArgs src index xs) w (SExpr.mentionsAll xs) := by
  unfold buildArgs
  match xs with
  | [] => exact .pure [] w
  | x :: rest =>
    refine .bind (.within _ (buildExp_meets src x w)) fun e w₁ => ?_
    exact (buildArgs_meets src (index + 1) rest w₁).bind_pure _
termination_by sizeOf xs

end

/-! ### What the names stand for -/

namespace Workspace

/-- The frame with the storage of the locals met so far. -/
def holding (w : Workspace) : X86.Holding := { frame := w.frame, locals := (w.locals.map Prod.snd).reverse }

/-- The registers that stand for names or hold formals and locals. -/
def registers (w : Workspace) : List Temp := w.temps.map Prod.snd ++ w.holding.registers

theorem holding_withLocal (w : Workspace) (name : Text) (a : Access) (frame : X86.Frame) (session : Session) :
    (w.withLocal name a frame session).holding = { frame, locals := w.holding.locals ++ [a] } :=
  congrArg (X86.Holding.mk frame) List.reverse_cons

theorem registers_withLocal (w : Workspace) (name : Text) (a : Access) {frame : X86.Frame}
    (hformals : frame.formals = w.frame.formals) (session : Session) :
    (w.withLocal name a frame session).registers = w.registers ++ registersOf [a] := by
  rw [registers, registers, holding_withLocal, X86.Holding.registers, X86.Holding.registers, hformals,
    ← List.append_assoc, registersOf_append, ← List.append_assoc]
  rfl

/-- What holds of a workspace that was fresh and has met the mentions. -/
structure Resolved (ms : List Mention) (w : Workspace) : Prop where
  temps : ∀ n, (∃ t, w.temps.lookup n = some t) ↔ .temp n ∈ ms
  locals : ∀ n, (w.locals.lookup n).map Access.inSlot = (Mention.locals ms).lookup n
  names : (w.locals.map Prod.fst).Nodup
  issued : ∀ t ∈ w.registers, 0 < t.id ∧ t.id ≤ w.session.temps
  nodup : w.registers.Nodup
  laidOut : w.holding.LaidOut

/-- One more register keeps the registers apart. -/
theorem issued_of_perm {regs regs' : List Temp} {count : Nat} (hissued : ∀ t ∈ regs, 0 < t.id ∧ t.id ≤ count)
    (hnodup : regs.Nodup) (hregs : regs'.Perm (⟨(count : Int) + 1⟩ :: regs)) :
    (∀ t ∈ regs', 0 < t.id ∧ t.id ≤ (count + 1 : Nat)) ∧ regs'.Nodup := by
  constructor
  · intro t ht
    obtain rfl | hold := List.mem_cons.mp (hregs.mem_iff.mp ht)
    · dsimp only
      omega
    · have := hissued t hold
      omega
  · rw [hregs.nodup_iff, List.nodup_cons]
    refine ⟨fun hmem => ?_, hnodup⟩
    have hle := (hissued _ hmem).2
    dsimp only at hle
    omega

namespace Resolved

variable {ms : List Mention} {w : Workspace} {name : Text}

theorem knownTemp (h : Resolved ms w) {t : Temp} (hknown : w.temps.lookup name = some t) :
    Resolved (ms ++ [.temp name]) w :=
  { h with
    temps := fun n => by
      rw [Mention.temp_mem_temp, ← h.temps]
      refine ⟨.inl, fun hn => hn.elim id ?_⟩
      rintro rfl
      exact ⟨t, hknown⟩
    locals := fun n => by rw [Mention.locals_temp, h.locals] }

theorem newTemp (h : Resolved ms w) (name : Text) : Resolved (ms ++ [.temp name]) (w.withTemp name) := by
  obtain ⟨hissued, hnodup⟩ := issued_of_perm h.issued h.nodup (.refl _)
  refine { h with temps := fun n => ?_, locals := fun n => ?_, issued := hissued, nodup := hnodup }
  · rw [Mention.temp_mem_temp, ← h.temps]
    show (∃ t, List.lookup n ((name, _) :: w.temps) = some t) ↔ _
    rw [List.lookup_cons]
    by_cases hn : n = name
    · simp [hn]
    · simp [hn, beq_eq_false_iff_ne.mpr hn]
  · rw [Mention.locals_temp, ← h.locals]
    rfl

theorem knownLocal (h : Resolved ms w) {a : Access} (hknown : w.locals.lookup name = some a) (escapes : Bool) :
    Resolved (ms ++ [.local name escapes]) w :=
  { h with
    temps := fun n => by rw [Mention.temp_mem_local, h.temps]
    locals := fun n => by
      rw [Mention.lookup_local, ← h.locals]
      split
      · next hn => rw [hn, hknown]; rfl
      · rw [Option.or_none] }

/-- A new name comes first in the table of locals. -/
theorem withLocal (h : Resolved ms w) (hnew : w.locals.lookup name = none) {a : Access} {frame : X86.Frame}
    {session : Session} (hlaid : X86.Holding.LaidOut { frame, locals := w.holding.locals ++ [a] })
    (hformals : frame.formals = w.frame.formals)
    (hregs : (∀ t ∈ w.registers ++ registersOf [a], 0 < t.id ∧ t.id ≤ session.temps) ∧
      (w.registers ++ registersOf [a]).Nodup) :
    Resolved (ms ++ [.local name a.inSlot]) (w.withLocal name a frame session) := by
  rw [← registers_withLocal w name a hformals session] at hregs
  refine ⟨fun n => ?_, fun n => ?_, ?_, hregs.1, hregs.2, ?_⟩
  · rw [Mention.temp_mem_local, ← h.temps]
    rfl
  · rw [Mention.lookup_local, ← h.locals]
    show (List.lookup n ((name, a) :: w.locals)).map Access.inSlot = _
    rw [List.lookup_cons]
    by_cases hn : n = name
    · rw [if_pos hn, beq_iff_eq.mpr hn, hn, hnew]
      rfl
    · rw [if_neg hn, beq_eq_false_iff_ne.mpr hn, Option.or_none]
  · refine List.nodup_cons.mpr ⟨fun hmem => ?_, h.names⟩
    obtain ⟨p, hp, hname⟩ := List.mem_map.mp hmem
    have hne := List.lookup_eq_none_iff.mp hnew p hp
    exact bne_iff_ne.mp hne hname.symm
  · rw [holding_withLocal]
    exact hlaid

theorem newLocal (h : Resolved ms w) {escapes : Bool} {a : Access} {frame : X86.Frame} {session : Session}
    (hnew : w.locals.lookup name = none)
    (hadd : (w.frame.addLocal escapes).run w.session = (.ok (a, frame), session)) :
    Resolved (ms ++ [.local name escapes]) (w.withLocal name a frame session) := by
  cases escapes with
  | true =>
    obtain ⟨session', hrun, htemps⟩ := X86.Frame.addLocal_slot h.laidOut.unsealed w.session
    cases hrun.symm.trans hadd
    have hsame (o : Int) : w.registers ++ registersOf [.inFrame o] = w.registers := List.append_nil _
    refine h.withLocal hnew h.laidOut.addSlot rfl ?_
    rw [hsame, htemps]
    exact ⟨h.issued, h.nodup⟩
  | false =>
    obtain ⟨session', hrun, htemps⟩ := X86.Frame.addLocal_register h.laidOut.unsealed w.session
    cases hrun.symm.trans hadd
    refine h.withLocal hnew (h.laidOut.addRegister _) rfl ?_
    rw [htemps]
    exact issued_of_perm h.issued h.nodup (List.perm_append_singleton _ _)

end Resolved

/-- What one mention preserves holds after all of them. -/
theorem Meets.resolved {w w' : Workspace} {ms : List Mention} (hw : Resolved [] w) (h : w.Meets ms w') :
    Resolved ms w' := by
  induction h with
  | nil => exact hw
  | knownTemp _ hknown ih => exact ih.knownTemp hknown
  | newTemp _ _ ih => exact ih.newTemp _
  | knownLocal _ hknown escapes ih => exact ih.knownLocal hknown escapes
  | newLocal _ hnew hadd ih => exact ih.newLocal hnew hadd

/-- A new frame, in the session it was made in or later. -/
theorem resolved_fresh {name : Label} {escapes : List Bool} {frame : X86.Frame} {before made later : Session}
    (hframe : (X86.Frame.create name escapes).run before = (frame, made)) (hlater : made.temps ≤ later.temps) :
    Resolved [] { session := later, frame } := by
  obtain ⟨session, hrun, htemps⟩ := X86.Frame.create_run name escapes before
  obtain ⟨-, hcount, hregs, -⟩ := X86.placeFormals_spec X86.firstFormalOffset escapes before
  cases hrun.symm.trans hframe
  generalize hfresh : ({ name, formals := _ } : X86.Frame) = frame
  have hregisters : registers { session := later, frame } = X86.freshRegisters before.temps (escapes.count false) := by
    rw [← hregs, ← hfresh]
    exact congrArg registersOf (List.append_nil _)
  refine ⟨fun n => ⟨?_, ?_⟩, fun n => rfl, .nil, ?_, ?_, hfresh ▸ X86.Holding.laidOut_new name escapes before⟩
  · rintro ⟨t, ht⟩
    cases ht
  · intro hn
    cases hn
  · intro t ht
    rw [hregisters] at ht
    have := X86.mem_freshRegisters ht
    show 0 < t.id ∧ t.id ≤ later.temps
    omega
  · rw [hregisters]
    exact X86.nodup_freshRegisters _ _

end Workspace

/-! ### Hygiene -/

/-- What the names of a body stand for in a frame with the given formals: exactly the names that are mentioned stand for
something, and no two of them, nor one of them and a formal, share storage. -/
structure Naming.Hygienic (names : Naming) (formals : List Access) (body : SExpr) : Prop where
  temp_mentioned : ∀ n, (∃ t, names.temp n = some t) ↔ .temp n ∈ body.mentions
  temp_virtual : ∀ n t, names.temp n = some t → 0 < t.id
  temp_injective : ∀ n n' t, names.temp n = some t → names.temp n' = some t → n = n'
  /-- A local lives in a slot if it is said to need an address where it is mentioned first. -/
  local_chosen : ∀ n, (names.local n).map Access.inSlot = (Mention.locals body.mentions).lookup n
  local_virtual : ∀ n t, names.local n = some (.inReg t) → 0 < t.id
  local_injective : ∀ n n' a, names.local n = some a → names.local n' = some a → n = n'
  temp_ne_local : ∀ n n' t, names.temp n = some t → names.local n' ≠ some (.inReg t)
  temp_ne_formal : ∀ n t, names.temp n = some t → .inReg t ∉ formals
  local_ne_formal : ∀ n a, names.local n = some a → a ∉ formals
  formals_nodup : formals.Nodup

theorem nodup_of_registers_offsets {as : List Access} (hregs : (registersOf as).Nodup)
    (hoffsets : (offsetsOf as).Nodup) : as.Nodup := by
  induction as with
  | nil => exact .nil
  | cons a rest ih =>
    cases a with
    | inFrame o =>
      obtain ⟨hnew, hoffsets⟩ := List.nodup_cons.mp (show (o :: offsetsOf rest).Nodup from hoffsets)
      refine List.nodup_cons.mpr ⟨fun hmem => hnew ?_, ih hregs hoffsets⟩
      exact List.mem_filterMap.mpr ⟨_, hmem, rfl⟩
    | inReg t =>
      obtain ⟨hnew, hregs⟩ := List.nodup_cons.mp (show (t :: registersOf rest).Nodup from hregs)
      exact List.nodup_cons.mpr ⟨fun hmem => hnew (mem_registersOf hmem), ih hregs hoffsets⟩

namespace Workspace.Resolved

variable {ms : List Mention} {w : Workspace}

theorem mem_holding {n : Text} {a : Access} (ha : w.locals.lookup n = some a) : a ∈ w.holding.locals :=
  List.mem_reverse.mpr (List.mem_map.mpr ⟨(n, a), mem_of_lookup ha, rfl⟩)

theorem mem_temps {n : Text} {t : Temp} (ht : w.temps.lookup n = some t) : t ∈ w.temps.map Prod.snd :=
  List.mem_map.mpr ⟨(n, t), mem_of_lookup ht, rfl⟩

/-- Formals and locals all have storage of their own. -/
theorem nodup_storage (h : Resolved ms w) : (w.frame.formals ++ w.holding.locals).Nodup :=
  nodup_of_registers_offsets (List.nodup_append.mp h.nodup).2.1 h.laidOut.separate.nodup

theorem hygienic {body : SExpr} (h : Resolved body.mentions w) : w.naming.Hygienic w.frame.formals body := by
  obtain ⟨hformals, hlocals, hapart⟩ := List.nodup_append.mp h.nodup_storage
  obtain ⟨htemps, -, hregs⟩ := List.nodup_append.mp h.nodup
  have hinReg : ∀ t, .inReg t ∈ w.frame.formals ++ w.holding.locals → t ∈ w.holding.registers :=
    fun t ht => mem_registersOf ht
  constructor
  case temp_mentioned => exact h.temps
  case local_chosen => exact h.locals
  case formals_nodup => exact hformals
  case temp_virtual =>
    intro n t ht
    exact (h.issued t (List.mem_append_left _ (mem_temps ht))).1
  case local_virtual =>
    intro n t ht
    have hmem := hinReg t (List.mem_append_right _ (mem_holding ht))
    exact (h.issued t (List.mem_append_right _ hmem)).1
  case temp_injective =>
    intro n n' t ht ht'
    have heq := List.inj_on_of_nodup_map htemps (mem_of_lookup ht) (mem_of_lookup ht') rfl
    exact congrArg Prod.fst heq
  case local_injective =>
    intro n n' a ha ha'
    have heq := List.inj_on_of_nodup_map (List.nodup_reverse.mp hlocals) (mem_of_lookup ha) (mem_of_lookup ha') rfl
    exact congrArg Prod.fst heq
  case temp_ne_local =>
    intro n n' t ht ht'
    exact hregs t (mem_temps ht) t (hinReg t (List.mem_append_right _ (mem_holding ht'))) rfl
  case temp_ne_formal =>
    intro n t ht hformal
    exact hregs t (mem_temps ht) t (hinReg t (List.mem_append_left _ hformal)) rfl
  case local_ne_formal =>
    intro n a ha hformal
    exact hapart a hformal a (mem_holding ha) rfl

theorem mem_keys {α : Type} {l : List (Text × α)} {n : Text} : n ∈ l.map Prod.fst ↔ (l.lookup n).isSome = true := by
  rw [List.lookup_isSome_iff, List.mem_map]
  constructor
  · rintro ⟨p, hp, hn⟩
    exact ⟨p, hp, beq_iff_eq.mpr hn.symm⟩
  · rintro ⟨p, hp, hn⟩
    exact ⟨p, hp, (beq_iff_eq.mp hn).symm⟩

/-- The names in the table of locals are those mentioned, each once. -/
theorem names_perm (h : Resolved ms w) : (w.locals.map Prod.fst).Perm ((Mention.locals ms).map Prod.fst).dedup := by
  apply (List.perm_ext_iff_of_nodup h.names (List.nodup_dedup _)).mpr
  intro n
  rw [List.mem_dedup, mem_keys, mem_keys, ← h.locals, Option.isSome_map]

/-- What the table of locals holds for a name is what was said where it was mentioned first. -/
theorem lookup_of_mem (h : Resolved ms w) {p : Text × Access} (hp : p ∈ w.locals) :
    (Mention.locals ms).lookup p.1 = some p.2.inSlot := by
  obtain ⟨a, ha⟩ := Option.isSome_iff_exists.mp (mem_keys.mp (List.mem_map_of_mem hp))
  have hsame : a = p.2 := congrArg Prod.snd (List.inj_on_of_nodup_map h.names (mem_of_lookup ha) hp rfl)
  rw [← h.locals, ha, hsame]
  rfl

/-- The frame has one slot for each name that is said to need an address where it is mentioned first. -/
theorem slots (h : Resolved ms w) : w.frame.locals =
    ((Mention.locals ms).map Prod.fst).dedup.countP fun n => (Mention.locals ms).lookup n = some true := by
  have hlength : (offsetsOf w.holding.locals).length = w.frame.locals := by
    rw [h.laidOut.locals, X86.localOffsets, List.length_map, List.length_range]
    rfl
  calc w.frame.locals
    _ = w.holding.locals.countP Access.inSlot := hlength.symm.trans List.length_filterMap_eq_countP
    _ = w.locals.countP (Access.inSlot ∘ Prod.snd) := List.countP_reverse.trans List.countP_map
    _ = w.locals.countP ((fun n => decide ((Mention.locals ms).lookup n = some true)) ∘ Prod.fst) := by
      refine List.countP_congr fun p hp => ?_
      dsimp only [Function.comp]
      rw [h.lookup_of_mem hp, decide_eq_true_iff, Option.some.injEq]
    _ = (w.locals.map Prod.fst).countP _ := List.countP_map.symm
    _ = _ := h.names_perm.countP_eq _

end Workspace.Resolved

/-- Hygiene: a body that is built in a new frame is the tree that the grammar says under names that stand for virtual
registers and for the storage of locals, each name for its own, decided for locals where they are mentioned first; and
the frame has as many slots as locals that need an address there. -/
theorem names_resolve_hygienically (d : Declaration) {name : Label} {escapes : List Bool} {frame : X86.Frame}
    {before made later : Session} (hframe : (X86.Frame.create name escapes).run before = (frame, made))
    (hlater : made.temps ≤ later.temps) {s : Stm} {w : Workspace} (hbuild : d.build frame later = (.ok s, w)) :
    ∃ names : Naming, StmForm False frame.formals names d.body s ∧ names.Hygienic frame.formals d.body ∧
      w.frame.locals = ((Mention.locals d.body.mentions).map Prod.fst).dedup.countP fun n =>
        (Mention.locals d.body.mentions).lookup n = some true := by
  have hfresh := Workspace.resolved_fresh hframe hlater
  have hresolved := (buildStm_meets d.source d.body _ s w hbuild).resolved hfresh
  have hbuilds : Building.Builds (buildStm d.source d.body) { session := later, frame } _ :=
    buildStm_builds d.source d.body rfl
  obtain ⟨w', hreach, ⟨a, hrun, ha⟩ | ⟨e, hrun⟩⟩ := hbuilds hfresh.laidOut.unsealed
  · cases hbuild.symm.trans hrun
    refine ⟨w.naming, ha _ (.refl _), ?_, hresolved.slots⟩
    have hformals : w.frame.formals = frame.formals := hreach.formals
    exact hformals ▸ hresolved.hygienic
  · cases (Prod.mk.inj (hbuild.symm.trans hrun)).1

/-- `(seq (move (temp a) (local x false)) (move (local y true) (local x true)) (exp (temp b)))`: a local that is said to
need an address only where it is mentioned again. -/
def secondThoughts : Declaration where
  name := "f"
  escapes := [false, true]
  source := Source.ofFile "a.ir"
    "(func f (false true) (seq (move (temp a) (local x false)) (move (local y true) (local x true)) (exp (temp b))))"
  body := .list ⟨21, 110⟩ [.atom ⟨22, 25⟩ "seq",
    .list ⟨26, 57⟩ [.atom ⟨27, 31⟩ "move",
      .list ⟨32, 40⟩ [.atom ⟨33, 37⟩ "temp", .atom ⟨38, 39⟩ "a"],
      .list ⟨41, 56⟩ [.atom ⟨42, 47⟩ "local", .atom ⟨48, 49⟩ "x", .atom ⟨50, 55⟩ (Text.ofBool false)]],
    .list ⟨58, 94⟩ [.atom ⟨59, 63⟩ "move",
      .list ⟨64, 78⟩ [.atom ⟨65, 70⟩ "local", .atom ⟨71, 72⟩ "y", .atom ⟨73, 77⟩ (Text.ofBool true)],
      .list ⟨79, 93⟩ [.atom ⟨80, 85⟩ "local", .atom ⟨86, 87⟩ "x", .atom ⟨88, 92⟩ (Text.ofBool true)]],
    .list ⟨95, 109⟩ [.atom ⟨96, 99⟩ "exp", .list ⟨100, 108⟩ [.atom ⟨101, 105⟩ "temp", .atom ⟨106, 107⟩ "b"]]]

theorem secondThoughts_resolve :
    let frame : X86.Frame := { name := "f", formals := [.inReg ⟨1⟩, .inFrame 8] }
    (X86.Frame.create "f" [false, true]).run {} = (frame, { temps := 1 }) ∧
      ∃ s w, secondThoughts.build frame { temps := 1 } = (.ok s, w) ∧ w.frame.locals = 1 ∧
        ∃ names : Naming, StmForm False frame.formals names secondThoughts.body s ∧
          names.Hygienic frame.formals secondThoughts.body := by
  intro frame
  have hframe : (X86.Frame.create "f" [false, true]).run {} = (frame, { temps := 1 }) := rfl
  have hbody : StmForm False frame.formals ⟨fun _ => some ⟨2⟩, fun _ => some (.inReg ⟨3⟩)⟩ secondThoughts.body _ :=
    .seq (.cons (.move (.temp rfl) (.inl ⟨_, rfl⟩) (.local rfl false))
      (.cons (.move (.local rfl true) (.inl ⟨_, rfl⟩) (.local rfl true)) (.cons (.exp (.temp rfl)) .nil)))
  have hsucceeds : Building.Succeeds _ { session := { temps := 1 }, frame } _ :=
    hbody.succeeds secondThoughts.source rfl
  obtain ⟨s, w, -, hbuild, -⟩ := hsucceeds rfl
  obtain ⟨names, hform, hhygienic, hslots⟩ := names_resolve_hygienically secondThoughts hframe (Nat.le_refl _) hbuild
  exact ⟨hframe, s, w, hbuild, hslots.trans (by decide), names, hform, hhygienic⟩

end Program

end Lowering
