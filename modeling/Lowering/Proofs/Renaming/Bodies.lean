import Lowering.Proofs.Frame.Arguments
import Lowering.Proofs.Program.Compilation
import Lowering.Proofs.Program.Grammar
import Lowering.Proofs.Renaming.Tiles

/-!
# Building a body twice

A body is built in two workspaces, in the second with the registers of another supply. Both builds succeed or both fail,
and the trees are the same up to the names of registers: `buildStm_twin`. Apart from fixed registers a tree names only
such as were handed out: `StmForm.valid` and `Workspace.Reaches.valid`.
-/

namespace Lowering

/-- Stops of the same kind: two failures, or the same fault. -/
inductive Stop.Alike {ε δ : Type} : Stop ε → Stop δ → Prop where
  | failed (e : ε) (e' : δ) : Alike (.failed e) (.failed e')
  | fault (f : Fault) : Alike (.fault f) (.fault f)

theorem Stop.Alike.map {ε δ ε' δ' : Type} {why : Stop ε} {why' : Stop δ} (h : why.Alike why') (f : ε → ε')
    (g : δ → δ') : (why.map f).Alike (why'.map g) := by
  cases h with
  | failed e e' => exact .failed (f e) (g e')
  | fault f => exact .fault f

/-! ### Frames -/

namespace X86

variable {S : Supply} {r : Renaming} {d : Nat} (hr : S.Renames r d) {session session' : Session}

include hr

/-- Formals are placed alike, in slots or in renamed registers. -/
theorem placeFormals_rename (offset : Nat) (escapes : List Bool) (h : session'.temps = session.temps + d) :
    ((placeFormals (S := S) offset escapes).run session').1 =
        ((placeFormals (S := .inOrder) offset escapes).run session).1.map (Access.rename r) ∧
      ((placeFormals (S := S) offset escapes).run session').2.temps =
        ((placeFormals (S := .inOrder) offset escapes).run session).2.temps + d := by
  induction escapes generalizing offset session session' with
  | nil => exact ⟨rfl, h⟩
  | cons escape rest ih =>
    cases escape with
    | true =>
      obtain ⟨hformals, htemps⟩ := ih (offset + wordSize) h
      exact ⟨congrArg (Access.inFrame offset :: ·) hformals, htemps⟩
    | false =>
      have hnext : ({ session' with temps := session'.temps + 1 } : Session).temps = session.temps + 1 + d := by
        dsimp only
        omega
      obtain ⟨hformals, htemps⟩ := @ih { session with temps := session.temps + 1 } _ offset hnext
      have hregister : S.register session'.temps = r ⟨session.temps + 1⟩ := by rw [h, hr]
      refine ⟨?_, htemps⟩
      change Access.inReg (S.register session'.temps) :: _ = Access.inReg (r ⟨session.temps + 1⟩) :: _
      rw [hregister]
      exact congrArg _ hformals

theorem Frame.create_rename (name : Label) (escapes : List Bool) (h : session'.temps = session.temps + d) :
    ((Frame.create (S := S) name escapes).run session').1 =
        ((Frame.create (S := .inOrder) name escapes).run session).1.rename r ∧
      ((Frame.create (S := S) name escapes).run session').2.temps =
        ((Frame.create (S := .inOrder) name escapes).run session).2.temps + d := by
  obtain ⟨s₁, hrun, htemps⟩ := Frame.create_run (S := .inOrder) name escapes session
  obtain ⟨s₁', hrun', htemps'⟩ := Frame.create_run (S := S) name escapes session'
  obtain ⟨hformals, hcounter⟩ := placeFormals_rename hr firstFormalOffset escapes h
  rw [hrun, hrun', hformals, htemps, htemps', hcounter]
  exact ⟨rfl, rfl⟩

/-- A local is added to both frames or to none. -/
theorem Frame.addLocal_rename (frame : Frame) (escapes : Bool) (h : session'.temps = session.temps + d) :
    (∃ a frame₁ s₁ s₁', (frame.addLocal (S := .inOrder) escapes).run session = (.ok (a, frame₁), s₁) ∧
        ((frame.rename r).addLocal (S := S) escapes).run session' = (.ok (a.rename r, frame₁.rename r), s₁') ∧
        s₁'.temps = s₁.temps + d) ∨
      ∃ f, (frame.addLocal (S := .inOrder) escapes).run session = (.error f, session) ∧
        ((frame.rename r).addLocal (S := S) escapes).run session' = (.error f, session') := by
  cases hsealed : frame.sealed with
  | true =>
    obtain ⟨name, formals, locals, sealed⟩ := frame
    obtain rfl : sealed = true := hsealed
    exact .inr ⟨_, rfl, rfl⟩
  | false =>
    have hsealed' : (frame.rename r).sealed = false := hsealed
    left
    cases escapes with
    | true =>
      obtain ⟨s₁, hrun, htemps⟩ := Frame.addLocal_slot (S := .inOrder) hsealed session
      obtain ⟨s₁', hrun', htemps'⟩ := Frame.addLocal_slot (S := S) hsealed' session'
      exact ⟨_, _, s₁, s₁', hrun, hrun', by omega⟩
    | false =>
      obtain ⟨s₁, hrun, htemps⟩ := Frame.addLocal_register (S := .inOrder) hsealed session
      obtain ⟨s₁', hrun', htemps'⟩ := Frame.addLocal_register (S := S) hsealed' session'
      refine ⟨_, _, s₁, s₁', hrun, ?_, by omega⟩
      rw [hrun', h, hr]
      rfl

theorem Frame.saveRegisters_rename (regs : List Temp) (h : session'.temps = session.temps + d) :
    ((Frame.saveRegisters (S := S) regs).run session').1 =
        ((Frame.saveRegisters (S := .inOrder) regs).run session).1.map (fun p => (p.1, r p.2)) ∧
      ((Frame.saveRegisters (S := S) regs).run session').2.temps =
        ((Frame.saveRegisters (S := .inOrder) regs).run session).2.temps + d := by
  induction regs generalizing session session' with
  | nil => exact ⟨rfl, h⟩
  | cons a rest ih =>
    have hnext : ({ session' with temps := session'.temps + 1 } : Session).temps = session.temps + 1 + d := by
      dsimp only
      omega
    obtain ⟨hsaved, htemps⟩ := @ih { session with temps := session.temps + 1 } _ hnext
    have hregister : S.register session'.temps = r ⟨session.temps + 1⟩ := by rw [h, hr]
    refine ⟨?_, htemps⟩
    change (a, S.register session'.temps) :: _ = (a, r ⟨session.temps + 1⟩) :: _
    rw [hregister]
    exact congrArg _ hsaved

/-- Saving and restoring registers is renamed with the registers they are saved in. -/
theorem Frame.saved_rename (h : session'.temps = session.temps + d) (f : Temp × Temp → Stm)
    (hf : ∀ a t, r a = a → (f (a, t)).rename r = f (a, r t)) :
    (((Frame.saveRegisters (S := .inOrder) calleeSaved).run session).1.map f).map (Stm.rename r) =
      ((Frame.saveRegisters (S := S) calleeSaved).run session').1.map f := by
  rw [(Frame.saveRegisters_rename hr calleeSaved h).1, List.map_map, List.map_map]
  refine List.map_congr_left fun p hp => hf p.1 p.2 (r.keeps ?_)
  have hneg : ∀ a ∈ calleeSaved, a.id ≤ 0 := by decide
  exact hneg p.1 ((Frame.saveRegisters_run calleeSaved session).2 p hp).1

/-- Entry and exit code around the renamed body is the renamed code. -/
theorem Frame.wrap_rename (frame : Frame) (body : Stm) (h : session'.temps = session.temps + d) :
    (((frame.rename r).wrap (S := S) (body.rename r)).run session').1 =
        ((frame.wrap (S := .inOrder) body).run session).1.rename r ∧
      (((frame.rename r).wrap (S := S) (body.rename r)).run session').2.temps =
        ((frame.wrap (S := .inOrder) body).run session).2.temps + d := by
  refine ⟨?_, (Frame.saveRegisters_rename hr calleeSaved h).2⟩
  have hentry : (frame.entry (S := .inOrder) session).map (Stm.rename r) =
      (frame.rename r).entry (S := S) session' := by
    refine List.map_append.trans (congrArg₂ (· ++ ·) (Frame.rename_entryMoves r 0 _) ?_)
    refine saved_rename hr h _ fun a t ha => ?_
    simp only [Stm.rename, Exp.rename, ha]
  have hexit : (Frame.exit (S := .inOrder) session).map (Stm.rename r) = Frame.exit (S := S) session' := by
    refine saved_rename hr h _ fun a t ha => ?_
    simp only [Stm.rename, Exp.rename, ha]
  rw [Frame.wrap_eq (S := .inOrder), Frame.wrap_eq (S := S), Stm.rename_seqs, List.map_append, List.map_append, hentry,
    hexit]
  rfl

end X86

/-! ### Two workspaces -/

namespace Program

/-- The second workspace is `d` requests ahead of the first and has its registers under other names. -/
structure Workspace.Ahead (r : Renaming) (d : Nat) (w w' : Workspace) : Prop where
  counter : w'.session.temps = w.session.temps + d
  frame : w'.frame = w.frame.rename r
  temps : w'.temps = w.temps.map fun p => (p.1, r p.2)
  locals : w'.locals = w.locals.map fun p => (p.1, p.2.rename r)

theorem lookup_map {α β : Type} (f : α → β) (l : List (Text × α)) (name : Text) :
    (l.map fun p => (p.1, f p.2)).lookup name = (l.lookup name).map f := by
  induction l with
  | nil => rfl
  | cons p rest ih =>
    obtain ⟨n, a⟩ := p
    rw [List.map_cons, List.lookup_cons, List.lookup_cons, ih]
    cases name == n <;> rfl

theorem isDestination_rename_eq (r : Temp → Temp) (e : Exp) : isDestination (e.rename r) = isDestination e := by
  cases e <;> rfl

namespace Building

variable {α β : Type}

/-- How two steps end that go together: both succeed with values related by `f`, again in workspaces of which one is
ahead, or both stop alike after as many requests. -/
inductive EndsAhead (r : Renaming) (d : Nat) (f : α → α) :
    Except (Stop FormError) α × Workspace → Except (Stop FormError) α × Workspace → Prop where
  | ok {a : α} {w w' : Workspace} (h : w.Ahead r d w') : EndsAhead r d f (.ok a, w) (.ok (f a), w')
  | stop {why why' : Stop FormError} {w w' : Workspace} (h : why.Alike why')
    (hcounter : w'.session.temps = w.session.temps + d) : EndsAhead r d f (.error why, w) (.error why', w')

/-- From workspaces of which one is ahead, the two steps go together. -/
def Twins (r : Renaming) (d : Nat) (x y : Building α) (f : α → α) : Prop :=
  ∀ w w', w.Ahead r d w' → EndsAhead r d f (x.run.run w) (y.run.run w')

namespace Twins

variable {S : Supply} {r : Renaming} {d : Nat} {x y : Building α} {f : α → α} {g : β → β} {k k' : α → Building β}

theorem pure {a b : α} (h : f a = b) : Twins r d (Pure.pure a) (Pure.pure b) f :=
  fun _ _ hw => h ▸ .ok hw

theorem wrong (hx : ∀ w, ∃ e, x.run.run w = (.error (.failed e), w))
    (hy : ∀ w, ∃ e, y.run.run w = (.error (.failed e), w)) : Twins r d x y f := by
  intro w w' hw
  obtain ⟨e, he⟩ := hx w
  obtain ⟨e', he'⟩ := hy w'
  rw [he, he']
  exact .stop (.failed e e') hw.counter

theorem bind (hx : Twins r d x y f) (hk : ∀ a, Twins r d (k a) (k' (f a)) g) : Twins r d (x >>= k) (y >>= k') g := by
  intro w w' hw
  have hends := hx w w' hw
  generalize hrun : x.run.run w = o at hends
  generalize hrun' : y.run.run w' = o' at hends
  cases hends with
  | ok hw₁ =>
    rw [bind_run_ok hrun, bind_run_ok hrun']
    exact hk _ _ _ hw₁
  | stop halike hcounter =>
    rw [bind_run_error hrun, bind_run_error hrun']
    exact .stop halike hcounter

theorem within (step : Step) (hx : Twins r d x y f) :
    Twins r d (Building.within step x) (Building.within step y) f := by
  intro w w' hw
  rw [within_run, within_run]
  have hends := hx w w' hw
  generalize x.run.run w = o at hends ⊢
  generalize y.run.run w' = o' at hends ⊢
  cases hends with
  | ok hw₁ => exact .ok hw₁
  | stop halike hcounter => exact .stop (halike.map _ _) hcounter

theorem ofExcept (o : Except FormError α) : Twins r d (Building.ofExcept o) (Building.ofExcept o) id := by
  cases o with
  | ok a => exact .pure rfl
  | error e => exact .wrong (fun _ => ⟨e, rfl⟩) fun _ => ⟨e, rfl⟩

theorem get_bind {k k' : Workspace → Building β}
    (h : ∀ w w', w.Ahead r d w' → EndsAhead r d g ((k w).run.run w) ((k' w').run.run w')) :
    Twins r d (get >>= k) (get >>= k') g := h

theorem namedTemp (hr : S.Renames r d) (name : Text) :
    Twins r d (Building.namedTemp (S := .inOrder) name) (Building.namedTemp (S := S) name) r := by
  refine get_bind fun w w' hw => ?_
  have hlookup : w'.temps.lookup name = (w.temps.lookup name).map r := by
    rw [hw.temps, lookup_map]
  rw [hlookup]
  cases w.temps.lookup name with
  | some t => exact .ok hw
  | none =>
    have hfresh : S.register w'.session.temps = r ⟨(w.session.temps : Int) + 1⟩ := by
      rw [hw.counter, hr]
    change EndsAhead r d r (.ok ⟨(w.session.temps : Int) + 1⟩, _)
      (.ok (S.register w'.session.temps),
        ⟨_, w'.frame, (name, S.register w'.session.temps) :: w'.temps, w'.locals⟩)
    rw [hfresh]
    refine .ok ⟨?_, hw.frame, ?_, hw.locals⟩
    · change w'.session.temps + 1 = w.session.temps + 1 + d
      rw [hw.counter, Nat.add_right_comm]
    · rw [hw.temps]
      rfl

theorem namedLocal (hr : S.Renames r d) (name : Text) (escapes : Bool) :
    Twins r d (Building.namedLocal (S := .inOrder) name escapes) (Building.namedLocal (S := S) name escapes)
      (Access.rename r) := by
  refine get_bind fun w w' hw => ?_
  rw [hw.locals, lookup_map]
  cases w.locals.lookup name with
  | some a => exact .ok hw
  | none =>
    dsimp only [Option.map_none]
    rw [hw.frame]
    obtain ⟨a, frame₁, s₁, s₁', hadd, hadd', hcounter⟩ | ⟨f, hadd, hadd'⟩ :=
      w.frame.addLocal_rename hr escapes hw.counter
    · rw [hadd, hadd']
      refine .ok ⟨hcounter, rfl, hw.temps, ?_⟩
      dsimp only
      rw [List.map_cons]
    · rw [hadd, hadd']
      exact .stop (.fault f) hw.counter

end Twins

end Building

/-! ### Two builds -/

section Leaves

open Building

variable {r : Renaming} {d : Nat} (src : Source)

theorem constant_twin (x : SExpr) (value : Int) :
    Twins r d (constant src x value) (constant src x value) (Exp.rename r) := by
  rw [constant]
  split
  · exact .wrong (fun _ => ⟨_, rfl⟩) fun _ => ⟨_, rfl⟩
  · exact .pure rfl

theorem formalAt_twin (nspan : Span) (value : Int) :
    Twins r d (formalAt src nspan value) (formalAt src nspan value) (Exp.rename r) := by
  refine Twins.get_bind fun w w' hw => ?_
  have hformal : (if value < 0 then none else w'.frame.formals[value.toNat]?) =
      (if value < 0 then none else w.frame.formals[value.toNat]?).map (Access.rename r) := by
    rw [hw.frame, X86.Frame.rename, List.getElem?_map]
    split <;> rfl
  dsimp only
  rw [hformal]
  cases (if value < 0 then none else w.frame.formals[value.toNat]?) with
  | some a =>
    change EndsAhead r d (Exp.rename r) (.ok (a.exp X86.framePointerExp), w)
      (.ok ((a.rename r).exp X86.framePointerExp), w')
    rw [← a.rename_exp]
    exact .ok hw
  | none => exact .stop (.failed _ _) hw.counter

theorem labelsOf_twin (xs : List SExpr) : Twins r d (labelsOf src xs) (labelsOf src xs) id := by
  induction xs with
  | nil => exact .pure rfl
  | cons x rest ih => exact .bind (.ofExcept _) fun l => .bind ih fun ls => .pure rfl

end Leaves

mutual

/-- A statement is built alike with the registers of another supply. -/
theorem buildStm_twin {S : Supply} {r : Renaming} {d : Nat} (hr : S.Renames r d) (src : Source) (x : SExpr) :
    Building.Twins r d (buildStm (S := .inOrder) src x) (buildStm (S := S) src x) (Stm.rename r) := by
  have rules := stmRules (S := .inOrder) src
  have rules' := stmRules (S := S) src
  cases stmShape src x with
  | wrong h => exact .wrong (@h .inOrder) (@h S)
  | move span at' dst value =>
    rw [rules.move, rules'.move]
    refine .bind (.within _ (buildExp_twin hr src dst)) fun e => ?_
    rw [isDestination_rename_eq]
    cases isDestination e with
    | false => exact .wrong (fun _ => ⟨_, rfl⟩) fun _ => ⟨_, rfl⟩
    | true => exact .bind (.within _ (buildExp_twin hr src value)) fun e' => .pure rfl
  | exp span at' e =>
    rw [rules.exp, rules'.exp]
    exact .bind (buildExp_twin hr src e) fun value => .pure rfl
  | label span at' l =>
    rw [rules.label, rules'.label]
    exact .bind (.ofExcept _) fun name => .pure rfl
  | seq span at' parts =>
    rw [rules.seq, rules'.seq]
    exact .bind (buildSeq_twin hr src 0 parts) fun stms => .pure (Stm.rename_seqs _ stms)
  | goto span at' l =>
    rw [rules.goto, rules'.goto]
    exact .bind (.ofExcept _) fun name => .pure rfl
  | jump span at' t l ls =>
    rw [rules.jump, rules'.jump]
    refine .bind (.within _ (buildExp_twin hr src t)) fun target => ?_
    exact .bind (labelsOf_twin src (l :: ls)) fun labels => .pure rfl
  | cjump span at' o l r t f =>
    rw [rules.cjump, rules'.cjump]
    refine .bind (.ofExcept _) fun name => ?_
    rw [id_eq]
    cases Rel.ofText? name with
    | none => exact .wrong (fun _ => ⟨_, rfl⟩) fun _ => ⟨_, rfl⟩
    | some rel =>
      refine .bind (.within _ (buildExp_twin hr src l)) fun left => ?_
      refine .bind (.within _ (buildExp_twin hr src r)) fun right => ?_
      exact .bind (.ofExcept _) fun ifTrue => .bind (.ofExcept _) fun ifFalse => .pure rfl
termination_by sizeOf x

theorem buildSeq_twin {S : Supply} {r : Renaming} {d : Nat} (hr : S.Renames r d) (src : Source) (index : Nat)
    (xs : List SExpr) :
    Building.Twins r d (buildSeq (S := .inOrder) src index xs) (buildSeq (S := S) src index xs)
      (List.map (Stm.rename r)) := by
  unfold buildSeq
  match xs with
  | [] => exact .pure rfl
  | x :: rest =>
    refine .bind (.within _ (buildStm_twin hr src x)) fun s => ?_
    exact .bind (buildSeq_twin hr src (index + 1) rest) fun ss => .pure rfl
termination_by sizeOf xs

theorem buildExp_twin {S : Supply} {r : Renaming} {d : Nat} (hr : S.Renames r d) (src : Source) (x : SExpr) :
    Building.Twins r d (buildExp (S := .inOrder) src x) (buildExp (S := S) src x) (Exp.rename r) := by
  have rules := expRules (S := .inOrder) src
  have rules' := expRules (S := S) src
  cases expShape src x with
  | wrong h => exact .wrong (@h .inOrder) (@h S)
  | int span value =>
    rw [rules.int, rules'.int]
    exact constant_twin src _ value
  | framePointer span =>
    rw [rules.framePointer, rules'.framePointer]
    exact .pure (congrArg Exp.temp (r.keeps (by decide)))
  | result span =>
    rw [rules.result, rules'.result]
    exact .pure (congrArg Exp.temp (r.keeps (by decide)))
  | const span at' vspan value =>
    rw [rules.const, rules'.const]
    exact constant_twin src _ value
  | temp span at' n =>
    rw [rules.temp, rules'.temp]
    exact .bind (.ofExcept _) fun name => .bind (.namedTemp hr name) fun t => .pure rfl
  | formal span at' nspan value =>
    rw [rules.formal, rules'.formal]
    exact formalAt_twin src nspan value
  | «local» span at' n flag =>
    rw [rules.local, rules'.local]
    refine .bind (.ofExcept _) fun name => .bind (.ofExcept _) fun escapes => ?_
    exact .bind (.namedLocal hr name escapes) fun a => .pure (a.rename_exp _)
  | mem span at' a =>
    rw [rules.mem, rules'.mem]
    exact .bind (.within _ (buildExp_twin hr src a)) fun addr => .pure rfl
  | name span at' l =>
    rw [rules.name, rules'.name]
    exact .bind (.ofExcept _) fun name => .pure rfl
  | call span at' f args =>
    rw [rules.call, rules'.call]
    refine .bind (.within _ (buildExp_twin hr src f)) fun func => ?_
    exact .bind (buildArgs_twin hr src 0 args) fun values => .pure rfl
  | eseq span at' s e =>
    rw [rules.eseq, rules'.eseq]
    refine .bind (.within _ (buildStm_twin hr src s)) fun stm => ?_
    exact .bind (.within _ (buildExp_twin hr src e)) fun value => .pure rfl
  | bin span at' hop left right =>
    rw [buildExp_bin (S := .inOrder) src span at' hop, buildExp_bin (S := S) src span at' hop]
    refine .bind (.within _ (buildExp_twin hr src left)) fun left => ?_
    exact .bind (.within _ (buildExp_twin hr src right)) fun right => .pure rfl
termination_by sizeOf x

theorem buildArgs_twin {S : Supply} {r : Renaming} {d : Nat} (hr : S.Renames r d) (src : Source) (index : Nat)
    (xs : List SExpr) :
    Building.Twins r d (buildArgs (S := .inOrder) src index xs) (buildArgs (S := S) src index xs)
      (Exp.renameAll r) := by
  unfold buildArgs
  match xs with
  | [] => exact .pure rfl
  | x :: rest =>
    refine .bind (.within _ (buildExp_twin hr src x)) fun e => ?_
    exact .bind (buildArgs_twin hr src (index + 1) rest) fun es => .pure rfl
termination_by sizeOf xs

end

/-! ### The registers of a tree -/

/-- What names and formals stand for can be named. -/
structure Naming.Nameable (n : Nat) (formals : List Access) (names : Naming) : Prop where
  temp : ∀ name t, names.temp name = some t → t.Nameable n
  «local» : ∀ name t, names.local name = some (.inReg t) → t.Nameable n
  formals : ∀ t, .inReg t ∈ formals → t.Nameable n

/-- Storage is reached through the frame pointer, or it is a register. -/
theorem temps_access {P : Temp → Prop} (hfp : P X86.framePointer) {a : Access} (ha : ∀ t, a = .inReg t → P t) :
    ∀ t ∈ (a.exp X86.framePointerExp).temps, P t := by
  cases a with
  | inFrame offset => exact List.forall_mem_singleton.mpr hfp
  | inReg reg => exact List.forall_mem_singleton.mpr (ha reg rfl)

theorem exists_mem_of_temps_seqs {ss : List Stm} {t : Temp} (ht : t ∈ (Stm.seqs ss).temps) : ∃ s ∈ ss, t ∈ s.temps := by
  induction ss with
  | nil => cases ht
  | cons s rest ih =>
    by_cases hs : s = .hole
    · rw [hs, Stm.seqs_hole_cons] at ht
      obtain ⟨s', hmem, ht⟩ := ih ht
      exact ⟨s', List.mem_cons_of_mem s hmem, ht⟩
    · by_cases hrest : Stm.seqs rest = .hole
      · rw [Stm.seqs_cons_of_hole hrest] at ht
        exact ⟨s, List.mem_cons_self, ht⟩
      · rw [Stm.seqs_cons_of_ne hs hrest] at ht
        obtain ht | ht := List.mem_append.mp ht
        · exact ⟨s, List.mem_cons_self, ht⟩
        · obtain ⟨s', hmem, ht⟩ := ih ht
          exact ⟨s', List.mem_cons_of_mem s hmem, ht⟩

mutual

/-- The registers of a tree are the frame pointer and the result register, or its names or formals stand for them. -/
theorem StmForm.nameable {bare : Prop} {n : Nat} {formals : List Access} {names : Naming} {x : SExpr} {s : Stm}
    (h : StmForm bare formals names x s) (hn : names.Nameable n formals) : ∀ t ∈ s.temps, t.Nameable n := by
  cases h with
  | move hd _ hs => exact List.forall_mem_append.mpr ⟨hd.nameable hn, hs.nameable hn⟩
  | exp he => exact he.nameable hn
  | label | goto => exact List.forall_mem_nil _
  | seq hparts =>
    intro t ht
    obtain ⟨s, hs, ht⟩ := exists_mem_of_temps_seqs ht
    exact hparts.nameable hn s hs t ht
  | jump ht _ _ => exact ht.nameable hn
  | cjump _ hl hr _ _ => exact List.forall_mem_append.mpr ⟨hl.nameable hn, hr.nameable hn⟩
termination_by sizeOf x

theorem StmForms.nameable {bare : Prop} {n : Nat} {formals : List Access} {names : Naming} {xs : List SExpr}
    {ss : List Stm} (h : StmForms bare formals names xs ss) (hn : names.Nameable n formals) :
    ∀ s ∈ ss, ∀ t ∈ s.temps, t.Nameable n := by
  cases h with
  | nil => exact List.forall_mem_nil _
  | cons hx hxs => exact List.forall_mem_cons.mpr ⟨hx.nameable hn, hxs.nameable hn⟩
termination_by sizeOf xs

theorem ExpForm.nameable {bare : Prop} {n : Nat} {formals : List Access} {names : Naming} {x : SExpr} {e : Exp}
    (h : ExpForm bare formals names x e) (hn : names.Nameable n formals) : ∀ t ∈ e.temps, t.Nameable n := by
  cases h with
  | int | const | name => exact List.forall_mem_nil _
  | temp ht => exact List.forall_mem_singleton.mpr (hn.temp _ _ ht)
  | framePointer => exact List.forall_mem_singleton.mpr (.inl rfl)
  | result => exact List.forall_mem_singleton.mpr (.inr (.inl rfl))
  | formal ha => exact temps_access (.inl rfl) fun t ht => hn.formals t (ht ▸ List.mem_of_getElem? ha)
  | «local» ha _ => exact temps_access (.inl rfl) fun t ht => hn.local _ t (ht ▸ ha)
  | bin _ hl hr => exact List.forall_mem_append.mpr ⟨hl.nameable hn, hr.nameable hn⟩
  | mem ha => exact ha.nameable hn
  | call hf hargs => exact List.forall_mem_append.mpr ⟨hf.nameable hn, hargs.nameable hn⟩
  | eseq hs he => exact List.forall_mem_append.mpr ⟨hs.nameable hn, he.nameable hn⟩
termination_by sizeOf x

theorem ExpForms.nameable {bare : Prop} {n : Nat} {formals : List Access} {names : Naming} {xs : List SExpr}
    {es : List Exp} (h : ExpForms bare formals names xs es) (hn : names.Nameable n formals) :
    ∀ t ∈ Exp.tempsAll es, t.Nameable n := by
  cases h with
  | nil => exact List.forall_mem_nil _
  | cons hx hxs => exact List.forall_mem_append.mpr ⟨hx.nameable hn, hxs.nameable hn⟩
termination_by sizeOf xs

end

theorem Naming.Nameable.mono {n n' : Nat} {formals : List Access} {names : Naming} (h : names.Nameable n formals)
    (hle : n ≤ n') : names.Nameable n' formals :=
  ⟨fun name t ht => (h.temp name t ht).mono hle, fun name t ht => (h.local name t ht).mono hle,
    fun t ht => (h.formals t ht).mono hle⟩

theorem lookup_cons_some {α : Type} {name n : Text} {a b : α} {l : List (Text × α)}
    (h : List.lookup n ((name, a) :: l) = some b) : b = a ∨ l.lookup n = some b := by
  rw [List.lookup_cons] at h
  split at h
  · exact .inl (Option.some.inj h).symm
  · exact .inr h

/-- A new local lives in a slot or in a register that was handed out. -/
theorem addLocal_nameable {frame frame' : X86.Frame} {escapes : Bool} {session session' : Session} {a : Access}
    (h : (frame.addLocal escapes).run session = (.ok (a, frame'), session')) :
    session.temps ≤ session'.temps ∧ ∀ t, a = .inReg t → t.Nameable session'.temps := by
  obtain ⟨-, ⟨rfl, -, htemps⟩ | ⟨rfl, -, htemps⟩⟩ := X86.Frame.addLocal_cases h
  · exact ⟨Nat.le_of_eq htemps.symm, nofun⟩
  · rw [htemps]
    refine ⟨Nat.le_succ _, ?_⟩
    rintro t ⟨⟩
    exact Temp.nameable_fresh session.temps

/-- Names are given to registers that were handed out. -/
theorem Workspace.Reaches.nameable {w w' : Workspace} (h : w.Reaches w')
    (hw : w.naming.Nameable w.session.temps w.frame.formals) :
    w'.naming.Nameable w'.session.temps w'.frame.formals := by
  induction h with
  | refl => exact hw
  | @temp w' name h _ ih =>
    have hnext : w'.naming.Nameable (w'.session.temps + 1) w'.frame.formals := ih.mono (Nat.le_succ _)
    refine ⟨fun n t ht => ?_, hnext.local, hnext.formals⟩
    obtain rfl | ht := lookup_cons_some ht
    · exact Temp.nameable_fresh w'.session.temps
    · exact hnext.temp n t ht
  | @«local» w' name escapes a frame session h _ hadd ih =>
    obtain ⟨hle, ha⟩ := addLocal_nameable hadd
    have hnext : w'.naming.Nameable session.temps w'.frame.formals := ih.mono hle
    refine ⟨hnext.temp, fun n t ht => ?_, fun t ht => hnext.formals t ?_⟩
    · obtain heq | ht := lookup_cons_some ht
      · exact ha t heq.symm
      · exact hnext.local n t ht
    · exact (addLocal_keeps hadd).2.1 ▸ ht

end Program

end Lowering
