import Lowering.Proofs.Program.Bodies
import Lowering.Proofs.Reading.Trees
import Lowering.Proofs.Renaming.Registers

/-!
# Building printed trees

A form that says what a tree says is built to the tree again, with each register replaced by the one that its name
stands for. Names are given to new registers as they are met, so what a name stands for is settled only when all is
built; until then the claim about a part is that it is right under every later naming.
-/

namespace Lowering

open SExpr

namespace SExpr

/-! ### Expressions that say something given -/

theorem eq_atom_of_datum {x : SExpr} {w : Text} (h : x.datum = .atom w) : ∃ span, x = .atom span w := by
  cases x with
  | atom span text =>
    cases h
    exact ⟨span, rfl⟩
  | int | list => cases h

theorem eq_int_of_datum {x : SExpr} {v : Int} (h : x.datum = .int v) : ∃ span, x = .int span v := by
  cases x with
  | int span value =>
    cases h
    exact ⟨span, rfl⟩
  | atom | list => cases h

theorem eq_cons_of_data {xs : List SExpr} {d : Datum} {ds : List Datum} (h : data xs = d :: ds) :
    ∃ x rest, xs = x :: rest ∧ x.datum = d ∧ data rest = ds := by
  cases xs with
  | nil => cases h
  | cons x rest =>
    obtain ⟨hx, hrest⟩ := List.cons.inj h
    exact ⟨x, rest, rfl, hx, hrest⟩

theorem eq_nil_of_data {xs : List SExpr} (h : data xs = []) : xs = [] := by
  cases xs with
  | nil => rfl
  | cons x rest => cases h

theorem eq_form_of_datum {x : SExpr} {head : Text} {ds : List Datum} (h : x.datum = .list (.atom head :: ds)) :
    ∃ span at' parts, x = .list span (.atom at' head :: parts) ∧ data parts = ds := by
  cases x with
  | atom | int => cases h
  | list span items =>
    obtain ⟨y, parts, rfl, hy, hparts⟩ := eq_cons_of_data (Datum.list.inj h)
    obtain ⟨at', rfl⟩ := eq_atom_of_datum hy
    exact ⟨span, at', parts, rfl, hparts⟩

theorem eq_one_of_data {xs : List SExpr} {a : Datum} (h : data xs = [a]) : ∃ x, xs = [x] ∧ x.datum = a := by
  obtain ⟨x, rest, rfl, hx, hrest⟩ := eq_cons_of_data h
  obtain rfl := eq_nil_of_data hrest
  exact ⟨x, rfl, hx⟩

theorem eq_two_of_data {xs : List SExpr} {a b : Datum} (h : data xs = [a, b]) :
    ∃ x y, xs = [x, y] ∧ x.datum = a ∧ y.datum = b := by
  obtain ⟨x, rest, rfl, hx, hrest⟩ := eq_cons_of_data h
  obtain ⟨y, rfl, hy⟩ := eq_one_of_data hrest
  exact ⟨x, y, rfl, hx, hy⟩

end SExpr

namespace Program

namespace Workspace

/-- The register that the name of a register stands for. -/
def registerOf (w : Workspace) (t : Temp) : Temp := (w.temps.lookup t.text).getD ⟨0⟩

/-- Names stand for different registers, all handed out behind the first `n`. -/
structure Tidy (n : Nat) (w : Workspace) : Prop where
  base : n ≤ w.session.temps
  fresh : ∀ name t, (name, t) ∈ w.temps → n < t.id ∧ t.id ≤ w.session.temps
  distinct : (w.temps.map Prod.snd).Nodup

/-- Names were given to new registers, and nothing else has changed. -/
structure Grows (w w' : Workspace) : Prop where
  frame : w'.frame = w.frame
  keeps : ∀ name t, w.temps.lookup name = some t → w'.temps.lookup name = some t
  tidy : ∀ n, w.Tidy n → w'.Tidy n

theorem Grows.refl (w : Workspace) : w.Grows w := ⟨rfl, fun _ _ h => h, fun _ h => h⟩

theorem Grows.trans {w w₁ w₂ : Workspace} (h : w.Grows w₁) (h' : w₁.Grows w₂) : w.Grows w₂ :=
  ⟨h'.frame.trans h.frame, fun name t ht => h'.keeps name t (h.keeps name t ht), fun n hn => h'.tidy n (h.tidy n hn)⟩

/-- A name that is met for the first time is given to a new register. -/
theorem Grows.addTemp {w : Workspace} {name : Text} (hname : w.temps.lookup name = none) :
    w.Grows { w with
      session := (Session.freshTemp.run w.session).2
      temps := (name, (Session.freshTemp.run w.session).1) :: w.temps } := by
  refine ⟨rfl, ?_, ?_⟩
  · intro other t ht
    have hne : other ≠ name := by
      rintro rfl
      rw [hname] at ht
      cases ht
    rw [List.lookup_cons, beq_eq_false_iff_ne.mpr hne]
    exact ht
  · intro n hn
    have hnew : (Session.freshTemp.run w.session).1 = ⟨(w.session.temps : Int) + 1⟩ := rfl
    have hbase := hn.base
    refine ⟨Nat.le_succ_of_le hn.base, ?_, ?_⟩
    · intro other t ht
      show (n : Int) < t.id ∧ t.id ≤ (w.session.temps + 1 : Nat)
      rcases List.mem_cons.mp ht with heq | ht
      · cases heq
        rw [hnew]
        dsimp only
        omega
      · have := hn.fresh other t ht
        omega
    · refine List.nodup_cons.mpr ⟨?_, hn.distinct⟩
      intro hmem
      obtain ⟨⟨other, t⟩, ht, heq⟩ := List.mem_map.mp hmem
      have := hn.fresh other t ht
      rw [hnew] at heq
      cases heq
      dsimp only at this
      omega

end Workspace

namespace Building

variable {α β γ : Type}

/-- The step succeeds and only gives names, among them those of `temps`; under every later naming what it yields is
`value`. -/
def Restores (x : Building α) (w : Workspace) (value : (Temp → Temp) → α) (temps : List Temp) : Prop :=
  ∃ a w', x.run.run w = (.ok a, w') ∧ w.Grows w' ∧ (∀ t ∈ temps, ∃ u, w'.temps.lookup t.text = some u) ∧
    ∀ w'', w'.Grows w'' → a = value w''.registerOf

namespace Restores

variable {x : Building α} {f : α → Building β} {w : Workspace} {u : (Temp → Temp) → α} {v : (Temp → Temp) → β}
variable {ts ts' : List Temp}

theorem pure {a : α} (ha : ∀ w', w.Grows w' → a = u w'.registerOf) : Restores (Pure.pure a) w u [] :=
  ⟨a, w, rfl, .refl w, List.forall_mem_nil _, ha⟩

theorem bind (hx : Restores x w u ts)
    (hf : ∀ a w₁, w.Grows w₁ → (∀ w', w₁.Grows w' → a = u w'.registerOf) → Restores (f a) w₁ v ts') :
    Restores (x >>= f) w v (ts ++ ts') := by
  obtain ⟨a, w₁, hrun, hgrows, hnamed, ha⟩ := hx
  obtain ⟨b, w₂, hrun', hgrows', hnamed', hb⟩ := hf a w₁ hgrows ha
  refine ⟨b, w₂, (bind_run_ok hrun).trans hrun', hgrows.trans hgrows', ?_, hb⟩
  intro t ht
  rcases List.mem_append.mp ht with ht | ht
  · obtain ⟨r, hr⟩ := hnamed t ht
    exact ⟨r, hgrows'.keeps _ _ hr⟩
  · exact hnamed' t ht

theorem within (step : Step) (hx : Restores x w u ts) : Restores (Building.within step x) w u ts := by
  obtain ⟨a, w', hrun, hrest⟩ := hx
  exact ⟨a, w', by rw [within_run, hrun], hrest⟩

/-- The steps that follow give no names of their own. -/
theorem bind_nil (hx : Restores x w u ts)
    (hf : ∀ a w₁, w.Grows w₁ → (∀ w', w₁.Grows w' → a = u w'.registerOf) → Restores (f a) w₁ v []) :
    Restores (x >>= f) w v ts := by
  have h := hx.bind hf
  rwa [List.append_nil] at h

/-- What is made of the outcome is made of its value. -/
theorem map (g : α → β) (hx : Restores x w u ts) : Restores (x >>= fun a => Pure.pure (g a)) w (fun r => g (u r)) ts :=
  hx.bind_nil fun _ _ _ ha => .pure fun w' hw' => congrArg g (ha w' hw')

/-- What is made of two outcomes is made of their values; the first is right under the names that the second gives. -/
theorem map₂ {y : Building β} (g : α → β → γ) (hx : Restores x w u ts) (hy : ∀ w₁, Restores y w₁ v ts') :
    Restores (x >>= fun a => y >>= fun b => Pure.pure (g a b)) w (fun r => g (u r) (v r)) (ts ++ ts') := by
  refine hx.bind fun a w₁ _ ha => (hy w₁).bind_nil fun b w₂ h₂ hb => .pure ?_
  intro w' hw'
  rw [ha w' (h₂.trans hw'), hb w' hw']

theorem ofExcept_bind {r : Except FormError α} {a : α} (hr : r = .ok a) (hf : Restores (f a) w v ts) :
    Restores (Building.ofExcept r >>= f) w v ts := by
  subst hr
  exact hf

theorem get_bind {f : Workspace → Building β} (hf : Restores (f w) w v ts) : Restores (get >>= f) w v ts := hf

end Restores

theorem namedTemp_restores (t : Temp) (w : Workspace) : Restores (namedTemp t.text) w (fun r => r t) [t] := by
  apply Restores.get_bind
  cases hlookup : w.temps.lookup t.text with
  | some u =>
    refine ⟨u, w, rfl, .refl w, List.forall_mem_singleton.mpr ⟨u, hlookup⟩, ?_⟩
    intro w' hgrows
    show u = w'.registerOf t
    rw [Workspace.registerOf, hgrows.keeps _ _ hlookup]
    rfl
  | none =>
    have hself : ((t.text, (Session.freshTemp.run w.session).1) :: w.temps).lookup t.text =
        some (Session.freshTemp.run w.session).1 := List.lookup_cons_self
    refine ⟨_, _, rfl, .addTemp hlookup, List.forall_mem_singleton.mpr ⟨_, hself⟩, ?_⟩
    intro w' hgrows
    show _ = w'.registerOf t
    rw [Workspace.registerOf, hgrows.keeps _ _ hself]
    rfl

end Building

theorem nameOf_of_datum (src : Source) {x : SExpr} {w : Text} (h : x.datum = .atom w) : nameOf src x = .ok w := by
  obtain ⟨span, rfl⟩ := eq_atom_of_datum h
  rfl

theorem labelsOf_restores (src : Source) (xs : List SExpr) {ls : List Label} (h : data xs = ls.map .atom)
    (w : Workspace) : Building.Restores (labelsOf src xs) w (fun _ => ls) [] := by
  induction ls generalizing xs w with
  | nil =>
    obtain rfl := eq_nil_of_data h
    exact .pure fun _ _ => rfl
  | cons l ls ih =>
    obtain ⟨x, rest, rfl, hx, hrest⟩ := eq_cons_of_data h
    exact .ofExcept_bind (nameOf_of_datum src hx) (.map (List.cons l) (ih rest hrest w))

theorem constant_restores (src : Source) (x : SExpr) (v : Word) (w : Workspace) :
    Building.Restores (constant src x v.toInt) w (fun _ => .const v) [] := by
  have hlow := BitVec.le_toInt v
  have hhigh := BitVec.toInt_lt (x := v)
  have hrange : ¬ (v.toInt < -0x80000000 ∨ 0xffffffff < v.toInt) := by
    rintro (h | h)
    · exact absurd (Int.lt_of_le_of_lt hlow h) (by decide)
    · exact absurd (Int.lt_trans h hhigh) (by decide)
  rw [constant, if_neg hrange, BitVec.ofInt_toInt]
  exact .pure fun _ _ => rfl

theorem isDestination_rename {e : Exp} (he : e.isPlace = true) (r : Temp → Temp) :
    isDestination (e.rename r) = true := by
  cases e with
  | temp | mem => rfl
  | _ => cases he

theorem rename_ne_hole {s : Stm} (hs : s.whole = true) (r : Temp → Temp) : s.rename r ≠ .hole := by
  cases s with
  | hole => cases hs
  | _ => exact Stm.noConfusion

mutual

/-- A statement is built again from a form that says the same. -/
theorem buildStm_restores (src : Source) (s : Stm) (hs : s.whole = true) (hp : s.Printable) (x : SExpr)
    (hx : x.datum = s.datum) (w : Workspace) : Building.Restores (buildStm src x) w (fun r => s.rename r) s.temps := by
  match s with
  | .hole => cases hs
  | .move dst value =>
    obtain ⟨hdst, hvalue⟩ := Bool.and_eq_true_iff.mp hs
    obtain ⟨hplace, hpdst, hpvalue⟩ := hp
    rw [Stm.datum] at hx
    obtain ⟨span, at', parts, rfl, hparts⟩ := eq_form_of_datum hx
    obtain ⟨d, e, rfl, hd, he⟩ := eq_two_of_data hparts
    unfold buildStm
    dsimp only
    rw [show StmHead.ofText? (headOf (SExpr.atom at' "move" :: [d, e])) = some .move from rfl]
    refine .bind (.within _ (buildExp_restores src dst hdst hpdst d hd w)) fun a w₁ h₁ ha => ?_
    have hdestination : isDestination a = true := by
      rw [ha w₁ (.refl w₁)]
      exact isDestination_rename hplace _
    rw [hdestination]
    refine .bind_nil (.within _ (buildExp_restores src value hvalue hpvalue e he w₁)) fun b w₂ h₂ hb => .pure ?_
    intro w' hw'
    rw [ha w' (h₂.trans hw'), hb w' hw']
    rfl
  | .exp e =>
    rw [Stm.datum] at hx
    obtain ⟨span, at', parts, rfl, hparts⟩ := eq_form_of_datum hx
    obtain ⟨y, rfl, hy⟩ := eq_one_of_data hparts
    unfold buildStm
    dsimp only
    rw [show StmHead.ofText? (headOf (SExpr.atom at' "exp" :: [y])) = some .exp from rfl]
    exact .map Stm.exp (buildExp_restores src e hs hp y hy w)
  | .label l =>
    rw [Stm.datum] at hx
    obtain ⟨span, at', parts, rfl, hparts⟩ := eq_form_of_datum hx
    obtain ⟨y, rfl, hy⟩ := eq_one_of_data hparts
    unfold buildStm
    dsimp only
    rw [show StmHead.ofText? (headOf (SExpr.atom at' "label" :: [y])) = some .label from rfl]
    exact .ofExcept_bind (nameOf_of_datum src hy) (.pure fun _ _ => rfl)
  | .seq first second =>
    obtain ⟨hfirst, hsecond⟩ := Bool.and_eq_true_iff.mp hs
    obtain ⟨-, -, hpfirst, hpsecond⟩ := hp
    rw [Stm.datum] at hx
    obtain ⟨span, at', parts, rfl, hparts⟩ := eq_form_of_datum hx
    obtain ⟨y, z, rfl, hy, hz⟩ := eq_two_of_data hparts
    unfold buildStm
    dsimp only
    rw [show StmHead.ofText? (headOf (SExpr.atom at' "seq" :: [y, z])) = some .seq from rfl]
    have hparts : Building.Restores (buildSeq src 0 [y, z]) w (fun r => [first.rename r, second.rename r])
        (first.temps ++ second.temps) := by
      simp only [buildSeq, bind_assoc, pure_bind]
      exact .map₂ (fun a b => [a, b]) (.within _ (buildStm_restores src first hfirst hpfirst y hy w)) fun w₁ =>
        .within _ (buildStm_restores src second hsecond hpsecond z hz w₁)
    have hseqs (r : Temp → Temp) : Stm.seqs [first.rename r, second.rename r] =
        .seq (first.rename r) (second.rename r) := by
      have hone : Stm.seqs [second.rename r] = second.rename r := Stm.seqs_cons_of_hole rfl
      rw [Stm.seqs_cons_of_ne (rename_ne_hole hfirst r), hone]
      rw [hone]
      exact rename_ne_hole hsecond r
    have hbuilt := hparts.map Stm.seqs
    simp only [hseqs] at hbuilt
    exact hbuilt
  | .jump target labels =>
    obtain ⟨hptarget, hne, -⟩ := hp
    rw [Stm.datum] at hx
    obtain ⟨span, at', parts, rfl, hparts⟩ := eq_form_of_datum hx
    obtain ⟨y, ls, rfl, hy, hls⟩ := eq_cons_of_data hparts
    -- A jump that was printed has a label, so it is not taken for the short form.
    obtain ⟨l, rest, rfl⟩ := List.exists_cons_of_ne_nil hne
    obtain ⟨z, zs, rfl, hz, hzs⟩ := eq_cons_of_data hls
    unfold buildStm
    dsimp only
    rw [show StmHead.ofText? (headOf (SExpr.atom at' "jump" :: y :: z :: zs)) = some .jump from rfl]
    have hbuilt := Building.Restores.map₂ Stm.jump
      (.within .jumpTarget (buildExp_restores src target hs hptarget y hy w)) (labelsOf_restores src (z :: zs) hls)
    rwa [List.append_nil] at hbuilt
  | .cjump rel left right t f =>
    obtain ⟨hleft, hright⟩ := Bool.and_eq_true_iff.mp hs
    obtain ⟨hrel, hpleft, hpright, -, -⟩ := hp
    rw [Stm.datum] at hx
    obtain ⟨span, at', parts, rfl, hparts⟩ := eq_form_of_datum hx
    obtain ⟨o, parts, rfl, ho, hparts⟩ := eq_cons_of_data hparts
    obtain ⟨y, parts, rfl, hy, hparts⟩ := eq_cons_of_data hparts
    obtain ⟨z, parts, rfl, hz, hparts⟩ := eq_cons_of_data hparts
    obtain ⟨yes, no, rfl, hyes, hno⟩ := eq_two_of_data hparts
    unfold buildStm
    dsimp only
    rw [show StmHead.ofText? (headOf (SExpr.atom at' "cjump" :: [o, y, z, yes, no])) = some .cjump from rfl]
    refine .ofExcept_bind (nameOf_of_datum src ho) ?_
    rw [rel_ofText hrel]
    refine .bind (.within _ (buildExp_restores src left hleft hpleft y hy w)) fun a w₁ h₁ ha => ?_
    refine .bind_nil (.within _ (buildExp_restores src right hright hpright z hz w₁)) fun b w₂ h₂ hb => ?_
    refine .ofExcept_bind (nameOf_of_datum src hyes) (.ofExcept_bind (nameOf_of_datum src hno) (.pure ?_))
    intro w' hw'
    rw [ha w' (h₂.trans hw'), hb w' hw']
    rfl

theorem buildExp_restores (src : Source) (e : Exp) (he : e.whole = true) (hp : e.Printable) (x : SExpr)
    (hx : x.datum = e.datum) (w : Workspace) : Building.Restores (buildExp src x) w (fun r => e.rename r) e.temps := by
  match e with
  | .hole => cases he
  | .const v =>
    rw [Exp.datum] at hx
    obtain ⟨span, at', parts, rfl, hparts⟩ := eq_form_of_datum hx
    obtain ⟨y, rfl, hy⟩ := eq_one_of_data hparts
    obtain ⟨at'', rfl⟩ := eq_int_of_datum hy
    unfold buildExp
    dsimp only
    rw [show ExpHead.ofText? (headOf (SExpr.atom at' "const" :: [.int at'' v.toInt])) = some .const from rfl]
    exact constant_restores src _ v w
  | .temp t =>
    rw [Exp.datum] at hx
    obtain ⟨span, at', parts, rfl, hparts⟩ := eq_form_of_datum hx
    obtain ⟨y, rfl, hy⟩ := eq_one_of_data hparts
    unfold buildExp
    dsimp only
    rw [show ExpHead.ofText? (headOf (SExpr.atom at' "temp" :: [y])) = some .temp from rfl]
    exact .ofExcept_bind (nameOf_of_datum src hy) (.map Exp.temp (Building.namedTemp_restores t w))
  | .bin op left right =>
    obtain ⟨hleft, hright⟩ := Bool.and_eq_true_iff.mp he
    obtain ⟨hop, hpleft, hpright⟩ := hp
    rw [Exp.datum] at hx
    obtain ⟨span, at', parts, rfl, hparts⟩ := eq_form_of_datum hx
    obtain ⟨y, z, rfl, hy, hz⟩ := eq_two_of_data hparts
    unfold buildExp
    dsimp only
    rw [show ExpHead.ofText? (headOf (SExpr.atom at' op.text :: [y, z])) = none from expHead_op hop]
    dsimp only
    rw [show Op.ofText? (headOf (SExpr.atom at' op.text :: [y, z])) = some op from op_ofText hop]
    exact .map₂ (Exp.bin op) (.within _ (buildExp_restores src left hleft hpleft y hy w)) fun w₁ =>
      .within _ (buildExp_restores src right hright hpright z hz w₁)
  | .mem addr =>
    rw [Exp.datum] at hx
    obtain ⟨span, at', parts, rfl, hparts⟩ := eq_form_of_datum hx
    obtain ⟨y, rfl, hy⟩ := eq_one_of_data hparts
    unfold buildExp
    dsimp only
    rw [show ExpHead.ofText? (headOf (SExpr.atom at' "mem" :: [y])) = some .mem from rfl]
    exact .map Exp.mem (.within _ (buildExp_restores src addr he hp y hy w))
  | .call func args =>
    obtain ⟨hfunc, hargs⟩ := Bool.and_eq_true_iff.mp he
    obtain ⟨hpfunc, hpargs⟩ := hp
    rw [Exp.datum] at hx
    obtain ⟨span, at', parts, rfl, hparts⟩ := eq_form_of_datum hx
    obtain ⟨y, ys, rfl, hy, hys⟩ := eq_cons_of_data hparts
    unfold buildExp
    dsimp only
    rw [show ExpHead.ofText? (headOf (SExpr.atom at' "call" :: y :: ys)) = some .call from rfl]
    exact .map₂ Exp.call (.within _ (buildExp_restores src func hfunc hpfunc y hy w)) fun w₁ =>
      buildArgs_restores src 0 args hargs hpargs ys hys w₁
  | .name l =>
    rw [Exp.datum] at hx
    obtain ⟨span, at', parts, rfl, hparts⟩ := eq_form_of_datum hx
    obtain ⟨y, rfl, hy⟩ := eq_one_of_data hparts
    unfold buildExp
    dsimp only
    rw [show ExpHead.ofText? (headOf (SExpr.atom at' "name" :: [y])) = some .name from rfl]
    exact .ofExcept_bind (nameOf_of_datum src hy) (.pure fun _ _ => rfl)
  | .eseq s e =>
    obtain ⟨hs, he⟩ := Bool.and_eq_true_iff.mp he
    obtain ⟨hps, hpe⟩ := hp
    rw [Exp.datum] at hx
    obtain ⟨span, at', parts, rfl, hparts⟩ := eq_form_of_datum hx
    obtain ⟨y, z, rfl, hy, hz⟩ := eq_two_of_data hparts
    unfold buildExp
    dsimp only
    rw [show ExpHead.ofText? (headOf (SExpr.atom at' "eseq" :: [y, z])) = some .eseq from rfl]
    exact .map₂ Exp.eseq (.within _ (buildStm_restores src s hs hps y hy w)) fun w₁ =>
      .within _ (buildExp_restores src e he hpe z hz w₁)

theorem buildArgs_restores (src : Source) (index : Nat) (es : List Exp) (hes : Exp.wholeAll es = true)
    (hp : Exp.PrintableAll es) (xs : List SExpr) (hxs : data xs = Exp.data es) (w : Workspace) :
    Building.Restores (buildArgs src index xs) w (fun r => Exp.renameAll r es) (Exp.tempsAll es) := by
  match es with
  | [] =>
    obtain rfl := eq_nil_of_data hxs
    unfold buildArgs
    exact .pure fun _ _ => rfl
  | e :: es =>
    obtain ⟨he, hes⟩ := Bool.and_eq_true_iff.mp hes
    obtain ⟨hpe, hpes⟩ := hp
    obtain ⟨y, ys, rfl, hy, hys⟩ := eq_cons_of_data hxs
    unfold buildArgs
    exact .map₂ List.cons (.within _ (buildExp_restores src e he hpe y hy w)) fun w₁ =>
      buildArgs_restores src (index + 1) es hes hpes ys hys w₁

end

end Program

end Lowering
