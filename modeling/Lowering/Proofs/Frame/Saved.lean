import Lowering.Proofs.Definedness.Chains
import Lowering.Proofs.Renaming.Functions

/-!
# Registers that a function hands back

Three registers belong to the caller. Entry code copies each of them to a fresh register, exit code copies it back, and
nothing else in the code of a function defines the one or touches the other: a body names no fixed registers but the
frame pointer and the result register, what blocks change on the side are other registers, and those that tiling takes
are fresh. So the three registers survive every function, whatever its body does.
-/

namespace Lowering

namespace X86

/-! ### Sequences -/

namespace Lowers

variable {n n' : Nat} {xs : List Subtree} {code : List Instr} {regs : List Temp}

/-- Statements that are there. -/
def present (ss : List Stm) : List Subtree := (ss.filter (!Kind.stm.isHole ·)).map .stm

theorem present_append (ss ss' : List Stm) : present (ss ++ ss') = present ss ++ present ss' := by
  simp [present]

theorem mem_present {ss : List Stm} {x : Subtree} (hx : x ∈ present ss) : ∃ s ∈ ss, x = .stm s := by
  obtain ⟨s, hs, rfl⟩ := List.mem_map.mp hx
  exact ⟨s, List.mem_of_mem_filter hs, rfl⟩

theorem present_of_seqs {ss : List Stm} (h : Stm.seqs ss = .hole) : present ss = [] := by
  induction ss with
  | nil => rfl
  | cons s rest ih =>
    by_cases hs : s = .hole
    · rw [hs, Stm.seqs_hole_cons] at h
      rw [hs, ← ih h]
      rfl
    · by_cases hrest : Stm.seqs rest = .hole
      · rw [Stm.seqs_cons_of_hole hrest] at h
        exact absurd h hs
      · rw [Stm.seqs_cons_of_ne hs hrest] at h
        cases h

theorem present_cons {s : Stm} (hs : s ≠ .hole) (rest : List Stm) : present (s :: rest) = .stm s :: present rest := by
  have hhole : Kind.stm.isHole s = false := Bool.eq_false_iff.mpr (mt isHole_stm_iff.mp hs)
  simp [present, hhole]

/-- A sequence is lowered statement by statement. -/
theorem of_seqs {ss : List Stm} (h : Lowers n [.stm (Stm.seqs ss)] code regs n') :
    Lowers n (present ss) code [] n' := by
  induction ss generalizing n code regs with
  | nil =>
    cases h with
    | cons htile => cases htile
  | cons s rest ih =>
    by_cases hs : s = .hole
    · rw [hs, Stm.seqs_hole_cons] at h
      rw [hs]
      exact ih h
    · rw [present_cons hs]
      by_cases hrest : Stm.seqs rest = .hole
      · rw [Stm.seqs_cons_of_hole hrest] at h
        rw [present_of_seqs hrest, ← h.regs_stm]
        exact h
      · rw [Stm.seqs_cons_of_ne hs hrest] at h
        obtain ⟨c, rs, n₁, hparts, rfl, -, rfl⟩ := h.node rfl
        obtain ⟨c₁, r₁, n₂, c₂, r₂, hfirst, hsecond, rfl, -⟩ := split [.stm s] hparts
        obtain rfl : r₁ = [] := hfirst.regs_stm
        have h := hfirst.append (ih hsecond)
        simpa [Tile.block, Tile.next, Tile.takesFresh] using h

/-- Moves from register to register are copies. -/
theorem of_copies {α : Type} (dst src : α → Temp) (ps : List α) (n : Nat) :
    Lowers n (present (ps.map fun p => .move (.temp (dst p)) (.temp (src p)))) (ps.map fun p => copy (dst p) (src p)) []
      n := by
  induction ps with
  | nil => exact .nil n
  | cons p rest ih =>
    have hsource : tile? (.exp (.temp (src p))) = some (.temp (src p)) := rfl
    have htile : tile? (.stm (.move (.temp (dst p)) (.temp (src p)))) = some (.setCopy (dst p) (.temp (src p))) := rfl
    exact .cons htile (.cons hsource (.nil n) (.nil n)) ih

/-! ### Registers that code leaves alone -/

variable {t : Temp}

/-- Code defines no register that was there before, unless its trees name it or blocks change it on the side. -/
theorem not_defined (h : Lowers n xs code regs n') (htemps : ∀ x ∈ xs, t ∉ x.temps) (hside : t ∉ sideRegisters)
    (hold : t.id ≤ n) : ∀ x ∈ code, t ∉ x.defs := by
  intro x hx hdef
  obtain ⟨y, hy, hwrite⟩ | ⟨hfresh, -⟩ := h.mem_definedBy (List.mem_flatMap.mpr ⟨x, hx, hdef⟩)
  · obtain htemp | hmem := h.temps_of_writes hy hwrite
    · exact htemps y hy htemp
    · exact hside hmem
  · omega

/-- Nor does it use a virtual register that was there before and that its trees do not name. -/
theorem not_used (h : Lowers n xs code regs n') (htemps : ∀ x ∈ xs, t ∉ x.temps) (hpos : 0 < t.id) (hold : t.id ≤ n) :
    ∀ x ∈ code, t ∉ x.uses := by
  have hside : t ∉ sideRegisters := fun hmem => by
    have := neg_of_mem_sideRegisters hmem
    omega
  have hlive : ∀ x ∈ xs, ∀ u ∈ x.temps, u.isFixed = true ∨ u ∈ xs.flatMap Subtree.temps := fun x hx u hu =>
    .inr (List.mem_flatMap.mpr ⟨x, hx, hu⟩)
  obtain ⟨hdefined, -⟩ := h.definedBeforeUse hlive
  intro x hx huse
  obtain ⟨i, hi⟩ := List.mem_iff_getElem?.mp hx
  obtain hfixed | hmem | ⟨j, y, -, hy, hdef⟩ := hdefined i x hi t huse
  · have := of_decide_eq_true hfixed
    omega
  · obtain ⟨y, hy, ht⟩ := List.mem_flatMap.mp hmem
    exact htemps y hy ht
  · exact h.not_defined htemps hside hold y (List.mem_of_getElem? hy) hdef

end Lowers

/-! ### What it means to hand back -/

/-- Register `r` is copied to `t` in front of the code and back behind it. Nothing else defines `r`, and nothing else
defines or uses `t`. -/
structure Saved (entry code exit : List Instr) (r t : Temp) : Prop where
  virtual : t.isFixed = false
  save : copy t r ∈ entry
  restore : copy r t ∈ exit
  defines_register : (entry ++ code ++ exit).filter (r ∈ ·.defs) = [copy r t]
  defines_copy : (entry ++ code ++ exit).filter (t ∈ ·.defs) = [copy t r]
  uses_copy : (entry ++ code ++ exit).filter (t ∈ ·.uses) = [copy r t]

/-- The registers that belong to the caller are saved, each in a register of its own that is no formal and that the body
does not name. The result stays where it is. -/
structure HandsBack (formals : List Access) (body : Stm) (entry code exit : List Instr) (saved : List (Temp × Temp)) :
    Prop where
  registers : saved.map Prod.fst = calleeSaved
  distinct : (saved.map Prod.snd).Nodup
  saves : ∀ p ∈ saved, Saved entry code exit p.1 p.2
  not_formal : ∀ p ∈ saved, .inReg p.2 ∉ formals
  not_named : ∀ p ∈ saved, p.2 ∉ body.temps
  result : ∀ x ∈ exit, resultRegister ∉ x.defs

/-- The code is what tiling the body appends. A body that is not there has none. -/
def IsCode (body : Stm) (code : List Instr) : Prop :=
  body = .hole ∧ code = [] ∨ ∃ n n', (X86.rules.tileStm body).Yields n code (.ok ()) n'

/-! ### Copies -/

section Copies

variable {α : Type} {ps : List α} {p : α}

/-- Only one item has the key of an item, if no two have the same. -/
theorem filter_key {f : α → Temp} (hps : (ps.map f).Nodup) (hp : p ∈ ps) : ps.filter (f p = f ·) = [p] := by
  induction ps with
  | nil => cases hp
  | cons q rest ih =>
    obtain ⟨hq, hrest⟩ := List.nodup_cons.mp hps
    obtain rfl | hp := List.mem_cons.mp hp
    · rw [List.filter_cons_of_pos (by simp), List.filter_eq_nil_iff.mpr]
      intro q hmem heq
      exact hq (List.mem_map.mpr ⟨q, hmem, (of_decide_eq_true heq).symm⟩)
    · have hne : f p ≠ f q := fun heq => hq (heq ▸ List.mem_map_of_mem hp)
      rw [List.filter_cons_of_neg (by simpa using hne), ih hrest hp]

theorem filter_copies {g : α → Instr} {f : α → Temp} {regsOf : Instr → List Temp} (hg : ∀ q, regsOf (g q) = [f q])
    (hps : (ps.map f).Nodup) (hp : p ∈ ps) : (ps.map g).filter (f p ∈ regsOf ·) = [g p] := by
  rw [List.filter_map, ← List.map_singleton, ← filter_key hps hp]
  simp [Function.comp_def, hg]

theorem filter_none {t : Temp} {regsOf : Instr → List Temp} {code : List Instr} (h : ∀ x ∈ code, t ∉ regsOf x) :
    code.filter (t ∈ regsOf ·) = [] := by
  simpa [List.filter_eq_nil_iff] using h

end Copies

/-- Code that neither defines `r` nor touches `t`. -/
structure Spares (r t : Temp) (code : List Instr) : Prop where
  register : ∀ x ∈ code, r ∉ x.defs
  defs : ∀ x ∈ code, t ∉ x.defs
  uses : ∀ x ∈ code, t ∉ x.uses

/-- The copies that save registers. -/
def saveCopies (saved : List (Temp × Temp)) : List Instr := saved.map fun q => copy q.2 q.1

/-- The copies that restore registers. -/
def restoreCopies (saved : List (Temp × Temp)) : List Instr := saved.map fun q => copy q.1 q.2

/-- The note of the registers in use when a function returns. -/
def exitNote : Instr := .oper [] [] Frame.liveAtExit [] []

section Pieces

variable {moves code : List Instr} {saved : List (Temp × Temp)} {p q : Temp × Temp}

theorem register_ne_copy (hregs : saved.map Prod.fst = calleeSaved) (hvirtual : ∀ p ∈ saved, 0 < p.2.id)
    (hp : p ∈ saved) (hq : q ∈ saved) : p.1 ≠ q.2 := by
  have hall : ∀ r ∈ calleeSaved, r.id < 0 := by decide
  have hlow := hall p.1 (hregs ▸ List.mem_map_of_mem hp)
  have hhigh := hvirtual q hq
  intro heq
  rw [heq] at hlow
  omega

theorem not_mem_saveCopies (hp : ∀ q ∈ saved, p.1 ≠ q.2 ∧ q.1 ≠ p.2) :
    (∀ x ∈ saveCopies saved, p.1 ∉ x.defs) ∧ ∀ x ∈ saveCopies saved, p.2 ∉ x.uses := by
  simp only [saveCopies, List.forall_mem_map]
  exact ⟨fun q hq => by simpa using (hp q hq).1, fun q hq => by simpa using (hp q hq).2.symm⟩

theorem not_mem_restoreCopies (hp : ∀ q ∈ saved, q.1 ≠ p.2) : ∀ x ∈ restoreCopies saved, p.2 ∉ x.defs := by
  rw [restoreCopies, List.forall_mem_map]
  intro q hq
  simpa using (hp q hq).symm

theorem not_mem_exitNote {t : Temp} (ht : 0 < t.id) : t ∉ exitNote.uses := by
  have hall : ∀ t ∈ exitNote.uses, t.id < 0 := by decide
  intro hmem
  have hneg := hall t hmem
  omega

/-- Between copies there and back, and a note at the end, code that spares a register and its copy. -/
theorem Saved.of_spares (hregs : saved.map Prod.fst = calleeSaved) (hcopies : (saved.map Prod.snd).Nodup)
    (hvirtual : ∀ p ∈ saved, 0 < p.2.id) (hp : p ∈ saved) (hmoves : Spares p.1 p.2 moves)
    (hcode : Spares p.1 p.2 code) :
    Saved (moves ++ saveCopies saved) code (restoreCopies saved ++ [exitNote]) p.1 p.2 := by
  have hpos := hvirtual p hp
  have hne (q : Temp × Temp) (hq : q ∈ saved) : p.1 ≠ q.2 ∧ q.1 ≠ p.2 :=
    ⟨register_ne_copy hregs hvirtual hp hq, register_ne_copy hregs hvirtual hq hp⟩
  obtain ⟨hsaves, hsaves'⟩ := not_mem_saveCopies hne
  have hrestores := not_mem_restoreCopies fun q hq => (hne q hq).2
  have hnote : ∀ x ∈ [exitNote], p.2 ∉ x.uses := List.forall_mem_singleton.mpr (not_mem_exitNote hpos)
  have hnodup : (saved.map Prod.fst).Nodup := by
    rw [hregs]
    decide
  refine ⟨?_, ?_, ?_, ?_, ?_, ?_⟩
  · simp only [Temp.isFixed, decide_eq_false_iff_not]
    omega
  · exact List.mem_append_right moves (List.mem_map_of_mem hp)
  · exact List.mem_append_left _ (List.mem_map_of_mem hp)
  · have honly : (restoreCopies saved).filter (p.1 ∈ ·.defs) = [copy p.1 p.2] :=
      filter_copies (fun q => rfl) hnodup hp
    simp only [List.filter_append, filter_none hmoves.register, filter_none hcode.register, filter_none hsaves, honly]
    rfl
  · have honly : (saveCopies saved).filter (p.2 ∈ ·.defs) = [copy p.2 p.1] :=
      filter_copies (fun q => rfl) hcopies hp
    simp only [List.filter_append, filter_none hmoves.defs, filter_none hcode.defs, filter_none hrestores, honly]
    rfl
  · have honly : (restoreCopies saved).filter (p.2 ∈ ·.uses) = [copy p.1 p.2] :=
      filter_copies (fun q => rfl) hcopies hp
    simp only [List.filter_append, filter_none hmoves.uses, filter_none hcode.uses, filter_none hsaves', honly,
      filter_none hnote]
    rfl

end Pieces

/-! ### Frames -/

theorem not_nameable_of_calleeSaved {n : Nat} {r : Temp} (hr : r ∈ calleeSaved) : ¬ r.Nameable n := by
  have hall : ∀ r ∈ calleeSaved, r ≠ framePointer ∧ r ≠ resultRegister ∧ r.id < 0 := by decide
  obtain ⟨hfp, hrv, hneg⟩ := hall r hr
  rintro (rfl | rfl | ⟨hpos, -⟩)
  · exact hfp rfl
  · exact hrv rfl
  · omega

theorem not_nameable_of_lt {n : Nat} {t : Temp} (ht : (n : Int) < t.id) : ¬ t.Nameable n := by
  have hneg : framePointer.id < 0 ∧ resultRegister.id < 0 := by decide
  rintro (rfl | rfl | ⟨-, hle⟩) <;> omega

/-- Trees that name nothing but what a body can name spare the registers of the caller and later registers. -/
theorem Lowers.spares {n n' m : Nat} {xs : List Subtree} {code : List Instr} {regs : List Temp} {r t : Temp}
    (h : Lowers n xs code regs n') (hxs : ∀ x ∈ xs, ∀ u ∈ x.temps, u.Nameable m) (hr : r ∈ calleeSaved)
    (hlow : (m : Int) < t.id) (hhigh : t.id ≤ n) : Spares r t code := by
  have hreg : ∀ x ∈ xs, r ∉ x.temps := fun x hx hmem => not_nameable_of_calleeSaved hr (hxs x hx r hmem)
  have hcopy : ∀ x ∈ xs, t ∉ x.temps := fun x hx hmem => not_nameable_of_lt hlow (hxs x hx t hmem)
  have hfixed : ∀ r ∈ calleeSaved, r ∉ sideRegisters ∧ r.id < 0 := by decide
  have hvirtual : t ∉ sideRegisters := fun hmem => by
    have := neg_of_mem_sideRegisters hmem
    omega
  obtain ⟨hside, hneg⟩ := hfixed r hr
  exact ⟨h.not_defined hreg hside (by omega), h.not_defined hcopy hvirtual hhigh, h.not_used hcopy (by omega) hhigh⟩

theorem isCode_of_lowers {n n' : Nat} {body : Stm} {code : List Instr} {regs : List Temp}
    (h : Lowers n (Lowers.present [body]) code regs n') : IsCode body code := by
  by_cases hbody : body = .hole
  · rw [hbody] at h
    cases h
    exact .inl ⟨hbody, rfl⟩
  · rw [Lowers.present_cons hbody] at h
    exact .inr ⟨n, n', tileStm_run h⟩

/-- The registers of the caller, each with the register that it is saved in. -/
def savedPairs (n : Nat) : List (Temp × Temp) := calleeSaved.zip (freshRegisters n calleeSaved.length)

theorem fst_savedPairs (n : Nat) : (savedPairs n).map Prod.fst = calleeSaved := by
  rw [savedPairs, List.map_fst_zip (by simp [freshRegisters])]

theorem nodup_savedPairs (n : Nat) : ((savedPairs n).map Prod.snd).Nodup := by
  rw [savedPairs, List.map_snd_zip (by simp [freshRegisters])]
  exact nodup_freshRegisters n _

theorem mem_savedPairs {n : Nat} {p : Temp × Temp} (hp : p ∈ savedPairs n) :
    p.1 ∈ calleeSaved ∧ (n : Int) < p.2.id ∧ p.2.id ≤ (n + calleeSaved.length : Nat) := by
  obtain ⟨hreg, hfresh⟩ := List.of_mem_zip hp
  exact ⟨hreg, mem_freshRegisters hfresh⟩

/-- A body in its frame is lowered to the code of entry moves, copies, the code of the body and copies back. -/
theorem Frame.lowers_wrap {frame : Frame} {body : Stm} {session : Session} {code : List Instr} {regs : List Temp}
    {n' : Nat}
    (h : Lowers ((frame.wrap body).run session).2.temps [.stm ((frame.wrap body).run session).1] code regs n') :
    ∃ moves c n₁ n₂ r₁ r₂,
      Lowers (session.temps + calleeSaved.length) (Lowers.present (entryMoves 0 frame.formals)) moves r₁ n₁ ∧
      Lowers n₁ (Lowers.present [body]) c r₂ n₂ ∧
      code = moves ++ saveCopies (savedPairs session.temps) ++ c ++ restoreCopies (savedPairs session.temps) := by
  obtain ⟨hpairs, htemps⟩ := Frame.saveRegisters_spec calleeSaved session
  have hcounter : ((frame.wrap body).run session).2.temps = session.temps + calleeSaved.length := htemps
  rw [Frame.wrap_eq, hcounter] at h
  have hall := h.of_seqs
  rw [Frame.entry, Frame.exit, hpairs, ← savedPairs, Lowers.present_append, Lowers.present_append,
    Lowers.present_append] at hall
  obtain ⟨_, _, n₃, restores, _, hfront, hrestores, rfl, -⟩ := Lowers.split _ hall
  obtain ⟨_, _, n₂, c, r₂, hentry, hc, rfl, -⟩ := Lowers.split _ hfront
  obtain ⟨moves, r₁, n₁, saves, _, hmoves, hsaves, rfl, -⟩ := Lowers.split _ hentry
  obtain ⟨rfl, -, rfl⟩ := (Lowers.of_copies Prod.snd Prod.fst _ n₁).unique hsaves
  obtain ⟨rfl, -, rfl⟩ := (Lowers.of_copies Prod.fst Prod.snd _ n₃).unique hrestores
  exact ⟨moves, c, n₁, n₃, r₁, r₂, hmoves, hc, rfl⟩

/-- Wrapped in its frame, a body is lowered to code that hands the registers of the caller back. -/
theorem Frame.handsBack {frame : Frame} {body : Stm} {session : Session} {code : List Instr} {regs : List Temp}
    {n' : Nat}
    (hformals : ∀ t, .inReg t ∈ frame.formals → t.Nameable session.temps)
    (hbody : ∀ t ∈ body.temps, t.Nameable session.temps)
    (h : Lowers ((frame.wrap body).run session).2.temps [.stm ((frame.wrap body).run session).1] code regs n') :
    ∃ entry c exit saved, Frame.withExit code = entry ++ c ++ exit ∧ IsCode body c ∧
      HandsBack frame.formals body entry c exit saved := by
  obtain ⟨moves, c, n₁, n₂, r₁, r₂, hmoves, hc, rfl⟩ := Frame.lowers_wrap h
  refine ⟨moves ++ saveCopies (savedPairs session.temps), c, restoreCopies (savedPairs session.temps) ++ [exitNote],
    savedPairs session.temps, ?_, isCode_of_lowers hc, fst_savedPairs _, nodup_savedPairs _, fun p hp => ?_, ?_, ?_, ?_⟩
  · simp [Frame.withExit, exitNote]
  · obtain ⟨hreg, hlow, hhigh⟩ := mem_savedPairs hp
    refine Saved.of_spares (fst_savedPairs _) (nodup_savedPairs _) ?_ hp ?_ ?_
    · intro q hq
      have := (mem_savedPairs hq).2.1
      omega
    · refine hmoves.spares ?_ hreg hlow hhigh
      intro x hx
      obtain ⟨s, hs, rfl⟩ := Lowers.mem_present hx
      exact Frame.temps_entryMoves (.inl rfl) hformals 0 s hs
    · have hle := hmoves.le
      refine hc.spares ?_ hreg hlow (by omega)
      intro x hx
      obtain ⟨s, hs, rfl⟩ := Lowers.mem_present hx
      obtain rfl := List.mem_singleton.mp hs
      exact hbody
  · intro p hp hmem
    exact not_nameable_of_lt (mem_savedPairs hp).2.1 (hformals p.2 hmem)
  · intro p hp hmem
    exact not_nameable_of_lt (mem_savedPairs hp).2.1 (hbody p.2 hmem)
  · refine List.forall_mem_append.mpr ⟨List.forall_mem_map.mpr fun q hq hmem => ?_, by simp [exitNote]⟩
    have hresult : ∀ r ∈ calleeSaved, resultRegister ≠ r := by decide
    exact hresult q.1 (mem_savedPairs hq).1 (List.mem_singleton.mp hmem)

end X86

namespace Program

/-- Whatever a declared function does, if it is lowered, its code hands the registers of the caller back: it consists of
entry code that saves them, the code of the body that was built, and exit code that restores them. -/
theorem registers_of_caller_survive (d : Declaration) (options : Options) (session session' : Session)
    (p : X86.Procedure) (h : (d.function.lower options).run.run session = (.ok p, session')) :
    ∃ body w entry code exit saved, d.build (d.frame session).1 (d.frame session).2 = (.ok body, w) ∧
      p.body = entry ++ code ++ exit ∧ X86.IsCode body code ∧
      X86.HandsBack p.frame.formals body entry code exit saved := by
  obtain ⟨body, w, code, regs, n', hbuild, hlowers, rfl⟩ := Declaration.lower_ok h
  obtain ⟨-, hformals, htemps⟩ := Declaration.build_nameable hbuild
  obtain ⟨entry, c, exit, saved, hcode, hc, hback⟩ := X86.Frame.handsBack hformals htemps hlowers
  exact ⟨body, w, entry, c, exit, saved, hbuild, hcode, hc, hback⟩

/-- A function that calls another one with the quotient of its arguments, and returns what that returns. -/
def divideThenCall : Declaration :=
  let text : Text := "(func f (false true) (seq (move (local x false) (/ (formal 0) (formal 1))) " ++
    "(move rv (call (name g) (local x false)))))"
  { name := "f"
    escapes := [false, true]
    source := Source.ofFile "f.ir" text
    body := .list ⟨21, 117⟩ [.atom ⟨22, 25⟩ "seq",
      .list ⟨26, 74⟩ [.atom ⟨27, 31⟩ "move",
        .list ⟨32, 47⟩ [.atom ⟨33, 38⟩ "local", .atom ⟨39, 40⟩ "x", .atom ⟨41, 46⟩ "false"],
        .list ⟨48, 73⟩ [.atom ⟨49, 50⟩ "/", .list ⟨51, 61⟩ [.atom ⟨52, 58⟩ "formal", .int ⟨59, 60⟩ 0],
          .list ⟨62, 72⟩ [.atom ⟨63, 69⟩ "formal", .int ⟨70, 71⟩ 1]]],
      .list ⟨75, 116⟩ [.atom ⟨76, 80⟩ "move", .atom ⟨81, 83⟩ "rv",
        .list ⟨84, 115⟩ [.atom ⟨85, 89⟩ "call", .list ⟨90, 98⟩ [.atom ⟨91, 95⟩ "name", .atom ⟨96, 97⟩ "g"],
          .list ⟨99, 114⟩ [.atom ⟨100, 105⟩ "local", .atom ⟨106, 107⟩ "x", .atom ⟨108, 113⟩ "false"]]]] }

/-- Division and call change registers of their own, and the second argument moves to the slot of the first. -/
theorem divideThenCall_hands_registers_back :
    ∃ p session' body w entry code exit saved,
      (divideThenCall.function.lower (x86Checking true)).run.run { temps := 4 } = (.ok p, session') ∧
      divideThenCall.build (divideThenCall.frame { temps := 4 }).1 (divideThenCall.frame { temps := 4 }).2 =
        (.ok body, w) ∧
      p.body = entry ++ code ++ exit ∧ X86.IsCode body code ∧
      X86.HandsBack p.frame.formals body entry code exit saved := by
  have hok : ((divideThenCall.function.lower (x86Checking true)).run.run { temps := 4 }).1.isOk = true := by
    decide +kernel
  cases hlower : (divideThenCall.function.lower (x86Checking true)).run.run { temps := 4 } with
  | mk result session' =>
    cases result with
    | error why =>
      rw [hlower] at hok
      cases hok
    | ok p =>
      obtain ⟨body, w, entry, code, exit, saved, hbuild, hback⟩ :=
        registers_of_caller_survive divideThenCall (x86Checking true) { temps := 4 } session' p hlower
      exact ⟨p, session', body, w, entry, code, exit, saved, rfl, hbuild, hback⟩

end Program

end Lowering
