import Lowering.Proofs.Definedness.DenseSets
import Lowering.Proofs.Renaming.Registers

/-!
# The first undefined use

The check for registers that are used before they are defined decides just that. It is run on a dense set that starts at
the lowest register; since all registers of the code lie at or above that one, none is refused or mistaken for another,
and after `i` instructions the set holds what is available to instruction `i`. A complaint is about the first use of a
register that is not available, in the order of the code and of the uses. How registers are numbered has no part in it.
-/

namespace Lowering

/-- When instruction `i` comes, the register is there: fixed, live on entry or defined by an earlier instruction. -/
def Available (code : List Instr) (liveIn : List Temp) (i : Nat) (t : Temp) : Prop :=
  t.isFixed = true ∨ t ∈ liveIn ∨ ∃ j x, j < i ∧ code[j]? = some x ∧ t ∈ x.defs

/-- All registers are there when they are used. -/
def DefinedBeforeUse (code : List Instr) (liveIn : List Temp) : Prop :=
  ∀ i x, code[i]? = some x → ∀ t ∈ x.uses, Available code liveIn i t

/-- A register is used that is not there, and all uses before this one are of registers that are. -/
structure UndefinedUse.IsFirst (code : List Instr) (liveIn : List Temp) (u : UndefinedUse) : Prop where
  instr : code[u.index]? = some u.instr
  before : ∀ i x, i < u.index → code[i]? = some x → ∀ t ∈ x.uses, Available code liveIn i t
  reg : ∃ k : Nat, u.instr.uses[k]? = some u.reg ∧
    ∀ (j : Nat) t, j < k → u.instr.uses[j]? = some t → Available code liveIn u.index t
  missing : ¬ Available code liveIn u.index u.reg

/-- The number of the register is not zero and fits 64 bits; how far down the fixed ones reach plays no part. -/
def Temp.Numbered (t : Temp) : Prop := t.id ≠ 0 ∧ t.id < 0x8000000000000000

instance (t : Temp) : Decidable t.Numbered := inferInstanceAs (Decidable (_ ∧ _))

section Uses

variable {code : List Instr} {liveIn : List Temp} {u v : UndefinedUse}

theorem UndefinedUse.IsFirst.mem_uses (h : u.IsFirst code liveIn) : u.reg ∈ u.instr.uses := by
  obtain ⟨k, hk, -⟩ := h.reg
  exact List.mem_of_getElem? hk

theorem UndefinedUse.IsFirst.not_definedBeforeUse (h : u.IsFirst code liveIn) : ¬ DefinedBeforeUse code liveIn :=
  fun hall => h.missing (hall u.index u.instr h.instr u.reg h.mem_uses)

theorem UndefinedUse.IsFirst.index_le (h : u.IsFirst code liveIn) (h' : v.IsFirst code liveIn) : u.index ≤ v.index := by
  apply Nat.le_of_not_lt
  intro hlt
  exact h'.missing (h.before v.index v.instr hlt h'.instr v.reg h'.mem_uses)

/-- There is only one first undefined use. -/
theorem UndefinedUse.IsFirst.unique (h : u.IsFirst code liveIn) (h' : v.IsFirst code liveIn) : u = v := by
  obtain ⟨i, x, t⟩ := u
  obtain ⟨i', x', t'⟩ := v
  obtain rfl : i = i' := Nat.le_antisymm (h.index_le h') (h'.index_le h)
  obtain rfl : x = x' := Option.some.inj (h.instr.symm.trans h'.instr)
  obtain ⟨k, hk, hbefore⟩ := h.reg
  obtain ⟨k', hk', hbefore'⟩ := h'.reg
  have hle : ¬ k < k' := fun hlt => h.missing (hbefore' k t hlt hk)
  have hge : ¬ k' < k := fun hlt => h'.missing (hbefore k' t' hlt hk')
  obtain rfl : k = k' := by omega
  obtain rfl : t = t' := Option.some.inj (hk.symm.trans hk')
  rfl

end Uses

namespace Check

variable {code : List Instr} {liveIn : List Temp} {s : DenseSet} {t : Temp} {ts : List Temp} {low : Int}

/-! ### The lowest register -/

theorem lower_fixed (ht : t.isFixed = true) : lower low t = low := by
  simp [lower, ht]

/-- A virtual register counts, and then the lowest one so far is never zero again. -/
theorem lower_virtual (ht : t.isFixed = false) :
    lower low t = if low = 0 ∨ t.id < low then t.id else low := by
  simp [lower, ht]

theorem pos_of_virtual (ht : t.id ≠ 0) (hvirtual : t.isFixed = false) : 0 < t.id := by
  have : ¬ t.id < 0 := by simpa [Temp.isFixed] using hvirtual
  omega

/-- Once a virtual register was met, the lowest one so far is virtual, and it only goes down. -/
theorem foldl_lower (hts : ∀ t ∈ ts, t.id ≠ 0) (hlow : 0 ≤ low) :
    (0 < low → 0 < ts.foldl lower low ∧ ts.foldl lower low ≤ low) ∧
      ∀ t ∈ ts, t.isFixed = false → 0 < ts.foldl lower low ∧ ts.foldl lower low ≤ t.id := by
  induction ts generalizing low with
  | nil => simp
  | cons a rest ih =>
    obtain ⟨ha, hrest⟩ := List.forall_mem_cons.mp hts
    rw [List.foldl_cons, List.forall_mem_cons]
    cases hfixed : a.isFixed with
    | true =>
      rw [lower_fixed hfixed]
      obtain ⟨hkeep, hall⟩ := ih hrest hlow
      exact ⟨hkeep, by simp, hall⟩
    | false =>
      have hpos := pos_of_virtual ha hfixed
      rw [lower_virtual hfixed]
      have hnext : 0 < (if low = 0 ∨ a.id < low then a.id else low) := by
        split <;> omega
      obtain ⟨hkeep, hall⟩ := ih hrest (Int.le_of_lt hnext)
      obtain ⟨hfold, hle⟩ := hkeep hnext
      refine ⟨fun hlow => ⟨hfold, Int.le_trans hle ?_⟩, fun _ => ⟨hfold, Int.le_trans hle ?_⟩, hall⟩
      · split <;> omega
      · split <;> omega

/-- Virtual registers lie at or above the lowest one, which is virtual itself. -/
theorem lowest_le (hnumbers : ∀ t ∈ mentioned code liveIn, t.Numbered) (ht : t ∈ mentioned code liveIn)
    (hvirtual : t.isFixed = false) : 0 < lowest code liveIn ∧ lowest code liveIn ≤ t.id := by
  obtain ⟨-, hall⟩ := foldl_lower (fun t ht => (hnumbers t ht).1) (Int.le_refl 0)
  obtain ⟨hpos, hle⟩ := hall t ht hvirtual
  have hne : (mentioned code liveIn).foldl lower 0 ≠ 0 := by omega
  simp only [lowest, beq_iff_eq, hne, if_false]
  exact ⟨hpos, hle⟩

/-! ### Defining registers -/

/-- The set has room for the register, if it needs any. -/
def HasRoom (s : DenseSet) (t : Temp) : Prop := t.isFixed = false → s.Fits t.id ∧ s.base ≤ t.id

theorem define_spec (hts : ∀ t ∈ ts, HasRoom s t) :
    ∃ s', define s ts = .ok s' ∧ s'.base = s.base ∧
      ∀ t, HasRoom s t → (isDefined s' t = true ↔ isDefined s t = true ∨ t ∈ ts) := by
  induction ts generalizing s with
  | nil => exact ⟨s, rfl, rfl, by simp⟩
  | cons a rest ih =>
    obtain ⟨ha, hrest⟩ := List.forall_mem_cons.mp hts
    rw [define]
    cases hfixed : a.isFixed with
    | true =>
      obtain ⟨s', hdefine, hbase, hall⟩ := ih hrest
      refine ⟨s', hdefine, hbase, fun t ht => ?_⟩
      rw [hall t ht, List.mem_cons]
      constructor
      · rintro (hdefined | hmem)
        · exact .inl hdefined
        · exact .inr (.inr hmem)
      · rintro (hdefined | rfl | hmem)
        · exact .inl hdefined
        · exact .inl (by simp [isDefined, hfixed])
        · exact .inr hmem
    | false =>
      obtain ⟨hfits, hle⟩ := ha hfixed
      obtain ⟨s₁, hinsert, hbase₁, hcontains⟩ := DenseSet.insert_of_le hfits hle
      have hroom (t : Temp) (ht : HasRoom s t) : HasRoom s₁ t := by
        intro hvirtual
        rw [DenseSet.Fits, hbase₁]
        exact ht hvirtual
      obtain ⟨s', hdefine, hbase, hall⟩ := ih fun t ht => hroom t (hrest t ht)
      refine ⟨s', ?_, hbase.trans hbase₁, fun t ht => ?_⟩
      · rw [if_neg Bool.false_ne_true, hinsert]
        exact hdefine
      · rw [hall t (hroom t ht), List.mem_cons]
        cases hvirtual : t.isFixed with
        | true => simp [isDefined, hvirtual]
        | false =>
          have heq : t.id = a.id ↔ t = a := by
            obtain ⟨i⟩ := t
            obtain ⟨j⟩ := a
            simp
          simp only [isDefined, hvirtual, Bool.false_or, hcontains t.id (ht hvirtual).1, heq]
          grind

/-- Registers that are defined stay so, whatever their numbers are. -/
theorem isDefined_of_define {s' : DenseSet} (h : define s ts = .ok s') :
    (∀ t ∈ ts, isDefined s' t = true) ∧ ∀ t, isDefined s t = true → isDefined s' t = true := by
  induction ts generalizing s with
  | nil =>
    cases h
    simp
  | cons a rest ih =>
    rw [define] at h
    cases hfixed : a.isFixed with
    | true =>
      rw [hfixed, if_pos rfl] at h
      obtain ⟨hrest, hkeep⟩ := ih h
      exact ⟨List.forall_mem_cons.mpr ⟨by simp [isDefined, hfixed], hrest⟩, hkeep⟩
    | false =>
      rw [hfixed, if_neg Bool.false_ne_true] at h
      cases hinsert : s.insert a.id with
      | error f =>
        rw [hinsert] at h
        cases h
      | ok s₁ =>
        rw [hinsert] at h
        obtain ⟨ha, hkeep₁⟩ := DenseSet.contains_of_insert hinsert
        obtain ⟨hrest, hkeep⟩ := ih h
        refine ⟨List.forall_mem_cons.mpr ⟨hkeep a (by simp [isDefined, ha]), hrest⟩, fun t ht => hkeep t ?_⟩
        simp only [isDefined, Bool.or_eq_true] at ht ⊢
        exact ht.imp_right (hkeep₁ t.id)

/-! ### Scanning code -/

theorem available_succ {i : Nat} {x : Instr} (hx : code[i]? = some x) :
    Available code liveIn (i + 1) t ↔ Available code liveIn i t ∨ t ∈ x.defs := by
  simp only [Available]
  constructor
  · rintro (hfixed | hlive | ⟨j, y, hj, hy, ht⟩)
    · exact .inl (.inl hfixed)
    · exact .inl (.inr (.inl hlive))
    · by_cases hji : j < i
      · exact .inl (.inr (.inr ⟨j, y, hji, hy, ht⟩))
      · obtain rfl : j = i := by omega
        obtain rfl := Option.some.inj (hx.symm.trans hy)
        exact .inr ht
  · rintro ((hfixed | hlive | ⟨j, y, hj, hy, ht⟩) | ht)
    · exact .inl hfixed
    · exact .inr (.inl hlive)
    · exact .inr (.inr ⟨j, y, by omega, hy, ht⟩)
    · exact .inr (.inr ⟨i, x, by omega, hx, ht⟩)

/-- The set knows, of the registers that the code mentions, which ones are available to instruction `i`. -/
structure Tracks (code : List Instr) (liveIn : List Temp) (i : Nat) (s : DenseSet) : Prop where
  room : ∀ t ∈ mentioned code liveIn, HasRoom s t
  defined : ∀ t ∈ mentioned code liveIn, (isDefined s t = true ↔ Available code liveIn i t)

theorem Tracks.step {i : Nat} {x : Instr} (h : Tracks code liveIn i s) (hx : code[i]? = some x) :
    ∃ s', define s x.defs = .ok s' ∧ Tracks code liveIn (i + 1) s' := by
  have hdefs (t : Temp) (ht : t ∈ x.defs) : t ∈ mentioned code liveIn :=
    mem_mentioned.mpr (.inr ⟨x, List.mem_of_getElem? hx, .inr ht⟩)
  obtain ⟨s', hdefine, hbase, hall⟩ := define_spec fun t ht => h.room t (hdefs t ht)
  refine ⟨s', hdefine, fun t ht => ?_, fun t ht => ?_⟩
  · intro hvirtual
    rw [DenseSet.Fits, hbase]
    exact h.room t ht hvirtual
  · rw [hall t (h.room t ht), h.defined t ht, available_succ hx]

/-- The rest of the code is scanned to its end, or up to the first undefined use. -/
theorem scan_outcome (before rest : List Instr) (hcode : code = before ++ rest)
    (hs : Tracks code liveIn before.length s)
    (hbefore : ∀ i x, i < before.length → code[i]? = some x → ∀ t ∈ x.uses, Available code liveIn i t) :
    (DefinedBeforeUse code liveIn ∧ scan before.length s rest = .ok ()) ∨
      ∃ u, u.IsFirst code liveIn ∧ scan before.length s rest = .error (.failed u) := by
  induction rest generalizing before s with
  | nil =>
    refine .inl ⟨fun i x hx => hbefore i x ?_ hx, rfl⟩
    obtain ⟨hi, -⟩ := List.getElem?_eq_some_iff.mp hx
    simpa [hcode] using hi
  | cons x rest ih =>
    have hx : code[before.length]? = some x := by simp [hcode]
    have huses (t : Temp) (ht : t ∈ x.uses) : t ∈ mentioned code liveIn :=
      mem_mentioned.mpr (.inr ⟨x, List.mem_of_getElem? hx, .inl ht⟩)
    rw [scan]
    cases hfind : x.uses.find? (!isDefined s ·) with
    | some t =>
      obtain ⟨hmissing, k, hk, hget, hearlier⟩ := List.find?_eq_some_iff_getElem.mp hfind
      have ht := huses t (List.mem_of_find?_eq_some hfind)
      refine .inr ⟨⟨before.length, x, t⟩, ⟨hx, hbefore, ⟨k, ?_, fun j u hj hu => ?_⟩, ?_⟩, rfl⟩
      · rw [List.getElem?_eq_getElem hk, hget]
      · obtain ⟨hlt, rfl⟩ := List.getElem?_eq_some_iff.mp hu
        apply (hs.defined _ (huses _ (List.getElem_mem hlt))).mp
        simpa using hearlier j hj
      · rw [← hs.defined t ht]
        simpa using hmissing
    | none =>
      have hall : ∀ t ∈ x.uses, Available code liveIn before.length t := by
        intro t ht
        apply (hs.defined t (huses t ht)).mp
        simpa using List.find?_eq_none.mp hfind t ht
      obtain ⟨s', hdefine, hs'⟩ := hs.step hx
      have hlength : (before ++ [x]).length = before.length + 1 := by simp
      have hnext := ih (before ++ [x]) (by simp [hcode]) (hlength ▸ hs') fun i y hi hy => by
        by_cases hlt : i < before.length
        · exact hbefore i y hlt hy
        · obtain rfl : i = before.length := by omega
          obtain rfl := Option.some.inj (hx.symm.trans hy)
          exact hall
      simpa only [hdefine, hlength] using hnext

/-- A complaint is about a register that is not available, also where the set cannot tell all registers apart. -/
theorem scan_failed {u : UndefinedUse} (before rest : List Instr) (hcode : code = before ++ rest)
    (hs : ∀ t, Available code liveIn before.length t → isDefined s t = true)
    (hscan : scan before.length s rest = .error (.failed u)) :
    code[u.index]? = some u.instr ∧ u.reg ∈ u.instr.uses ∧ ¬ Available code liveIn u.index u.reg := by
  induction rest generalizing before s with
  | nil => cases hscan
  | cons x rest ih =>
    have hx : code[before.length]? = some x := by simp [hcode]
    rw [scan] at hscan
    cases hfind : x.uses.find? (!isDefined s ·) with
    | some t =>
      rw [hfind] at hscan
      cases hscan
      refine ⟨hx, List.mem_of_find?_eq_some hfind, fun havailable => ?_⟩
      have hmissing := List.find?_some hfind
      rw [hs t havailable] at hmissing
      cases hmissing
    | none =>
      rw [hfind] at hscan
      cases hdefine : define s x.defs with
      | error f =>
        rw [hdefine] at hscan
        cases hscan
      | ok s' =>
        rw [hdefine] at hscan
        obtain ⟨hdefs, hkeep⟩ := isDefined_of_define hdefine
        have hlength : (before ++ [x]).length = before.length + 1 := by simp
        refine ih (before ++ [x]) (by simp [hcode]) (fun t ht => ?_) (by rw [hlength]; exact hscan)
        rw [hlength, available_succ hx] at ht
        exact ht.elim (fun ht => hkeep t (hs t ht)) (hdefs t)

theorem tracks_entry (hnumbers : ∀ t ∈ mentioned code liveIn, t.Numbered) :
    ∃ s, define ⟨lowest code liveIn, #[]⟩ liveIn = .ok s ∧ Tracks code liveIn 0 s := by
  have hroom (t : Temp) (ht : t ∈ mentioned code liveIn) : HasRoom ⟨lowest code liveIn, #[]⟩ t := by
    intro hvirtual
    obtain ⟨hpos, hle⟩ := lowest_le hnumbers ht hvirtual
    obtain ⟨-, hhigh⟩ := hnumbers t ht
    exact ⟨⟨by simp only; omega, by simp only; omega⟩, hle⟩
  obtain ⟨s, hdefine, hbase, hall⟩ := define_spec fun t ht => hroom t (mem_mentioned.mpr (.inl ht))
  refine ⟨s, hdefine, fun t ht => ?_, fun t ht => ?_⟩
  · intro hvirtual
    rw [DenseSet.Fits, hbase]
    exact hroom t ht hvirtual
  · rw [hall t (hroom t ht), isDefined, DenseSet.contains_empty]
    simp [Available]

end Check

/-! ### The check -/

/-- Complaints are right, whatever the numbers of the registers are. -/
theorem checkDefined_failed {code : List Instr} {liveIn : List Temp} {u : UndefinedUse}
    (h : checkDefined code liveIn = .error (.failed u)) :
    code[u.index]? = some u.instr ∧ u.reg ∈ u.instr.uses ∧ ¬ Available code liveIn u.index u.reg := by
  rw [checkDefined] at h
  cases hdefine : Check.define ⟨Check.lowest code liveIn, #[]⟩ liveIn with
  | error f =>
    rw [hdefine] at h
    cases h
  | ok s =>
    rw [hdefine] at h
    obtain ⟨hlive, -⟩ := Check.isDefined_of_define hdefine
    refine Check.scan_failed [] code rfl (fun t ht => ?_) h
    obtain hfixed | ht | ⟨j, x, hj, -⟩ := ht
    · simp [Check.isDefined, hfixed]
    · exact hlive t ht
    · cases hj

section Outcome

variable {code : List Instr} {liveIn : List Temp} (hnumbers : ∀ t ∈ Check.mentioned code liveIn, t.Numbered)

include hnumbers

theorem checkDefined_outcome :
    (DefinedBeforeUse code liveIn ∧ checkDefined code liveIn = .ok ()) ∨
      ∃ u, u.IsFirst code liveIn ∧ checkDefined code liveIn = .error (.failed u) := by
  obtain ⟨s, hdefine, hs⟩ := Check.tracks_entry hnumbers
  rw [checkDefined, hdefine]
  exact Check.scan_outcome [] code rfl hs (by simp)

theorem checkDefined_eq_ok_iff : checkDefined code liveIn = .ok () ↔ DefinedBeforeUse code liveIn := by
  obtain ⟨hall, hcheck⟩ | ⟨u, hfirst, hcheck⟩ := checkDefined_outcome hnumbers
  · exact iff_of_true hcheck hall
  · exact iff_of_false (by simp [hcheck]) hfirst.not_definedBeforeUse

end Outcome

/-! ### Other numbers -/

/-- On the registers of a list, fixed ones stay as they are, and virtual ones become virtual ones, different ones
different. -/
structure Renumbers (r : Temp → Temp) (ts : List Temp) : Prop where
  fixed : ∀ t ∈ ts, t.isFixed = true → r t = t
  virtual : ∀ t ∈ ts, t.isFixed = false → 0 < (r t).id ∧ (r t).id < 0x8000000000000000
  injective : ∀ t ∈ ts, ∀ u ∈ ts, t.isFixed = false → u.isFixed = false → r t = r u → t = u

/-- The complaint with other registers. -/
def UndefinedUse.rename (r : Temp → Temp) (u : UndefinedUse) : UndefinedUse := ⟨u.index, u.instr.rename r, r u.reg⟩

namespace Renumbers

variable {r : Temp → Temp} {ts us : List Temp} {t : Temp}

theorem isFixed_apply (hr : Renumbers r ts) (ht : t ∈ ts) : (r t).isFixed = t.isFixed := by
  cases hfixed : t.isFixed with
  | true => rw [hr.fixed t ht hfixed, hfixed]
  | false =>
    obtain ⟨hpos, -⟩ := hr.virtual t ht hfixed
    simp only [Temp.isFixed, decide_eq_false_iff_not]
    omega

theorem numbered (hr : Renumbers r ts) (ht : t ∈ ts) (hnumber : t.Numbered) : (r t).Numbered := by
  cases hfixed : t.isFixed with
  | true =>
    rw [hr.fixed t ht hfixed]
    exact hnumber
  | false =>
    obtain ⟨hpos, hhigh⟩ := hr.virtual t ht hfixed
    exact ⟨by omega, hhigh⟩

theorem eq_of_apply_eq (hr : Renumbers r ts) {u : Temp} (ht : t ∈ ts) (hu : u ∈ ts) (heq : r t = r u) : t = u := by
  have hsame : t.isFixed = u.isFixed := by rw [← hr.isFixed_apply ht, heq, hr.isFixed_apply hu]
  cases hfixed : u.isFixed with
  | true => rw [← hr.fixed t ht (hsame.trans hfixed), heq, hr.fixed u hu hfixed]
  | false => exact hr.injective t ht u hu (hsame.trans hfixed) hfixed heq

theorem mem_map (hr : Renumbers r ts) (ht : t ∈ ts) (hus : ∀ u ∈ us, u ∈ ts) : r t ∈ us.map r ↔ t ∈ us := by
  rw [List.mem_map]
  constructor
  · rintro ⟨u, hu, heq⟩
    rwa [← hr.eq_of_apply_eq (hus u hu) ht heq]
  · exact fun ht => ⟨t, ht, rfl⟩

end Renumbers

section Rename

variable {code : List Instr} {liveIn : List Temp} {r : Temp → Temp} {u : UndefinedUse}

variable (hr : Renumbers r (Check.mentioned code liveIn))

include hr

theorem available_rename {i : Nat} {t : Temp} (ht : t ∈ Check.mentioned code liveIn) :
    Available (code.map (Instr.rename r)) (liveIn.map r) i (r t) ↔ Available code liveIn i t := by
  have hlive : r t ∈ liveIn.map r ↔ t ∈ liveIn := hr.mem_map ht fun u hu => Check.mem_mentioned.mpr (.inl hu)
  have hdefs (x : Instr) (hx : x ∈ code) : r t ∈ x.defs.map r ↔ t ∈ x.defs :=
    hr.mem_map ht fun u hu => Check.mem_mentioned.mpr (.inr ⟨x, hx, .inr hu⟩)
  rw [Available, Available, hr.isFixed_apply ht, hlive]
  refine or_congr_right (or_congr_right ⟨?_, ?_⟩)
  · rintro ⟨j, y, hj, hy, hmem⟩
    rw [List.getElem?_map] at hy
    obtain ⟨x, hx, rfl⟩ := Option.map_eq_some_iff.mp hy
    rw [Instr.defs_rename, hdefs x (List.mem_of_getElem? hx)] at hmem
    exact ⟨j, x, hj, hx, hmem⟩
  · rintro ⟨j, x, hj, hx, hmem⟩
    refine ⟨j, x.rename r, hj, by rw [List.getElem?_map, hx, Option.map_some], ?_⟩
    rw [Instr.defs_rename]
    exact (hdefs x (List.mem_of_getElem? hx)).mpr hmem

/-- The uses of renamed code are available as they were before. -/
theorem uses_available_rename {i : Nat} (h : ∀ x, code[i]? = some x → ∀ t ∈ x.uses, Available code liveIn i t) :
    ∀ y, (code.map (Instr.rename r))[i]? = some y → ∀ t ∈ y.uses,
      Available (code.map (Instr.rename r)) (liveIn.map r) i t := by
  intro y hy t ht
  rw [List.getElem?_map] at hy
  obtain ⟨x, hx, rfl⟩ := Option.map_eq_some_iff.mp hy
  rw [Instr.uses_rename] at ht
  obtain ⟨u, hu, rfl⟩ := List.mem_map.mp ht
  rw [available_rename hr (Check.mem_mentioned.mpr (.inr ⟨x, List.mem_of_getElem? hx, .inl hu⟩))]
  exact h x hx u hu

theorem UndefinedUse.IsFirst.rename (h : u.IsFirst code liveIn) :
    (u.rename r).IsFirst (code.map (Instr.rename r)) (liveIn.map r) := by
  have hinstr : u.instr ∈ code := List.mem_of_getElem? h.instr
  have huses (t : Temp) (ht : t ∈ u.instr.uses) : t ∈ Check.mentioned code liveIn :=
    Check.mem_mentioned.mpr (.inr ⟨u.instr, hinstr, .inl ht⟩)
  obtain ⟨k, hk, hearlier⟩ := h.reg
  refine ⟨?_, fun i y hi => uses_available_rename hr (h.before i · hi) y, ⟨k, ?_, fun j t hj ht => ?_⟩, ?_⟩
  · simp [UndefinedUse.rename, h.instr]
  · simp [UndefinedUse.rename, hk]
  · simp only [UndefinedUse.rename, Instr.uses_rename, List.getElem?_map] at ht
    obtain ⟨v, hv, rfl⟩ := Option.map_eq_some_iff.mp ht
    exact (available_rename hr (huses v (List.mem_of_getElem? hv))).mpr (hearlier j v hj hv)
  · rw [UndefinedUse.rename, available_rename hr (huses u.reg h.mem_uses)]
    exact h.missing

/-- Renumbered code gets the same answer, up to the numbers. -/
theorem checkDefined_rename (hnumbers : ∀ t ∈ Check.mentioned code liveIn, t.Numbered) :
    checkDefined (code.map (Instr.rename r)) (liveIn.map r) =
      (checkDefined code liveIn).mapError (Stop.map (UndefinedUse.rename r)) := by
  have hnumbers' : ∀ t ∈ Check.mentioned (code.map (Instr.rename r)) (liveIn.map r), t.Numbered := by
    rw [Check.mentioned_rename, List.forall_mem_map]
    exact fun t ht => hr.numbered ht (hnumbers t ht)
  obtain ⟨hall, hcheck⟩ | ⟨u, hfirst, hcheck⟩ := checkDefined_outcome hnumbers
  · rw [hcheck, (checkDefined_eq_ok_iff hnumbers').mpr fun i y => uses_available_rename hr (hall i) y]
    rfl
  · obtain ⟨hall', -⟩ | ⟨v, hfirst', hcheck'⟩ := checkDefined_outcome hnumbers'
    · exact absurd hall' (hfirst.rename hr).not_definedBeforeUse
    · rw [hcheck, hcheck', hfirst'.unique (hfirst.rename hr)]
      rfl

end Rename

/-- The check passes code exactly if every virtual register is live on entry or defined by an earlier instruction when
it is used. Otherwise it complains about the first use for which this is not so. It never faults, and it gives the same
answer whatever the numbers of the virtual registers are. -/
theorem check_finds_first_undefined_use (code : List Instr) (liveIn : List Temp)
    (hnumbers : ∀ t ∈ Check.mentioned code liveIn, t.Numbered) :
    (checkDefined code liveIn = .ok () ↔ DefinedBeforeUse code liveIn) ∧
    (¬ DefinedBeforeUse code liveIn →
      ∃ u, u.IsFirst code liveIn ∧ checkDefined code liveIn = .error (.failed u)) ∧
    (∀ f, checkDefined code liveIn ≠ .error (.fault f)) ∧
    ∀ r, Renumbers r (Check.mentioned code liveIn) →
      checkDefined (code.map (Instr.rename r)) (liveIn.map r) =
        (checkDefined code liveIn).mapError (Stop.map (UndefinedUse.rename r)) := by
  refine ⟨checkDefined_eq_ok_iff hnumbers, fun hnot => ?_, fun f hfault => ?_, fun r hr => ?_⟩
  · obtain ⟨hall, -⟩ | hfirst := checkDefined_outcome hnumbers
    · exact absurd hall hnot
    · exact hfirst
  · obtain ⟨-, hcheck⟩ | ⟨u, -, hcheck⟩ := checkDefined_outcome hnumbers
    · cases hcheck.symm.trans hfault
    · cases hcheck.symm.trans hfault
  · exact checkDefined_rename hr hnumbers

/-- A sum of a register that is defined right before, one that is live on entry and one that nothing defines. -/
def lateSum : List Instr :=
  [X86.copy ⟨900⟩ X86.resultRegister, .oper "lea d0, [s0+s1+s2]" [⟨900⟩] [⟨900⟩, ⟨41⟩, ⟨700⟩] [] []]

/-- Numbers the virtual registers below a thousand from the other end. -/
def mirror (t : Temp) : Temp := if t.isFixed then t else ⟨1000 - t.id⟩

/-- The last register of the sum is complained about, under either number. -/
theorem lateSum_undefined_use :
    (∀ t ∈ Check.mentioned lateSum [⟨41⟩], t.Numbered) ∧ Renumbers mirror (Check.mentioned lateSum [⟨41⟩]) ∧
    ¬ DefinedBeforeUse lateSum [⟨41⟩] ∧
    (checkDefined lateSum [⟨41⟩]).mapError (Stop.map fun u => (u.index, u.reg)) = .error (.failed (1, ⟨700⟩)) ∧
    (checkDefined (lateSum.map (Instr.rename mirror)) [⟨959⟩]).mapError (Stop.map fun u => (u.index, u.reg)) =
      .error (.failed (1, ⟨300⟩)) := by
  have hnumbers : ∀ t ∈ Check.mentioned lateSum [⟨41⟩], t.Numbered := by decide
  have hmirror : Renumbers mirror (Check.mentioned lateSum [⟨41⟩]) := ⟨by decide, by decide, by decide⟩
  have hcheck : checkDefined lateSum [⟨41⟩] = .error (.failed ⟨1, lateSum.get ⟨1, by decide⟩, ⟨700⟩⟩) := rfl
  obtain ⟨hiff, -, -, hrename⟩ := check_finds_first_undefined_use lateSum [⟨41⟩] hnumbers
  have hnot : ¬ DefinedBeforeUse lateSum [⟨41⟩] := by
    rw [← hiff, hcheck]
    exact nofun
  refine ⟨hnumbers, hmirror, hnot, by rw [hcheck]; rfl, ?_⟩
  have hmirrored := hrename mirror hmirror
  rw [hcheck] at hmirrored
  exact congrArg (Except.mapError (Stop.map fun u => (u.index, u.reg))) hmirrored

end Lowering
