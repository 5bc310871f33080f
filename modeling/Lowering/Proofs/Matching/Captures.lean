import Lowering.Pattern.Captures

/-!
# Captures as a table

Captures are kept in the order of their slots, with one entry for each slot. Filling a slot replaces its entry and
leaves the others alone, so after any number of fillings a slot holds what it was filled with last.
-/

namespace Lowering.Captures

/-- Each slot has at most one entry, and entries are in the order of their slots. -/
def Ordered (cs : Captures) : Prop := cs.Pairwise (·.slot < ·.slot)

/-- Fills slots from left to right. -/
def bindAll (cs : Captures) (found : List Capture) : Captures :=
  found.foldl (fun cs c => cs.bind (⟨c.slot⟩ : Wildcard c.kind) c.value) cs

theorem bindAll_append (cs : Captures) (found found' : List Capture) :
    cs.bindAll (found ++ found') = (cs.bindAll found).bindAll found' := List.foldl_append

section Bind

variable {k : Kind} {w : Wildcard k} {v : k.Value} {cs : Captures}

theorem mem_bind (hcs : cs.Ordered) {c : Capture} :
    c ∈ cs.bind w v ↔ c = ⟨w.slot, k, v⟩ ∨ c ∈ cs ∧ c.slot ≠ w.slot := by
  induction cs with
  | nil => simp [bind]
  | cons d rest ih =>
    obtain ⟨hd, hrest⟩ := List.pairwise_cons.mp hcs
    rw [bind]
    split
    · next hlt =>
      -- Every entry is behind the slot.
      have hall : ∀ c ∈ d :: rest, c.slot ≠ w.slot := by
        intro c hc
        obtain rfl | hc := List.mem_cons.mp hc
        · omega
        · have := hd c hc
          omega
      rw [List.mem_cons]
      exact or_congr_right ⟨fun hc => ⟨hc, hall c hc⟩, And.left⟩
    · split
      · next heq =>
        have hall : ∀ c ∈ rest, c.slot ≠ w.slot := by
          intro c hc
          have := hd c hc
          omega
        grind
      · next hne =>
        have := ih hrest
        grind

theorem ordered_bind (hcs : cs.Ordered) : (cs.bind w v).Ordered := by
  induction cs with
  | nil => exact List.pairwise_singleton ..
  | cons d rest ih =>
    obtain ⟨hd, hrest⟩ := List.pairwise_cons.mp hcs
    rw [bind]
    split
    · next hlt =>
      refine List.pairwise_cons.mpr ⟨fun c hc => ?_, hcs⟩
      obtain rfl | hc := List.mem_cons.mp hc
      · exact hlt
      · exact Nat.lt_trans hlt (hd c hc)
    · split
      · next heq => exact List.pairwise_cons.mpr ⟨fun c hc => heq ▸ hd c hc, hrest⟩
      · next hle hne =>
        refine List.pairwise_cons.mpr ⟨fun c hc => ?_, ih hrest⟩
        obtain rfl | ⟨hc, -⟩ := (mem_bind hrest).mp hc
        · exact Nat.lt_of_le_of_ne (Nat.le_of_not_lt hle) (Ne.symm hne)
        · exact hd c hc

theorem get?_eq_some_iff (hcs : cs.Ordered) : cs.get? w = some v ↔ ⟨w.slot, k, v⟩ ∈ cs := by
  induction cs with
  | nil => simp [get?]
  | cons d rest ih =>
    obtain ⟨hd, hrest⟩ := List.pairwise_cons.mp hcs
    obtain ⟨slot, kind, value⟩ := d
    rw [get?, List.mem_cons]
    split
    · next heq =>
      have hnot : (⟨w.slot, k, v⟩ : Capture) ∉ rest := fun hc => Nat.ne_of_lt (hd _ hc) heq
      rw [or_iff_left hnot]
      split
      · next hkind =>
        obtain rfl : kind = k := hkind
        simp [show slot = w.slot from heq, eq_comm]
      · next hkind =>
        have hkind : k ≠ kind := Ne.symm hkind
        simp [hkind]
    · next hne =>
      have hne : w.slot ≠ slot := Ne.symm hne
      simp [ih hrest, hne]

end Bind

theorem ordered_bindAll {cs : Captures} (hcs : cs.Ordered) (found : List Capture) : (cs.bindAll found).Ordered := by
  induction found generalizing cs with
  | nil => exact hcs
  | cons c found ih => exact ih (ordered_bind hcs)

/-- A slot holds what it was filled with last. -/
theorem mem_bindAll {cs : Captures} (hcs : cs.Ordered) {found : List Capture} {c : Capture} :
    c ∈ cs.bindAll found ↔
      (∃ before after, found = before ++ c :: after ∧ ∀ d ∈ after, d.slot ≠ c.slot) ∨
      c ∈ cs ∧ ∀ d ∈ found, d.slot ≠ c.slot := by
  induction found generalizing cs with
  | nil => simp [bindAll]
  | cons d found ih =>
    change c ∈ (cs.bind (⟨d.slot⟩ : Wildcard d.kind) d.value).bindAll found ↔ _
    rw [ih (ordered_bind hcs), mem_bind hcs]
    constructor
    · rintro (⟨before, after, rfl, hafter⟩ | ⟨rfl | ⟨hc, hne⟩, hfound⟩)
      · exact .inl ⟨d :: before, after, rfl, hafter⟩
      · exact .inl ⟨[], found, rfl, hfound⟩
      · exact .inr ⟨hc, List.forall_mem_cons.mpr ⟨Ne.symm hne, hfound⟩⟩
    · rintro (⟨before, after, hsplit, hafter⟩ | ⟨hc, hfound⟩)
      · obtain ⟨rfl, hsplit⟩ | ⟨before, rfl, rfl⟩ := List.cons_eq_append_iff.mp hsplit
        · obtain ⟨rfl, rfl⟩ := List.cons.inj hsplit
          exact .inr ⟨.inl rfl, hafter⟩
        · exact .inl ⟨before, after, rfl, hafter⟩
      · obtain ⟨hne, hfound⟩ := List.forall_mem_cons.mp hfound
        exact .inr ⟨.inr ⟨hc, Ne.symm hne⟩, hfound⟩

end Lowering.Captures
