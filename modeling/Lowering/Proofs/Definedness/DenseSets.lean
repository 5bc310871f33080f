import Lowering.DenseSet

/-!
# Dense sets hold what was put in

A key has a place in a dense set: a word and a bit of it, counted from the base. Keys whose distance to the base fits 64
bits never share a place, and growing a set adds only places that are not taken. So a set holds a key exactly if the key
was put in, and a key can be put in exactly if it is not below the base.
-/

namespace Lowering.DenseSet

variable {s s' : DenseSet} {k k' : Int} {i j : Nat}

/-! ### Bits of a word -/

theorem toBitVec_mask (hj : j < 64) : (mask j).toBitVec = BitVec.twoPow 64 j := by
  simp [mask, BitVec.twoPow, Nat.mod_eq_of_lt hj]

theorem and_mask (w : UInt64) (hj : j < 64) : (w &&& mask j != 0) = w.toBitVec.getLsbD j := by
  have hpower : BitVec.twoPow 64 j ≠ 0#64 := by
    intro hzero
    have hbit : (BitVec.twoPow 64 j).getLsbD j = true := by simp [hj]
    simp [hzero] at hbit
  have hzero : w &&& mask j = 0 ↔ w.toBitVec.getLsbD j = false := by
    rw [← UInt64.toBitVec_inj, UInt64.toBitVec_and, toBitVec_mask hj, BitVec.and_twoPow]
    cases w.toBitVec.getLsbD j with
    | false => simp
    | true => simpa using hpower
  cases hbit : w.toBitVec.getLsbD j with
  | false => simp [hzero.mpr hbit]
  | true => simp [hzero, hbit]

theorem getLsbD_mask (hi : i < 64) (j : Nat) : (mask i).toBitVec.getLsbD j = decide (j = i) := by
  rw [toBitVec_mask hi, BitVec.getLsbD_twoPow]
  simp [hi, eq_comm]

/-! ### Places -/

/-- The bits of word `i`; a word that is not there has none. -/
def bits (s : DenseSet) (i : Nat) : BitVec 64 := (s.words[i]?.getD 0).toBitVec

theorem bits_grow (s : DenseSet) (n i : Nat) : (s.grow n).bits i = s.bits i := by
  by_cases hi : i < s.words.size
  · simp [bits, grow, Array.getElem?_append, hi]
  · simp only [bits, grow, Array.getElem?_append, hi, if_false, Array.getElem?_replicate]
    split <;> simp [hi]

theorem lt_of_place (hplace : s.place? k = some (i, j)) : j < 64 := by
  simp only [place?] at hplace
  split at hplace
  · cases hplace
  · cases hplace
    omega

theorem contains_of_place (hplace : s.place? k = some (i, j)) : s.contains k = (s.bits i).getLsbD j := by
  simp only [contains, hplace, bits]
  cases s.words[i]? with
  | none => simp
  | some w => exact and_mask w (lt_of_place hplace)

/-- The set with one more place taken. -/
def put (s : DenseSet) (i j : Nat) : DenseSet := { s.grow i with words := (s.grow i).words.modify i (· ||| mask j) }

theorem insert_of_place (hplace : s.place? k = some (i, j)) : s.insert k = .ok (s.put i j) := by
  rw [insert, hplace]
  rfl

theorem place?_put (s : DenseSet) (i j : Nat) (k : Int) : (s.put i j).place? k = s.place? k := rfl

theorem getLsbD_bits_put (s : DenseSet) (i : Nat) (hj : j < 64) (i' j' : Nat) :
    ((s.put i j).bits i').getLsbD j' = (decide (i' = i ∧ j' = j) || (s.bits i').getLsbD j') := by
  have hgrown : i < (s.grow i).words.size := by
    simp only [grow, Array.size_append, Array.size_replicate]
    omega
  rw [← bits_grow s i i', bits, put, Array.getElem?_modify]
  by_cases hi : i' = i
  · subst hi
    rw [if_pos rfl, Array.getElem?_eq_getElem hgrown]
    simp [bits, hgrown, getLsbD_mask hj, Bool.or_comm]
  · rw [if_neg (Ne.symm hi)]
    simp [bits, hi]

/-! ### Keys -/

/-- The distance of the key to the base fits 64 bits. -/
def Fits (s : DenseSet) (k : Int) : Prop :=
  -0x8000000000000000 ≤ k - s.base ∧ k - s.base < 0x8000000000000000

theorem Fits.distance (h : s.Fits k) : s.distance k = k - s.base := by
  obtain ⟨hlow, hhigh⟩ := h
  exact Int.bmod_eq_of_le (by omega) (by omega)

theorem Fits.place (h : s.Fits k) (hle : s.base ≤ k) :
    s.place? k = some ((k - s.base).toNat / 64, (k - s.base).toNat % 64) := by
  have hnonneg : ¬ k - s.base < 0 := by omega
  simp [place?, h.distance, hnonneg]

theorem Fits.place_eq_none (h : s.Fits k) (hlt : k < s.base) : s.place? k = none := by
  have hneg : k - s.base < 0 := by omega
  simp [place?, h.distance, hneg]

theorem contains_empty (base k : Int) : (DenseSet.mk base #[]).contains k = false := by
  rw [contains]
  split <;> simp

/-- Whatever was put in is there, and nothing is lost. -/
theorem contains_of_insert (h : s.insert k = .ok s') :
    s'.contains k = true ∧ ∀ k', s.contains k' = true → s'.contains k' = true := by
  cases hplace : s.place? k with
  | none =>
    rw [insert, hplace] at h
    cases h
  | some place =>
    obtain ⟨i, j⟩ := place
    obtain rfl : s.put i j = s' := Except.ok.inj ((insert_of_place hplace).symm.trans h)
    have hbits := getLsbD_bits_put s i (lt_of_place hplace)
    constructor
    · rw [contains_of_place ((place?_put ..).trans hplace), hbits]
      simp
    · intro k' hk'
      cases hplace' : s.place? k' with
      | none => simp [contains, hplace'] at hk'
      | some place' =>
        obtain ⟨i', j'⟩ := place'
        rw [contains_of_place hplace'] at hk'
        rw [contains_of_place ((place?_put ..).trans hplace'), hbits, hk', Bool.or_true]

/-- A key that is not below the base can be put in, and then the set holds that key and what it held before. -/
theorem insert_of_le (hk : s.Fits k) (hle : s.base ≤ k) :
    ∃ s', s.insert k = .ok s' ∧ s'.base = s.base ∧
      ∀ k', s.Fits k' → (s'.contains k' = true ↔ k' = k ∨ s.contains k' = true) := by
  refine ⟨_, insert_of_place (hk.place hle), rfl, fun k' hk' => ?_⟩
  by_cases hle' : s.base ≤ k'
  · have hplace := hk'.place hle'
    have hbits := getLsbD_bits_put s ((k - s.base).toNat / 64) (Nat.mod_lt (k - s.base).toNat (by decide : 0 < 64))
    rw [contains_of_place ((place?_put ..).trans hplace), contains_of_place hplace, hbits]
    have hkey : (k' - s.base).toNat / 64 = (k - s.base).toNat / 64 ∧
        (k' - s.base).toNat % 64 = (k - s.base).toNat % 64 ↔ k' = k := by omega
    simp [hkey]
  · have hplace := hk'.place_eq_none (Int.not_le.mp hle')
    have hne : k' ≠ k := by omega
    simp [contains, place?_put, hplace, hne]

end Lowering.DenseSet
