import Lowering.Proofs.Machine.Execution

/-!
# Relations and flags

A relation compares two words as signed or as unsigned numbers. A branch does not see the words but only the flags of
their difference; that its condition holds of the flags exactly if the relation holds of the words is the subject here.
The signed relations are the ones with something to show: the sign of the difference is wrong when the subtraction
overflows, and the overflow flag says so.
-/

namespace Lowering

/-- Does a relation hold between two words? None outside the list does. -/
def Rel.holds : Rel → Word → Word → Bool
  | .eq, a, b => a == b
  | .ne, a, b => a != b
  | .lt, a, b => decide (a.toInt < b.toInt)
  | .gt, a, b => decide (b.toInt < a.toInt)
  | .le, a, b => decide (a.toInt ≤ b.toInt)
  | .ge, a, b => decide (b.toInt ≤ a.toInt)
  | .ult, a, b => decide (a.toNat < b.toNat)
  | .ule, a, b => decide (a.toNat ≤ b.toNat)
  | .ugt, a, b => decide (b.toNat < a.toNat)
  | .uge, a, b => decide (b.toNat ≤ a.toNat)
  | .other _, _, _ => false

/-- Operands in the other order are in the commuted relation. -/
theorem Rel.holds_commute (rel : Rel) (a b : Word) : rel.commute.holds b a = rel.holds a b := by
  cases rel with
  | eq => exact Bool.beq_comm
  | ne => exact congrArg not Bool.beq_comm
  | _ => rfl

theorem Rel.commute_ne_other {rel : Rel} (hrel : ∀ n, rel ≠ .other n) : ∀ n, rel.commute ≠ .other n := by
  cases rel with
  | other n => exact absurd rfl (hrel n)
  | _ => exact fun _ => Rel.noConfusion

namespace X86

variable (a b : Word)

theorem Flags.compare_zero : (Flags.compare a b).zero = (a == b) := by
  change (a - b == 0) = (a == b)
  rw [Bool.eq_iff_iff, beq_iff_eq, beq_iff_eq]
  constructor
  · intro h
    have hsum := BitVec.sub_add_cancel a b
    rw [show a - b = 0#32 from h, BitVec.zero_add] at hsum
    exact hsum.symm
  · rintro rfl
    exact BitVec.sub_self a

theorem Flags.compare_carry : (Flags.compare a b).carry = decide (a.toNat < b.toNat) := BitVec.ult_eq_decide

/-- The sign of the difference, put right by the overflow, is that of the comparison. -/
theorem Flags.compare_sign :
    ((Flags.compare a b).sign != (Flags.compare a b).overflow) = decide (a.toInt < b.toInt) := by
  change ((a - b).msb != (a.msb != b.msb && a.msb != (a - b).msb)) = _
  have ha := a.isLt
  have hb := b.isLt
  have hsub : (a - b).toNat = (4294967296 - b.toNat + a.toNat) % 4294967296 := BitVec.toNat_sub a b
  have hmsb (v : Word) : v.msb = decide (2147483648 ≤ v.toNat) := BitVec.msb_eq_decide v
  have hint (v : Word) : v.toInt = if 2 * v.toNat < 4294967296 then (v.toNat : Int) else v.toNat - 4294967296 :=
    BitVec.toInt_eq_toNat_cond v
  rw [hmsb a, hmsb b, hmsb (a - b), hint a, hint b, hsub]
  -- Words of the same sign do not overflow; otherwise the sign of the left one decides.
  have hleft (d : Bool) : (d != (true != false && true != d)) = true := by cases d <;> rfl
  have hright (d : Bool) : (d != (false != true && false != d)) = false := by cases d <;> rfl
  by_cases hA : 2147483648 ≤ a.toNat
  · by_cases hB : 2147483648 ≤ b.toNat
    · rw [decide_eq_true hA, decide_eq_true hB, if_neg (by omega), if_neg (by omega), bne_self_eq_false, Bool.false_and,
        Bool.bne_false, decide_eq_decide]
      omega
    · rw [decide_eq_true hA, decide_eq_false hB, if_neg (by omega), if_pos (by omega), hleft]
      exact (decide_eq_true (by omega)).symm
  · by_cases hB : 2147483648 ≤ b.toNat
    · rw [decide_eq_false hA, decide_eq_true hB, if_pos (by omega), if_neg (by omega), hright]
      exact (decide_eq_false (by omega)).symm
    · rw [decide_eq_false hA, decide_eq_false hB, if_pos (by omega), if_pos (by omega), bne_self_eq_false,
        Bool.false_and, Bool.bne_false, decide_eq_decide]
      omega

/-- The condition of a branch behind a comparison is the relation of the words compared. -/
theorem condition?_compare {rel : Rel} (hrel : ∀ n, rel ≠ .other n) :
    condition? rel (Flags.compare a b) = some (rel.holds a b) := by
  have hzero := Flags.compare_zero a b
  have hcarry := Flags.compare_carry a b
  have hsign := Flags.compare_sign a b
  have hsame : ((Flags.compare a b).sign == (Flags.compare a b).overflow) = !decide (a.toInt < b.toInt) := by
    rw [← hsign, bne, Bool.not_not]
  have hint : (a == b) = decide (a.toInt = b.toInt) := by
    rw [Bool.eq_iff_iff, beq_iff_eq, decide_eq_true_iff, BitVec.toInt_inj]
  have hnat : (a == b) = decide (a.toNat = b.toNat) := by
    rw [Bool.eq_iff_iff, beq_iff_eq, decide_eq_true_iff, BitVec.toNat_inj]
  cases rel with
  | other n => exact absurd rfl (hrel n)
  | eq => exact congrArg some hzero
  | ne => exact congrArg (fun z => some !z) hzero
  | lt => exact congrArg some hsign
  | ult => exact congrArg some hcarry
  | gt =>
    rw [condition?, hzero, hint, hsame, Rel.holds, Option.some_inj, Bool.eq_iff_iff]
    simp only [Bool.and_eq_true, Bool.not_eq_true', decide_eq_false_iff_not, decide_eq_true_iff]
    omega
  | le =>
    rw [condition?, hzero, hint, hsign, Rel.holds, Option.some_inj, Bool.eq_iff_iff]
    simp only [Bool.or_eq_true, decide_eq_true_iff]
    omega
  | ge =>
    rw [condition?, hsame, Rel.holds, Option.some_inj, Bool.eq_iff_iff]
    simp only [Bool.not_eq_true', decide_eq_false_iff_not, decide_eq_true_iff]
    omega
  | ule =>
    rw [condition?, hzero, hnat, hcarry, Rel.holds, Option.some_inj, Bool.eq_iff_iff]
    simp only [Bool.or_eq_true, decide_eq_true_iff]
    omega
  | ugt =>
    rw [condition?, hzero, hnat, hcarry, Rel.holds, Option.some_inj, Bool.eq_iff_iff]
    simp only [Bool.and_eq_true, Bool.not_eq_true', decide_eq_false_iff_not, decide_eq_true_iff]
    omega
  | uge =>
    rw [condition?, hcarry, Rel.holds, Option.some_inj, Bool.eq_iff_iff]
    simp only [Bool.not_eq_true', decide_eq_false_iff_not, decide_eq_true_iff]
    omega

example : condition? .lt (Flags.compare 0x80000000 1) = some true ∧
    condition? .ult (Flags.compare 0x80000000 1) = some false := by
  decide

end X86

end Lowering
