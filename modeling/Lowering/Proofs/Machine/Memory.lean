import Lowering.Proofs.Machine.Execution

/-!
# Words in memory

The rest of the theory never opens a store or a load: a word that was stored is loaded again, bytes outside of it
stay, and a load looks at nothing but the bytes of its word. Addresses wrap around, so all of this is said through
the distance of an address from the start of a word.
-/

namespace Lowering.X86.Memory

/-- `b` is the address of one of the four bytes of the word at `a`. -/
def InWord (a b : Word) : Prop := (b - a).toNat < 4

theorem load_store_self (mem : Memory) (a v : Word) : (mem.store a v).load a = v := by
  have h10 : a + 1 ≠ a := by bv_omega
  have h20 : a + 2 ≠ a := by bv_omega
  have h30 : a + 3 ≠ a := by bv_omega
  have h21 : a + 2 ≠ a + 1 := by bv_omega
  have h31 : a + 3 ≠ a + 1 := by bv_omega
  have h32 : a + 3 ≠ a + 2 := by bv_omega
  simp only [load, store, h10, h20, h30, h21, h31, h32, if_true, if_false]
  apply BitVec.eq_of_getLsbD_eq
  intro i hi
  simp only [BitVec.getLsbD_append, BitVec.getLsbD_extractLsb']
  grind

theorem store_of_not_inWord (mem : Memory) {a b : Word} (v : Word) (hb : ¬ InWord a b) :
    mem.store a v b = mem b := by
  have hne (k : Word) (hk : k.toNat < 4) : b ≠ a + k := by
    intro h
    apply hb
    rw [InWord, h, BitVec.add_comm, BitVec.add_sub_cancel]
    exact hk
  have hzero : b ≠ a := by
    simpa using hne 0 (by decide)
  rw [store, if_neg hzero, if_neg (hne 1 (by decide)), if_neg (hne 2 (by decide)), if_neg (hne 3 (by decide))]

theorem load_congr {mem mem' : Memory} {a : Word} (h : ∀ b, InWord a b → mem b = mem' b) :
    mem.load a = mem'.load a := by
  have hbyte (k : Word) (hk : k.toNat < 4) : mem (a + k) = mem' (a + k) := by
    apply h
    rw [InWord, BitVec.add_comm, BitVec.add_sub_cancel]
    exact hk
  have hzero : mem a = mem' a := by
    simpa using hbyte 0 (by decide)
  rw [load, load, hzero, hbyte 1 (by decide), hbyte 2 (by decide), hbyte 3 (by decide)]

end Lowering.X86.Memory
