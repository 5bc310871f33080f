import Lowering.Proofs.Frame.Layout
import Lowering.Proofs.Machine.Memory
import Lowering.Proofs.Meaning

/-!
# Arguments reach their formals

The caller leaves argument `i` in slot `i` above the frame pointer. Formals that need an address are packed into the
lowest slots, which are themselves slots of other arguments, so the moves of the entry code overlap. They are right
because the slot of a formal never lies above the slot of its argument: when argument `i` is moved, the slots below
`i` have been read, and the slots that are still to be filled lie above the one that is filled now.
-/

namespace Lowering

open X86

/-- Runs statements one after the other. -/
def Stm.runInOrder (address : Label → Word) (ss : List Stm) (m : Machine) : Except Halt Machine :=
  ss.foldlM (fun m s => s.run address m) m

namespace X86

/-- The address of argument `i` for a frame pointer. -/
def argumentSlot (fp : Word) (i : Nat) : Word := fp + BitVec.ofNat 32 (8 + 4 * i)

namespace Frame

/-- The statements before the body of a frame, when registers are handed out by `session`. -/
def entry [S : Supply] (frame : Frame) (session : Session) : List Stm :=
  entryMoves 0 frame.formals ++
    ((saveRegisters calleeSaved).run session).1.map fun (r, t) => .move (.temp t) (.temp r)

/-- The statements behind the body of a frame. -/
def exit [S : Supply] (session : Session) : List Stm :=
  ((saveRegisters calleeSaved).run session).1.map fun (r, t) => .move (.temp r) (.temp t)

theorem wrap_eq [S : Supply] (frame : Frame) (body : Stm) (session : Session) :
    ((frame.wrap body).run session).1 = Stm.seqs (frame.entry session ++ [body] ++ exit session) := rfl

end Frame

/-! ### Slots -/

theorem inWord_argumentSlot {fp b : Word} {i : Nat} (hi : i < 0x20000000) :
    Memory.InWord (argumentSlot fp i) b ↔ (b - fp).toNat / 4 = i + 2 := by
  have hoffset : (BitVec.ofNat 32 (8 + 4 * i)).toNat = 8 + 4 * i := by
    rw [BitVec.toNat_ofNat]
    omega
  rw [Memory.InWord, argumentSlot]
  generalize BitVec.ofNat 32 (8 + 4 * i) = offset at hoffset
  bv_omega

theorem incoming_eq (i : Nat) : Frame.incoming i = .inFrame (8 + 4 * i : Nat) := by
  rw [Nat.mul_comm]
  rfl

theorem eval_slot (address : Label → Word) (m : Machine) (i : Nat) :
    ((Access.inFrame (8 + 4 * i : Nat)).exp framePointerExp).eval address m =
      .ok (m.mem.load (argumentSlot (m.regs framePointer) i)) := by
  rw [argumentSlot, ← BitVec.ofInt_natCast]
  rfl

theorem run_move_slot (address : Label → Word) (m : Machine) (k i : Nat) :
    (Stm.move ((Access.inFrame (8 + 4 * k : Nat)).exp framePointerExp)
      ((Access.inFrame (8 + 4 * i : Nat)).exp framePointerExp)).run address m =
      .ok (m.store (argumentSlot (m.regs framePointer) k)
        (m.mem.load (argumentSlot (m.regs framePointer) i))) := by
  rw [argumentSlot, argumentSlot, ← BitVec.ofInt_natCast, ← BitVec.ofInt_natCast]
  rfl

theorem run_move_reg (address : Label → Word) (m : Machine) (t : Temp) (i : Nat) :
    (Stm.move ((Access.inReg t).exp framePointerExp)
      ((Access.inFrame (8 + 4 * i : Nat)).exp framePointerExp)).run address m =
      .ok (m.set t (m.mem.load (argumentSlot (m.regs framePointer) i))) := by
  rw [argumentSlot, ← BitVec.ofInt_natCast]
  rfl

/-! ### The moves -/

/-- What is so once the arguments from number `i` on were moved from `m` to `m'`, where their formals live in slots
from number `k` on and in registers from number `n + 1` up to `n'`. -/
structure Moved (address : Label → Word) (formals : List Access) (k i n n' : Nat) (m m' : Machine) : Prop where
  storage : ∀ (j : Nat) (a : Access), formals[j]? = some a →
    (a.exp framePointerExp).eval address m' = .ok (m.mem.load (argumentSlot (m.regs framePointer) (i + j)))
  memory : ∀ b, (∀ j, k ≤ j → j < i + formals.length → ¬ Memory.InWord (argumentSlot (m.regs framePointer) j) b) →
    m'.mem b = m.mem b
  registers : ∀ t : Temp, t.id ≤ n ∨ (n' : Int) < t.id → m'.regs t = m.regs t

namespace Moved

variable {address : Label → Word} {formals : List Access} {k i n n' : Nat} {m m' : Machine}

theorem framePointer_eq (h : Moved address formals k i n n' m m') : m'.regs framePointer = m.regs framePointer := by
  apply h.registers
  left
  show (-6 : Int) ≤ n
  omega

/-- The slot below those that were filled is as it was. -/
theorem load_below (h : Moved address formals (k + 1) i n n' m m') (hlast : i + formals.length < 0x20000000)
    (hk : k < 0x20000000) :
    m'.mem.load (argumentSlot (m.regs framePointer) k) = m.mem.load (argumentSlot (m.regs framePointer) k) := by
  apply Memory.load_congr
  intro b hb
  apply h.memory
  intro j hkj hj hb'
  rw [inWord_argumentSlot hk] at hb
  rw [inWord_argumentSlot (by omega)] at hb'
  omega

/-- A formal that lives where its argument is needs no move. -/
theorem inPlace (h : Moved address formals (k + 1) (k + 1) n n' m m') (hlast : k + 1 + formals.length < 0x20000000) :
    Moved address (.inFrame (8 + 4 * k : Nat) :: formals) k k n n' m m' where
  storage j a ha := by
    cases j with
    | zero =>
      cases ha
      rw [eval_slot, h.framePointer_eq, h.load_below hlast (by omega)]
      rfl
    | succ j =>
      rw [h.storage j a ha, show k + 1 + j = k + (j + 1) by omega]
  memory b hb := by
    apply h.memory
    intro j hkj hj
    apply hb j (by omega)
    rw [List.length_cons]
    omega
  registers := h.registers

/-- A formal that is packed lives in a slot whose argument was moved before. -/
theorem packed (hki : k < i) (hlast : i + 1 + formals.length < 0x20000000)
    (h : Moved address formals (k + 1) (i + 1) n n' (m.store (argumentSlot (m.regs framePointer) k)
      (m.mem.load (argumentSlot (m.regs framePointer) i))) m') :
    Moved address (.inFrame (8 + 4 * k : Nat) :: formals) k i n n' m m' where
  storage j a ha := by
    cases j with
    | zero =>
      cases ha
      have hbelow := h.load_below hlast (by omega)
      rw [eval_slot, h.framePointer_eq]
      rw [Machine.store_regs, Machine.store_mem, Memory.load_store_self] at hbelow
      exact congrArg Except.ok hbelow
    | succ j =>
      rw [h.storage j a ha, show i + 1 + j = i + (j + 1) by omega]
      refine congrArg Except.ok (Memory.load_congr fun b hb => Memory.store_of_not_inWord _ _ ?_)
      intro hb'
      have hj : j < formals.length := Nat.lt_of_succ_lt_succ (List.getElem?_eq_some_iff.mp ha).1
      rw [Machine.store_regs, inWord_argumentSlot (by omega)] at hb
      rw [inWord_argumentSlot (by omega)] at hb'
      omega
  memory b hb := by
    rw [h.memory b, Machine.store_mem, Memory.store_of_not_inWord]
    · apply hb k (Nat.le_refl k)
      rw [List.length_cons]
      omega
    · intro j hkj hj
      apply hb j (by omega)
      rw [List.length_cons]
      omega
  registers := h.registers

/-- A formal that lives in a register leaves all slots as they are. -/
theorem inReg (hn : n + 1 ≤ n')
    (h : Moved address formals k (i + 1) (n + 1) n' (m.set ⟨(n : Int) + 1⟩
      (m.mem.load (argumentSlot (m.regs framePointer) i))) m') :
    Moved address (.inReg ⟨(n : Int) + 1⟩ :: formals) k i n n' m m' := by
  have hfp : (m.set ⟨(n : Int) + 1⟩ (m.mem.load (argumentSlot (m.regs framePointer) i))).regs framePointer =
      m.regs framePointer := by
    apply Machine.set_of_ne
    intro heq
    have hid : (-6 : Int) = n + 1 := congrArg Temp.id heq
    omega
  constructor
  · intro j a ha
    cases j with
    | zero =>
      cases ha
      show Except.ok (m'.regs ⟨(n : Int) + 1⟩) = _
      rw [h.registers ⟨(n : Int) + 1⟩ (Or.inl (Int.le_refl _)), Machine.set_self]
      rfl
    | succ j =>
      rw [h.storage j a ha, hfp, Machine.set_mem, show i + 1 + j = i + (j + 1) by omega]
  · intro b hb
    rw [h.memory b, Machine.set_mem]
    intro j hkj hj
    rw [hfp]
    apply hb j hkj
    rw [List.length_cons]
    omega
  · intro t ht
    rw [h.registers t (by omega), Machine.set_of_ne]
    rintro rfl
    dsimp only at ht
    omega

end Moved

theorem entryMoves_run (address : Label → Word) (escapes : List Bool) (k i : Nat) (session : Session) (m : Machine)
    (hki : k ≤ i) (hlast : i + escapes.length < 0x20000000) :
    ∃ m', Stm.runInOrder address (Frame.entryMoves i ((placeFormals (8 + 4 * k) escapes).run session).1) m = .ok m' ∧
      Moved address ((placeFormals (8 + 4 * k) escapes).run session).1 k i session.temps
        ((placeFormals (8 + 4 * k) escapes).run session).2.temps m m' := by
  induction escapes generalizing k i session m with
  | nil =>
    refine ⟨m, rfl, ?_, fun _ _ => rfl, fun _ _ => rfl⟩
    intro j a ha
    cases ha
  | cons escape rest ih =>
    rw [List.length_cons] at hlast
    cases escape with
    | true =>
      have hlength := (placeFormals_spec (8 + 4 * (k + 1)) rest session).1
      have hcons : (placeFormals (8 + 4 * k) (true :: rest)).run session =
          (.inFrame (8 + 4 * k : Nat) :: ((placeFormals (8 + 4 * (k + 1)) rest).run session).1,
            ((placeFormals (8 + 4 * (k + 1)) rest).run session).2) := rfl
      rw [hcons, Frame.entryMoves, incoming_eq]
      rcases Nat.eq_or_lt_of_le hki with rfl | hlt
      · obtain ⟨m', hrun, hmoved⟩ := ih (k + 1) (k + 1) session m (Nat.le_refl _) (by omega)
        rw [if_pos rfl]
        exact ⟨m', hrun, hmoved.inPlace (by omega)⟩
      · have hne : Access.inFrame (8 + 4 * k : Nat) ≠ .inFrame (8 + 4 * i : Nat) := by
          intro heq
          have := Access.inFrame.inj heq
          omega
        obtain ⟨m', hrun, hmoved⟩ := ih (k + 1) (i + 1) session
          (m.store (argumentSlot (m.regs framePointer) k) (m.mem.load (argumentSlot (m.regs framePointer) i)))
          (by omega) (by omega)
        refine ⟨m', ?_, .packed hlt (by omega) hmoved⟩
        rw [if_neg hne, Stm.runInOrder, List.foldlM_cons, run_move_slot]
        exact hrun
    | false =>
      obtain ⟨m', hrun, hmoved⟩ := ih k (i + 1) { session with temps := session.temps + 1 }
        (m.set ⟨(session.temps : Int) + 1⟩ (m.mem.load (argumentSlot (m.regs framePointer) i)))
        (by omega) (by omega)
      have hcons : (placeFormals (8 + 4 * k) (false :: rest)).run session =
          (.inReg ⟨(session.temps : Int) + 1⟩ ::
            ((placeFormals (8 + 4 * k) rest).run { session with temps := session.temps + 1 }).1,
            ((placeFormals (8 + 4 * k) rest).run { session with temps := session.temps + 1 }).2) := rfl
      have hle := (placeFormals_run (8 + 4 * k) rest { session with temps := session.temps + 1 }).1
      rw [hcons, Frame.entryMoves, incoming_eq]
      refine ⟨m', ?_, .inReg hle hmoved⟩
      rw [if_neg Access.noConfusion, Stm.runInOrder, List.foldlM_cons, run_move_reg]
      exact hrun

/-- Saving registers changes nothing but registers that are handed out for it. -/
theorem saves_run (address : Label → Word) (regs : List Temp) (session : Session) (m : Machine) :
    ∃ m', Stm.runInOrder address
        (((Frame.saveRegisters regs).run session).1.map fun (r, t) => .move (.temp t) (.temp r)) m = .ok m' ∧
      m'.mem = m.mem ∧ ∀ t : Temp, t.id ≤ session.temps → m'.regs t = m.regs t := by
  induction regs generalizing session m with
  | nil => exact ⟨m, rfl, rfl, fun _ _ => rfl⟩
  | cons r rest ih =>
    obtain ⟨m', hrun, hmem, hregs⟩ := ih { session with temps := session.temps + 1 }
      (m.set ⟨(session.temps : Int) + 1⟩ (m.regs r))
    refine ⟨m', hrun, hmem, ?_⟩
    intro t ht
    rw [hregs t (by dsimp only; omega), Machine.set_of_ne]
    rintro rfl
    dsimp only at ht
    omega

/-! ### The entry code of a frame -/

/-- The entry code of a frame moves every argument to where its formal lives: whatever the frame pointer, the memory
and the registers are, each formal ends up with the word that the caller left in its slot, and memory outside of the
slots stays as it is. -/
theorem arguments_reach_formals (name : Label) (escapes : List Bool) (session session' : Session) (frame : Frame)
    (hlength : escapes.length < 0x20000000)
    (hformals : frame.formals = ((Frame.create name escapes).run session).1.formals)
    (hlater : ((Frame.create name escapes).run session).2.temps ≤ session'.temps) :
    frame.formals.length = escapes.length ∧
    (∀ body, ((frame.wrap body).run session').1 =
      Stm.seqs (frame.entry session' ++ [body] ++ Frame.exit session')) ∧
    ∀ (address : Label → Word) (m : Machine), ∃ m', Stm.runInOrder address (frame.entry session') m = .ok m' ∧
      (∀ (i : Nat) (a : Access), frame.formals[i]? = some a →
        (a.exp framePointerExp).eval address m' =
          .ok (m.mem.load (m.regs framePointer + BitVec.ofNat 32 (8 + 4 * i)))) ∧
      (∀ b, (∀ i < escapes.length, ¬ Memory.InWord (m.regs framePointer + BitVec.ofNat 32 (8 + 4 * i)) b) →
        m'.mem b = m.mem b) ∧
      ∀ t : Temp, t.id ≤ session.temps → m'.regs t = m.regs t := by
  have hcreate : frame.formals = ((placeFormals (8 + 4 * 0) escapes).run session).1 := hformals
  have hcount : frame.formals.length = escapes.length := by
    rw [hcreate]
    exact (placeFormals_spec _ _ _).1
  refine ⟨hcount, fun body => frame.wrap_eq body session', ?_⟩
  intro address m
  obtain ⟨m₁, hrun, hmoved⟩ := entryMoves_run address escapes 0 0 session m (Nat.le_refl 0) (by omega)
  rw [← hcreate] at hrun hmoved
  obtain ⟨m', hsaves, hmem, hregs⟩ := saves_run address calleeSaved session' m₁
  obtain ⟨_, hcreated, htemps⟩ := Frame.create_run name escapes session
  rw [hcreated, htemps] at hlater
  have hfp : m'.regs framePointer = m₁.regs framePointer := by
    apply hregs
    show (-6 : Int) ≤ session'.temps
    omega
  refine ⟨m', ?_, ?_, ?_, ?_⟩
  · rw [Stm.runInOrder, Frame.entry, List.foldlM_append]
    rw [Stm.runInOrder] at hrun hsaves
    rw [hrun]
    exact hsaves
  · intro i a ha
    have hvalue := hmoved.storage i a ha
    rw [Nat.zero_add] at hvalue
    rw [argumentSlot] at hvalue
    rw [← hvalue]
    cases a with
    | inFrame offset =>
      show Except.ok (m'.mem.load (m'.regs framePointer + _)) = Except.ok (m₁.mem.load (m₁.regs framePointer + _))
      rw [hmem, hfp]
    | inReg t =>
      show Except.ok (m'.regs t) = Except.ok (m₁.regs t)
      have hissued := (placeFormals_run (8 + 4 * 0) escapes session).2 _ (hcreate ▸ List.mem_of_getElem? ha)
      rw [hregs t (Int.le_trans hissued (Int.ofNat_le.mpr hlater))]
  · intro b hb
    rw [hmem]
    apply hmoved.memory
    intro i _ hi
    exact hb i (by omega)
  · intro t ht
    have hle := (placeFormals_run (8 + 4 * 0) escapes session).1
    rw [hregs t (Int.le_trans ht (Int.ofNat_le.mpr (Nat.le_trans hle hlater))), hmoved.registers t (Or.inl ht)]

/-- The second and the third formal move down by one slot, over arguments that were read before. -/
theorem packedFormals_hold_arguments :
    [false, true, true].length < 0x20000000 ∧
    ((Frame.create "f" [false, true, true]).run {}).1.formals = [.inReg ⟨1⟩, .inFrame 8, .inFrame 12] ∧
    ((Frame.create "f" [false, true, true]).run {}).2.temps ≤ ({ temps := 1 } : Session).temps ∧
    ∀ m : Machine, ∃ m', Stm.runInOrder (fun _ => 0)
        (((Frame.create "f" [false, true, true]).run {}).1.entry { temps := 1 }) m = .ok m' ∧
      m'.regs ⟨1⟩ = m.mem.load (m.regs framePointer + 8) ∧
      m'.mem.load (m'.regs framePointer + 8) = m.mem.load (m.regs framePointer + 12) ∧
      m'.mem.load (m'.regs framePointer + 12) = m.mem.load (m.regs framePointer + 16) := by
  refine ⟨by decide, by decide, by decide, ?_⟩
  intro m
  obtain ⟨-, -, hrun⟩ := arguments_reach_formals "f" [false, true, true] {} { temps := 1 }
    ((Frame.create "f" [false, true, true]).run {}).1 (by decide) rfl (by decide)
  obtain ⟨m', hm', hformals, -⟩ := hrun (fun _ => 0) m
  have hfirst := Except.ok.inj (hformals 0 (.inReg ⟨1⟩) rfl)
  have hsecond := Except.ok.inj (hformals 1 (.inFrame 8) rfl)
  have hthird := Except.ok.inj (hformals 2 (.inFrame 12) rfl)
  exact ⟨m', hm', hfirst, hsecond, hthird⟩

end X86

end Lowering
