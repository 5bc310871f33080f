import Lowering.Proofs.Program.Building

/-!
# The layout of a frame

What the rest of the theory knows of how frames hand out storage: which registers and which slots the formals of a new
frame get, what one more local gets, and how far the counter of registers moves. Frames are not opened again.
-/

namespace Lowering

namespace Access

/-- The register that a variable lives in. -/
def reg? : Access → Option Temp
  | .inFrame _ => none
  | .inReg t => some t

/-- The distance of a variable's slot from the frame pointer. -/
def offset? : Access → Option Int
  | .inFrame offset => some offset
  | .inReg _ => none

end Access

/-- The registers among the storage of variables. -/
def registersOf (storage : List Access) : List Temp := storage.filterMap Access.reg?

/-- The slots among the storage of variables. -/
def offsetsOf (storage : List Access) : List Int := storage.filterMap Access.offset?

theorem registersOf_append (as bs : List Access) : registersOf (as ++ bs) = registersOf as ++ registersOf bs :=
  List.filterMap_append

theorem offsetsOf_append (as bs : List Access) : offsetsOf (as ++ bs) = offsetsOf as ++ offsetsOf bs :=
  List.filterMap_append

theorem mem_registersOf {as : List Access} {t : Temp} (ht : .inReg t ∈ as) : t ∈ registersOf as :=
  List.mem_filterMap.mpr ⟨.inReg t, ht, rfl⟩

namespace X86

/-! ### Formals -/

/-- The registers from number `n + 1` on. -/
def freshRegisters (n count : Nat) : List Temp := (List.range count).map fun k => ⟨(n + k : Nat) + 1⟩

theorem freshRegisters_succ (n count : Nat) :
    freshRegisters n (count + 1) = ⟨(n : Int) + 1⟩ :: freshRegisters (n + 1) count := by
  rw [freshRegisters, freshRegisters, List.range_succ_eq_map, List.map_cons, List.map_map]
  refine congrArg _ (List.map_congr_left fun k _ => ?_)
  show Temp.mk ((n + (k + 1) : Nat) + 1) = Temp.mk ((n + 1 + k : Nat) + 1)
  rw [show n + (k + 1) = n + 1 + k by omega]

theorem mem_freshRegisters {n count : Nat} {t : Temp} (ht : t ∈ freshRegisters n count) :
    (n : Int) < t.id ∧ t.id ≤ (n + count : Nat) := by
  obtain ⟨k, hk, rfl⟩ := List.mem_map.mp ht
  rw [List.mem_range] at hk
  dsimp only
  omega

theorem nodup_freshRegisters (n count : Nat) : (freshRegisters n count).Nodup := by
  refine List.pairwise_map.mpr (List.nodup_range.imp fun hne heq => hne ?_)
  have hid := congrArg Temp.id heq
  dsimp only at hid
  omega

/-- The formals that need an address get the slots from `offset` up, the others the next registers. -/
theorem placeFormals_spec (offset : Nat) (escapes : List Bool) (session : Session) :
    ((placeFormals offset escapes).run session).1.length = escapes.length ∧
    ((placeFormals offset escapes).run session).2.temps = session.temps + escapes.count false ∧
    registersOf ((placeFormals offset escapes).run session).1 =
      freshRegisters session.temps (escapes.count false) ∧
    offsetsOf ((placeFormals offset escapes).run session).1 =
      (List.range (escapes.count true)).map fun k => ((offset + 4 * k : Nat) : Int) := by
  induction escapes generalizing offset session with
  | nil => exact ⟨rfl, rfl, rfl, rfl⟩
  | cons escape rest ih =>
    cases escape with
    | true =>
      obtain ⟨hlength, htemps, hregs, hoffsets⟩ := ih (offset + wordSize) session
      have hcons : offsetsOf ((placeFormals offset (true :: rest)).run session).1 =
          (offset : Int) :: offsetsOf ((placeFormals (offset + wordSize) rest).run session).1 := rfl
      refine ⟨congrArg (· + 1) hlength, htemps, hregs, ?_⟩
      rw [hcons, hoffsets, List.count_cons_self, List.range_succ_eq_map, List.map_cons, List.map_map]
      refine congrArg _ (List.map_congr_left fun k _ => ?_)
      show ((offset + 4 + 4 * k : Nat) : Int) = ((offset + 4 * (k + 1) : Nat) : Int)
      omega
    | false =>
      obtain ⟨hlength, htemps, hregs, hoffsets⟩ := ih offset { session with temps := session.temps + 1 }
      have hcons : registersOf ((placeFormals offset (false :: rest)).run session).1 =
          ⟨(session.temps : Int) + 1⟩ :: registersOf ((placeFormals offset rest).run
            { session with temps := session.temps + 1 }).1 := rfl
      refine ⟨congrArg (· + 1) hlength, ?_, ?_, hoffsets⟩
      · rw [List.count_cons_self]
        exact htemps.trans (show session.temps + 1 + rest.count false = session.temps + (rest.count false + 1) by omega)
      · rw [hcons, hregs, List.count_cons_self, freshRegisters_succ]

theorem placeFormals_run (offset : Nat) (escapes : List Bool) (session : Session) :
    session.temps ≤ ((placeFormals offset escapes).run session).2.temps ∧
      ∀ a ∈ ((placeFormals offset escapes).run session).1,
        Access.Issued ((placeFormals offset escapes).run session).2.temps a := by
  obtain ⟨-, htemps, hregs, -⟩ := placeFormals_spec offset escapes session
  rw [htemps]
  refine ⟨Nat.le_add_right _ _, ?_⟩
  intro a ha
  cases a with
  | inFrame o => trivial
  | inReg t =>
    have ht := mem_registersOf ha
    rw [hregs] at ht
    exact (mem_freshRegisters ht).2

namespace Frame

/-- A new frame has its formals placed and nothing else. -/
theorem create_run [S : Supply] (name : Label) (escapes : List Bool) (session : Session) :
    ∃ session', (create name escapes).run session =
        ({ name, formals := ((placeFormals firstFormalOffset escapes).run session).1 }, session') ∧
      session'.temps = ((placeFormals firstFormalOffset escapes).run session).2.temps :=
  ⟨_, rfl, Session.temps_record _ _⟩

/-- Each register that is handed back is paired with the next register. -/
theorem saveRegisters_spec (regs : List Temp) (session : Session) :
    ((saveRegisters regs).run session).1 = regs.zip (freshRegisters session.temps regs.length) ∧
      ((saveRegisters regs).run session).2.temps = session.temps + regs.length := by
  induction regs generalizing session with
  | nil => exact ⟨rfl, rfl⟩
  | cons r rest ih =>
    obtain ⟨hsaved, htemps⟩ := ih { session with temps := session.temps + 1 }
    rw [List.length_cons, freshRegisters_succ, List.zip_cons_cons, ← hsaved]
    exact ⟨rfl, htemps.trans (show session.temps + 1 + rest.length = session.temps + (rest.length + 1) by omega)⟩

/-! ### Locals -/

section

variable {frame : Frame} (hframe : frame.sealed = false)

include hframe

theorem addLocal_slot [S : Supply] (session : Session) :
    ∃ session', (frame.addLocal true).run session =
        (.ok (.inFrame (-(4 * (frame.locals + 1 : Nat) : Int)), { frame with locals := frame.locals + 1 }), session') ∧
      session'.temps = session.temps := by
  obtain ⟨name, formals, locals, sealed⟩ := frame
  obtain rfl : sealed = false := hframe
  have hoffset : (-((locals + 1) * wordSize : Nat) : Int) = -(4 * (locals + 1 : Nat) : Int) := by
    show (-((locals + 1) * 4 : Nat) : Int) = _
    omega
  refine ⟨((Session.record (.newLocal name true (.inFrame (-((locals + 1) * wordSize : Nat))))).run session).2, ?_,
    Session.temps_record _ session⟩
  rw [← hoffset]
  rfl

theorem addLocal_register [S : Supply] (session : Session) :
    ∃ session', (frame.addLocal false).run session = (.ok (.inReg (S.register session.temps), frame), session') ∧
      session'.temps = session.temps + 1 := by
  obtain ⟨name, formals, locals, sealed⟩ := frame
  obtain rfl : sealed = false := hframe
  exact ⟨_, rfl, Session.temps_record (.newLocal name false (.inReg (S.register session.temps)))
    { session with temps := session.temps + 1 }⟩

end

/-- If a local was added, the frame was not sealed and the local got the next slot or the next register. -/
theorem addLocal_cases {frame frame' : Frame} {escapes : Bool} {session session' : Session} {a : Access}
    (h : (frame.addLocal escapes).run session = (.ok (a, frame'), session')) :
    frame.sealed = false ∧
      (a = .inFrame (-(4 * (frame.locals + 1 : Nat) : Int)) ∧ frame' = { frame with locals := frame.locals + 1 } ∧
          session'.temps = session.temps ∨
        a = .inReg ⟨(session.temps : Int) + 1⟩ ∧ frame' = frame ∧ session'.temps = session.temps + 1) := by
  obtain hsealed | hsealed := Bool.eq_false_or_eq_true frame.sealed
  · obtain ⟨name, formals, locals, sealed⟩ := frame
    obtain rfl : sealed = true := hsealed
    cases (Prod.mk.inj h).1
  · refine ⟨hsealed, ?_⟩
    cases escapes with
    | true =>
      obtain ⟨_, hrun, htemps⟩ := addLocal_slot hsealed session
      cases hrun.symm.trans h
      exact .inl ⟨rfl, rfl, htemps⟩
    | false =>
      obtain ⟨_, hrun, htemps⟩ := addLocal_register hsealed session
      cases hrun.symm.trans h
      exact .inr ⟨rfl, rfl, htemps⟩

end Frame

end X86

end Lowering
