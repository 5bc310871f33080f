import Lowering.Proofs.Frame.Layout
import Lowering.Proofs.Machine.Memory

/-!
# Storage is never shared

Frames and locals are asked for in any order, and all of them draw on one counter of registers. What was handed out is
recorded beside the frames. A request that names frames which exist is always met, and what one request preserves is
stated once: registers are new, formals fill slots from the first argument up, locals fill slots from the frame pointer
down.
-/

namespace Lowering.X86

/-- A frame and the storage of its locals, oldest first. -/
structure Holding where
  frame : Frame
  locals : List Access := []

/-- All frames that were made, and the session that they were made in. -/
structure Allocation where
  session : Session
  holdings : List Holding := []

/-- A request for storage. Frames go by the order in which they were made. -/
inductive Request where
  /-- A frame, asked of the shared one or of another frame. -/
  | newFrame (parent : Option Nat) (name : Label) (escapes : List Bool)
  | newLocal (frame : Nat) (escapes : Bool)
  /-- A register for something else. -/
  | newRegister

namespace Allocation

/-- Meets a request. -/
def serve (a : Allocation) : Request → Option Allocation
  | .newFrame parent name escapes =>
    if parent.all (· < a.holdings.length) then
      let (frame, session) := (Frame.create name escapes).run a.session
      some { session, holdings := a.holdings ++ [{ frame }] }
    else none
  | .newLocal k escapes =>
    match a.holdings[k]? with
    | none => none
    | some h =>
      match (h.frame.addLocal escapes).run a.session with
      | (.ok (access, frame), session) =>
        some { session, holdings := a.holdings.set k { frame, locals := h.locals ++ [access] } }
      | (.error _, _) => none
  | .newRegister => some { a with session := (Session.freshTemp.run a.session).2 }

/-- Meets requests one after the other. -/
def serveAll (a : Allocation) (requests : List Request) : Option Allocation := requests.foldlM serve a

end Allocation

/-- Do all requests name frames that exist by then, given how many there are at the start? -/
def Request.inScope (frames : Nat) : List Request → Bool
  | [] => true
  | .newFrame parent _ _ :: rest => parent.all (· < frames) && inScope (frames + 1) rest
  | .newLocal k _ :: rest => k < frames && inScope frames rest
  | .newRegister :: rest => inScope frames rest

/-- The registers of the variables of a frame. -/
def Holding.registers (h : Holding) : List Temp := registersOf (h.frame.formals ++ h.locals)

/-- The slots of the variables of a frame. -/
def Holding.offsets (h : Holding) : List Int := offsetsOf (h.frame.formals ++ h.locals)

/-- The registers of all variables. -/
def Allocation.registers (a : Allocation) : List Temp := a.holdings.flatMap Holding.registers

/-! ### What a request preserves -/

/-- The slots of formals from the first argument up. -/
def formalOffsets (count : Nat) : List Int := (List.range count).map fun k => ((8 + 4 * k : Nat) : Int)

/-- The slots of locals from the frame pointer down. -/
def localOffsets (count : Nat) : List Int := (List.range count).map fun k => -(4 * (k + 1 : Nat) : Int)

structure Holding.LaidOut (h : Holding) : Prop where
  unsealed : h.frame.sealed = false
  formals : ∃ count ≤ h.frame.formals.length, offsetsOf h.frame.formals = formalOffsets count
  locals : offsetsOf h.locals = localOffsets h.frame.locals

structure Allocation.Sound (a : Allocation) : Prop where
  issued : ∀ t ∈ a.registers, 0 < t.id ∧ t.id ≤ a.session.temps
  nodup : a.registers.Nodup
  laidOut : ∀ h ∈ a.holdings, h.LaidOut

theorem Holding.laidOut_new (name : Label) (escapes : List Bool) (session : Session) :
    Holding.LaidOut { frame := { name, formals := ((placeFormals firstFormalOffset escapes).run session).1 } } := by
  obtain ⟨hlength, -, -, hoffsets⟩ := placeFormals_spec firstFormalOffset escapes session
  refine ⟨rfl, ⟨escapes.count true, ?_, hoffsets⟩, rfl⟩
  show escapes.count true ≤ ((placeFormals firstFormalOffset escapes).run session).1.length
  rw [hlength]
  exact List.count_le_length

theorem Holding.LaidOut.addSlot {h : Holding} (hh : h.LaidOut) :
    Holding.LaidOut
      { frame := { h.frame with locals := h.frame.locals + 1 }
        locals := h.locals ++ [.inFrame (-(4 * (h.frame.locals + 1 : Nat) : Int))] } := by
  refine ⟨hh.unsealed, hh.formals, ?_⟩
  show offsetsOf (h.locals ++ _) = localOffsets (h.frame.locals + 1)
  rw [offsetsOf_append, hh.locals, localOffsets, localOffsets, List.range_succ, List.map_append]
  rfl

theorem Holding.LaidOut.addRegister {h : Holding} (hh : h.LaidOut) (t : Temp) :
    Holding.LaidOut { frame := h.frame, locals := h.locals ++ [.inReg t] } := by
  refine ⟨hh.unsealed, hh.formals, ?_⟩
  show offsetsOf (h.locals ++ _) = localOffsets h.frame.locals
  rw [offsetsOf_append, hh.locals]
  exact List.append_nil _

namespace Allocation

variable {a : Allocation}

/-- Handing out the next registers, to whichever frames, keeps registers apart. -/
theorem Sound.extend (ha : a.Sound) {a' : Allocation} {count : Nat}
    (hregs : a'.registers.Perm (a.registers ++ freshRegisters a.session.temps count))
    (htemps : a'.session.temps = a.session.temps + count) (hlaid : ∀ h ∈ a'.holdings, h.LaidOut) : a'.Sound := by
  refine ⟨?_, ?_, hlaid⟩
  · intro t ht
    rw [htemps]
    rcases List.mem_append.mp (hregs.mem_iff.mp ht) with hold | hnew
    · have := ha.issued t hold
      omega
    · have := mem_freshRegisters hnew
      omega
  · rw [hregs.nodup_iff, List.nodup_append]
    refine ⟨ha.nodup, nodup_freshRegisters _ _, ?_⟩
    rintro t hold u hnew rfl
    have := ha.issued t hold
    have := mem_freshRegisters hnew
    omega

theorem Sound.serve_newFrame (ha : a.Sound) {parent : Option Nat}
    (hparent : parent.all (· < a.holdings.length) = true) (name : Label) (escapes : List Bool) :
    ∃ a', a.serve (.newFrame parent name escapes) = some a' ∧ a'.Sound ∧
      a'.holdings.length = a.holdings.length + 1 := by
  obtain ⟨session', hcreate, htemps⟩ := Frame.create_run name escapes a.session
  obtain ⟨-, hcount, hregs, -⟩ := placeFormals_spec firstFormalOffset escapes a.session
  have hserve : a.serve (.newFrame parent name escapes) = some
      { session := session'
        holdings := a.holdings ++
          [{ frame := { name, formals := ((placeFormals firstFormalOffset escapes).run a.session).1 } }] } := by
    rw [serve, if_pos hparent, hcreate]
  refine ⟨_, hserve, ha.extend (List.Perm.of_eq ?_) (htemps.trans hcount) ?_, List.length_append⟩
  · rw [← hregs, registers, registers, List.flatMap_append, List.flatMap_singleton, Holding.registers, List.append_nil]
  · intro h hh
    rcases List.mem_append.mp hh with hold | hnew
    · exact ha.laidOut h hold
    · rw [List.mem_singleton.mp hnew]
      exact Holding.laidOut_new name escapes a.session

/-- Giving one frame more storage touches no other frame. -/
theorem Sound.replace (ha : a.Sound) {k : Nat} {h h' : Holding} (hk : a.holdings[k]? = some h) {session : Session}
    (count : Nat) (hregs : h'.registers = h.registers ++ freshRegisters a.session.temps count)
    (htemps : session.temps = a.session.temps + count) (hlaid : h'.LaidOut) :
    Sound { session, holdings := a.holdings.set k h' } := by
  obtain ⟨hlt, rfl⟩ := List.getElem?_eq_some_iff.mp hk
  obtain ⟨before, after, hsplit, -, hset⟩ := @List.exists_of_set _ k h' a.holdings hlt
  rw [hset]
  refine ha.extend ?_ htemps ?_
  · have hold : a.registers = before.flatMap Holding.registers ++ (a.holdings[k].registers ++
        after.flatMap Holding.registers) := by
      have hflat := congrArg (List.flatMap Holding.registers) hsplit
      rwa [List.flatMap_append, List.flatMap_cons] at hflat
    rw [hold, registers, List.flatMap_append, List.flatMap_cons, hregs, List.append_assoc, List.append_assoc,
      List.append_assoc]
    exact ((List.perm_append_comm.append_left _).append_left _)
  · intro h hh
    rcases List.mem_append.mp hh with hbefore | hafter
    · exact ha.laidOut h (hsplit ▸ List.mem_append_left _ hbefore)
    · rcases List.mem_cons.mp hafter with rfl | hafter
      · exact hlaid
      · exact ha.laidOut h (hsplit ▸ List.mem_append_right _ (List.mem_cons_of_mem _ hafter))

theorem Sound.serve_newLocal (ha : a.Sound) {k : Nat} (hk : k < a.holdings.length) (escapes : Bool) :
    ∃ a', a.serve (.newLocal k escapes) = some a' ∧ a'.Sound ∧ a'.holdings.length = a.holdings.length := by
  have hget : a.holdings[k]? = some a.holdings[k] := List.getElem?_eq_getElem hk
  have hlaid := ha.laidOut _ (List.getElem_mem hk)
  generalize a.holdings[k] = h at hget hlaid
  cases escapes with
  | true =>
    obtain ⟨session', hadd, htemps⟩ := Frame.addLocal_slot hlaid.unsealed a.session
    refine ⟨_, by simp only [serve, hget, hadd], ha.replace hget 0 ?_ htemps hlaid.addSlot,
      List.length_set⟩
    simp only [Holding.registers, registersOf_append, List.append_assoc]
    rfl
  | false =>
    obtain ⟨session', hadd, htemps⟩ := Frame.addLocal_register hlaid.unsealed a.session
    refine ⟨_, by simp only [serve, hget, hadd], ha.replace hget 1 ?_ htemps
      (hlaid.addRegister (Supply.inOrder.register a.session.temps)), List.length_set⟩
    simp only [Holding.registers, registersOf_append, List.append_assoc]
    rfl

theorem Sound.serve_newRegister (ha : a.Sound) :
    ∃ a', a.serve .newRegister = some a' ∧ a'.Sound ∧ a'.holdings.length = a.holdings.length := by
  refine ⟨_, rfl, ⟨?_, ha.nodup, ha.laidOut⟩, rfl⟩
  intro t ht
  have := ha.issued t ht
  show 0 < t.id ∧ t.id ≤ (a.session.temps + 1 : Nat)
  omega

/-- Requests that name frames which exist are met, and keep storage apart. -/
theorem Sound.serveAll (ha : a.Sound) {requests : List Request}
    (hscope : Request.inScope a.holdings.length requests = true) :
    ∃ a', a.serveAll requests = some a' ∧ a'.Sound := by
  induction requests generalizing a with
  | nil => exact ⟨a, rfl, ha⟩
  | cons r rest ih =>
    have hstep : ∃ a₁, a.serve r = some a₁ ∧ a₁.Sound ∧ Request.inScope a₁.holdings.length rest = true := by
      cases r with
      | newFrame parent name escapes =>
        rw [Request.inScope, Bool.and_eq_true] at hscope
        obtain ⟨a₁, hserve, hsound, hlength⟩ := ha.serve_newFrame hscope.1 name escapes
        exact ⟨a₁, hserve, hsound, hlength ▸ hscope.2⟩
      | newLocal k escapes =>
        rw [Request.inScope, Bool.and_eq_true] at hscope
        obtain ⟨a₁, hserve, hsound, hlength⟩ := ha.serve_newLocal (of_decide_eq_true hscope.1) escapes
        exact ⟨a₁, hserve, hsound, hlength ▸ hscope.2⟩
      | newRegister =>
        obtain ⟨a₁, hserve, hsound, hlength⟩ := ha.serve_newRegister
        exact ⟨a₁, hserve, hsound, hlength ▸ hscope⟩
    obtain ⟨a₁, hserve, hsound, hrest⟩ := hstep
    obtain ⟨a', hall, ha'⟩ := ih hsound hrest
    refine ⟨a', ?_, ha'⟩
    rw [Allocation.serveAll, List.foldlM_cons, hserve]
    exact hall

end Allocation

/-! ### The prolog -/

namespace Frame

/-- The instructions of a prolog, one a line. -/
def prologLines (frame : Frame) : List Text :=
  let save : List Text := ["push ebp", "mov ebp, esp"]
  if frame.locals = 0 then save else save ++ ["sub esp, " ++ Text.ofNat (4 * frame.locals)]

/-- A line of a listing with an instruction on it. -/
def instructionLine (line : Text) : Text := "\t" ++ line ++ "\n"

theorem prolog_eq (frame : Frame) :
    frame.prolog = frame.name ++ Text.ofString ":\n" ++ frame.prologLines.flatMap instructionLine := by
  rw [prolog, roomForLocals, prologLines, show frame.locals * wordSize = 4 * frame.locals from Nat.mul_comm ..,
    List.append_assoc, List.append_assoc]
  cases hlocals : frame.locals with
  | zero => rfl
  | succ k =>
    rw [if_neg (Nat.succ_ne_zero k), List.flatMap_append, List.flatMap_singleton]
    obtain ⟨n, hn⟩ : ∃ n, 4 * (k + 1) = n + 1 := ⟨4 * k + 3, by omega⟩
    rw [hn]
    rfl

theorem read_sub (bytes : Nat) :
    Assembly.read? ("sub esp, " ++ Text.ofNat bytes) =
      some ⟨.arith .sub, [.reg (.fixed .esp), .imm (BitVec.ofInt 32 bytes)]⟩ := by
  have hnumeral : tokens (Text.ofNat bytes) = numeral bytes := tokens_ofInt_last bytes
  have htokens : tokens ("sub esp, " ++ Text.ofNat bytes) =
      .word "sub" :: .word "esp" :: .byte 44 :: tokens (Text.ofNat bytes) := rfl
  rw [hnumeral] at htokens
  exact read_two (a := [.word "esp"]) htokens rfl (by decide) (comma_not_mem_numeral _) rfl (read_numeral bytes)

/-- The instruction that a line spells. -/
def lineInstr (line : Text) : Instr := .oper line [] [] [] []

theorem exec_sub (w : World) (m : Machine) (bytes : Nat) :
    exec? w (lineInstr ("sub esp, " ++ Text.ofNat bytes)) m =
      some (.next (m.set stackPointer (m.regs stackPointer - BitVec.ofNat 32 bytes)).forget) := by
  show (Assembly.read? ("sub esp, " ++ Text.ofNat bytes)).bind _ = _
  rw [read_sub, BitVec.ofInt_natCast]
  rfl

/-- The prolog saves the frame pointer, points it at where it was saved, and makes room below it. Nothing else in memory
changes. -/
theorem prologLines_run (frame : Frame) (w : World) (m : Machine) :
    ∃ m', run w (frame.prologLines.map lineInstr) m = .ok m' ∧
      m'.regs framePointer = m.regs stackPointer - 4 ∧
      m'.regs stackPointer = m'.regs framePointer - BitVec.ofNat 32 (4 * frame.locals) ∧
      m'.mem = m.mem.store (m'.regs framePointer) (m.regs framePointer) := by
  let saved := (m.push (m.regs framePointer)).set framePointer (m.regs stackPointer - 4)
  have hrun (rest : List Instr) :
      run w (lineInstr "push ebp" :: lineInstr "mov ebp, esp" :: rest) m = run w rest saved := rfl
  have hfp : saved.regs framePointer = m.regs stackPointer - 4 := Machine.set_self ..
  have hsp : saved.regs stackPointer = m.regs stackPointer - 4 := rfl
  have hmem : saved.mem = m.mem.store (saved.regs framePointer) (m.regs framePointer) := rfl
  rw [prologLines]
  split
  · next hzero =>
    refine ⟨saved, hrun [], hfp, ?_, hmem⟩
    rw [hzero, hsp, hfp]
    exact (BitVec.sub_zero _).symm
  · let top := saved.regs stackPointer - BitVec.ofNat 32 (4 * frame.locals)
    have hkept : (saved.set stackPointer top).regs framePointer = saved.regs framePointer :=
      saved.set_of_ne top (by decide)
    refine ⟨(saved.set stackPointer top).forget, ?_, hkept.trans hfp, ?_, ?_⟩
    · exact (hrun _).trans (run_next (exec_sub w saved _) [])
    · rw [Machine.forget_regs, hkept, hfp, ← hsp]
      exact saved.set_self stackPointer top
    · rw [Machine.forget_regs, hkept]
      exact hmem

end Frame

/-! ### Slots -/

theorem mem_formalOffsets {count : Nat} {o : Int} (ho : o ∈ formalOffsets count) :
    ∃ k : Nat, k < count ∧ o = 8 + 4 * k := by
  obtain ⟨k, hk, rfl⟩ := List.mem_map.mp ho
  exact ⟨k, List.mem_range.mp hk, by omega⟩

theorem mem_localOffsets {count : Nat} {o : Int} (ho : o ∈ localOffsets count) :
    ∃ k : Nat, k < count ∧ o = -(4 * (k + 1)) := by
  obtain ⟨k, hk, rfl⟩ := List.mem_map.mp ho
  exact ⟨k, List.mem_range.mp hk, by omega⟩

theorem nodup_formalOffsets (count : Nat) : (formalOffsets count).Nodup := by
  refine List.pairwise_map.mpr (List.nodup_range.imp fun hne heq => hne ?_)
  omega

theorem nodup_localOffsets (count : Nat) : (localOffsets count).Nodup := by
  refine List.pairwise_map.mpr (List.nodup_range.imp fun hne heq => hne ?_)
  omega

/-- The slots of a frame do not overlap, spare the words between locals and arguments, and the locals lie in the room
that the prolog makes. -/
structure Holding.Separate (h : Holding) : Prop where
  nodup : h.offsets.Nodup
  aligned : ∀ o ∈ h.offsets, 4 ∣ o
  formals : ∀ o ∈ offsetsOf h.frame.formals, 8 ≤ o ∧ o < 8 + 4 * (h.frame.formals.length : Int)
  locals : offsetsOf h.locals = localOffsets h.frame.locals
  /-- The saved frame pointer is at 0 and the return address at 4. -/
  clear : ∀ o ∈ h.offsets, o + 4 ≤ 0 ∨ 8 ≤ o
  prolog : ∀ body, (h.frame.procedure body).prolog =
    h.frame.name ++ Text.ofString ":\n" ++ h.frame.prologLines.flatMap Frame.instructionLine
  /-- How far the prolog takes the stack pointer below the frame pointer. -/
  reserved : ∀ w m, ∃ m', run w (h.frame.prologLines.map Frame.lineInstr) m = .ok m' ∧
    m'.regs framePointer = m.regs stackPointer - 4 ∧
    m'.regs stackPointer = m'.regs framePointer - BitVec.ofNat 32 (4 * h.frame.locals) ∧
    m'.mem = m.mem.store (m'.regs framePointer) (m.regs framePointer)
  inRoom : ∀ o ∈ offsetsOf h.locals, -(4 * h.frame.locals : Int) ≤ o ∧ o + 4 ≤ 0

theorem Holding.LaidOut.separate {h : Holding} (hh : h.LaidOut) : h.Separate := by
  obtain ⟨count, hcount, hformals⟩ := hh.formals
  have hoffsets : h.offsets = formalOffsets count ++ localOffsets h.frame.locals := by
    rw [Holding.offsets, offsetsOf_append, hformals, hh.locals]
  have hslot : ∀ o ∈ h.offsets, (∃ k : Nat, k < count ∧ o = 8 + 4 * k) ∨
      ∃ k : Nat, k < h.frame.locals ∧ o = -(4 * (k + 1)) := by
    intro o ho
    rw [hoffsets] at ho
    exact (List.mem_append.mp ho).imp mem_formalOffsets mem_localOffsets
  refine ⟨?_, ?_, ?_, hh.locals, ?_, fun _ => h.frame.prolog_eq, h.frame.prologLines_run, ?_⟩
  · rw [hoffsets, List.nodup_append]
    refine ⟨nodup_formalOffsets _, nodup_localOffsets _, ?_⟩
    intro o ho o' ho'
    obtain ⟨k, -, rfl⟩ := mem_formalOffsets ho
    obtain ⟨k', -, rfl⟩ := mem_localOffsets ho'
    omega
  · intro o ho
    rcases hslot o ho with ⟨k, -, rfl⟩ | ⟨k, -, rfl⟩ <;> omega
  · intro o ho
    rw [hformals] at ho
    obtain ⟨k, hk, rfl⟩ := mem_formalOffsets ho
    omega
  · intro o ho
    rcases hslot o ho with ⟨k, -, rfl⟩ | ⟨k, -, rfl⟩ <;> omega
  · intro o ho
    rw [hh.locals] at ho
    obtain ⟨k, hk, rfl⟩ := mem_localOffsets ho
    omega

/-- Whatever storage is asked for, and in whatever order, the registers of variables are virtual and differ, and the
slots of each frame are apart. -/
theorem handedOut_storage_never_overlaps (session : Session) (requests : List Request)
    (hscope : Request.inScope 0 requests = true) :
    ∃ a, Allocation.serveAll { session } requests = some a ∧ a.registers.Nodup ∧
      (∀ t ∈ a.registers, 0 < t.id) ∧ ∀ h ∈ a.holdings, h.Separate := by
  have hempty : Allocation.Sound { session } := ⟨nofun, .nil, nofun⟩
  obtain ⟨a, hserve, ha⟩ := hempty.serveAll hscope
  exact ⟨a, hserve, ha.nodup, fun t ht => (ha.issued t ht).1, fun h hh => (ha.laidOut h hh).separate⟩

/-- Two frames that grow in turns. -/
theorem interleavedFrames_never_overlap :
    let requests : List Request := [.newFrame none "f" [false, true], .newLocal 0 true,
      .newFrame (some 0) "g" [true, false], .newLocal 0 false, .newRegister, .newLocal 1 true, .newLocal 0 true]
    Request.inScope 0 requests = true ∧
    ∃ a, Allocation.serveAll { session := {} } requests = some a ∧
      a.registers = [⟨1⟩, ⟨3⟩, ⟨2⟩] ∧ a.holdings.map Holding.offsets = [[8, -4, -8], [8, -4]] ∧
      a.registers.Nodup ∧ ∀ h ∈ a.holdings, h.Separate := by
  intro requests
  have hscope : Request.inScope 0 requests = true := by decide
  obtain ⟨a, hserve, hnodup, -, hseparate⟩ := handedOut_storage_never_overlaps {} requests hscope
  obtain rfl := Option.some.inj (hserve.symm.trans rfl)
  exact ⟨hscope, _, hserve, by decide, by decide, hnodup, hseparate⟩

end Lowering.X86
