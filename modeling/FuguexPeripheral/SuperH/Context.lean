import FuguexPeripheral.SuperH.HalfWords

/-!
# Entering and leaving a handler

A step that enters a handler saves the status register and the interrupted address on the
stack. It reads the vector first, so a stack that overlaps the vector table does no harm.

A handler is left at an `RTE`, which is one 16-bit instruction. The step looks for it in
four bytes: the instruction word is the high half of those, and an `RTE` there is missed.

Results:
1. `hookArchitecturalStep_outcome`: a step goes on in an unchanged state, or saves the
   context and branches.
2. `pushContext_spec`, `branch_saves_context`: what is saved, and that nothing else changes.
3. `leaves_at_rte_iff`: when a step in the handler of channel 0 treats an instruction as it
   should.
-/

namespace FuguexPeripheral.SuperH

open ByteStore Backend Fallible

namespace ContextLemmas

variable {O : Order} {s : PCodeState O}

/-- A register is not in the memory. -/
theorem setValue_register (s : PCodeState O) {o : Operand} (ho : o.isRegister = true) (v : Nat) :
    (s.setValue o v).memory = s.memory ∧
      (s.setValue o v).programCounter = s.programCounter := by
  cases o with
  | register name offset size =>
    refine ⟨?_, rfl⟩
    simp [PCodeState.memory, PCodeState.setValue, Operand.location, PCodeState.setBytes]
  | address | constant | «variable» => cases ho

theorem subAddress_eq {a b : Nat} (hle : b ≤ a) (hlt : a < 2 ^ 64) :
    CompareMatchTimer.subAddress a b = a - b := by
  change (a + 2 ^ 64 - b) % 2 ^ 64 = a - b
  omega

end ContextLemmas

open ContextLemmas WordLemmas

/-- `state'` is `state` with the context of the address pushed: SR and then the address, as
the emulator converts it. Below `2 ^ 32` that is the address itself. -/
structure ContextSaved (emu : Machine) (state state' : PCodeState .be)
    (address : Address) : Prop where
  stackPointer :
    state'.getAddress emu.stackPointer = state.getAddress emu.stackPointer - 8
  statusRegister : ∃ srReg, emu.registerByName "sr" = some srReg ∧
    state'.readU32 (state.getAddress emu.stackPointer - 4) = state.getOperandU32 srReg
  interrupted : emu.toU32 address =
    some (state'.readU32 (state.getAddress emu.stackPointer - 8))
  interrupted_lt : address < 2 ^ 32 →
    (state'.readU32 (state.getAddress emu.stackPointer - 8)).toNat = address
  memory : ∀ x, x < state.getAddress emu.stackPointer - 8 ∨
    state.getAddress emu.stackPointer ≤ x → state'.memory x = state.memory x
  registers : ∀ o : Operand, o.inRam = false → emu.stackPointer.NoOverlap o →
    state'.operandBytes o = state.operandBytes o
  programCounter : state'.programCounter = state.programCounter

namespace CompareMatchTimer

namespace ContextLemmas

variable {emu : Machine} {state state' : PCodeState .be} {address : Address}

/-- What a push that returns has done. -/
theorem pushContext_eq_ok {sp : Nat} (hgen : state.getAddress emu.stackPointer = sp)
    (hsp : 8 ≤ sp) (hlt : sp < 2 ^ 64) (h : pushContext emu state address = .ok state') :
    ∃ srReg pc, emu.registerByName "sr" = some srReg ∧ emu.addressToU32 address = .ok pc ∧
      state' = ((state.writeU32 (sp - 4) (state.getOperandU32 srReg)).writeU32 (sp - 8)
        pc).setValue emu.stackPointer (sp - 8) := by
  have hsub : subAddress sp 4 = sp - 4 := subAddress_eq (Nat.le_trans (by decide) hsp) hlt
  have hsub' : subAddress (sp - 4) 4 = sp - 8 :=
    subAddress_eq (Nat.le_sub_of_add_le hsp) (Nat.lt_of_le_of_lt (Nat.sub_le _ _) hlt)
  unfold pushContext at h
  rw [hgen] at h
  cases hsr : emu.registerByName "sr" with
  | none =>
    rw [hsr] at h
    cases h
  | some srReg =>
    rw [hsr] at h
    obtain ⟨pc, hpc, h⟩ := exists_of_bind_eq_ok h
    cases h
    exact ⟨srReg, pc, rfl, hpc, by rw [hsub, hsub']⟩

/-- Two words pushed to a stack are both there, and nothing else has changed. -/
theorem push_two (state : PCodeState .be) (low : Address) (v w : UInt32) :
    ((state.writeU32 (low + 4) v).writeU32 low w).readU32 (low + 4) = v ∧
      ((state.writeU32 (low + 4) v).writeU32 low w).readU32 low = w ∧
      state.ChangedOnly ((state.writeU32 (low + 4) v).writeU32 low w) low 8 := by
  have hfirst := PCodeState.changedOnly_write state (low + 4) 4 v.toNat
  have hsecond := PCodeState.changedOnly_write (state.writeU32 (low + 4) v) low 4 w.toNat
  refine ⟨?_, PCodeState.readU32_writeU32 _ _ _, ?_, ?_, rfl⟩
  · rw [PCodeState.readU32_writeU32_of_disjoint _ _ (.inr (Nat.le_refl _)),
      PCodeState.readU32_writeU32]
  · intro x hx
    refine (hsecond.memory x ?_).trans (hfirst.memory x ?_)
    · exact hx.imp_right (Nat.le_trans (Nat.add_le_add_left (by decide) low))
    · exact hx.imp_left fun h => Nat.lt_of_lt_of_le h (Nat.le_add_right low 4)
  · intro space hspace
    exact (hsecond.spaces space hspace).trans (hfirst.spaces space hspace)

end ContextLemmas

open ContextLemmas

/-- A push saves the context, and nothing else. -/
theorem pushContext_spec {emu : Machine} {state state' : PCodeState .be}
    {address : Address} (hreg : emu.stackPointer.isRegister = true)
    (hsize : emu.stackPointer.size ≤ 8) (hsp : 8 ≤ state.getAddress emu.stackPointer)
    (h : pushContext emu state address = .ok state') :
    ContextSaved emu state state' address := by
  have hlt : state.getAddress emu.stackPointer < 2 ^ (8 * emu.stackPointer.size) :=
    PCodeState.value_lt _ _
  have hlt64 : state.getAddress emu.stackPointer < 2 ^ 64 :=
    Nat.lt_of_lt_of_le hlt (Nat.pow_le_pow_right (by decide) (Nat.mul_le_mul_left 8 hsize))
  obtain ⟨srReg, pc, hsr, hpc, hstate⟩ := pushContext_eq_ok rfl hsp hlt64 h
  obtain ⟨hstatus, hpushed, hchanged⟩ := push_two state
    (state.getAddress emu.stackPointer - 8) (state.getOperandU32 srReg) pc
  have hfour : state.getAddress emu.stackPointer - 8 + 4 =
      state.getAddress emu.stackPointer - 4 := by
    obtain ⟨low, hlow⟩ := Nat.exists_eq_add_of_le' hsp
    rw [hlow]
    rfl
  rw [hfour] at hstatus hpushed hchanged
  revert hstate hstatus hpushed hchanged
  generalize (state.writeU32 _ _).writeU32 _ pc = mid
  intro hstate hstatus hpushed hchanged
  obtain ⟨hmem, hcounter⟩ := setValue_register mid hreg
    (state.getAddress emu.stackPointer - 8)
  rw [← hstate] at hmem hcounter
  have hread : ∀ a, state'.readU32 a = mid.readU32 a := fun a => by
    rw [PCodeState.readU32, PCodeState.readMemory, hmem]
    rfl
  constructor
  case stackPointer =>
    rw [hstate]
    exact (PCodeState.value_setValue_same (Operand.isConstant_of_isRegister hreg)).trans
      (Nat.mod_eq_of_lt (Nat.lt_of_le_of_lt (Nat.sub_le _ _) hlt))
  case statusRegister => exact ⟨srReg, hsr, (hread _).trans hstatus⟩
  case interrupted =>
    rw [hread, hpushed]
    exact AddressConversion.addressToU32_eq_ok_iff.mp hpc
  case interrupted_lt =>
    intro hlt
    rw [hread, hpushed]
    exact AddressConversion.toNat_addressToU32 hlt hpc
  case memory =>
    intro x hx
    rw [hmem]
    exact hchanged.memory x (hx.imp_right fun h => by rwa [Nat.sub_add_cancel hsp])
  case registers =>
    intro o hram hover
    rw [hstate, PCodeState.operandBytes_setValue_of_noOverlap hover]
    exact PCodeState.operandBytes_congr_of_not_inRam hram hchanged.spaces
  case programCounter => exact hcounter.trans hchanged.programCounter

/-! ## Entering a handler -/

/-- The handler that a step enters: of channel 0 if that is triggered, else of channel 1. -/
def entered (p : CompareMatchTimer) : InterruptHandler EmptyInterruptHandlerOverrider :=
  if (p.int .cmt0).isTriggered then p.handler.1 else p.handler.2

namespace ContextLemmas

variable {emu : Machine} {p : CompareMatchTimer} {state : PCodeState .be}
  {address : Address} {r : Stepped}

/-- A step passes in an unchanged state, or pushes the context and branches. -/
def Outcome (emu : Machine) (h₀ : InterruptHandler EmptyInterruptHandlerOverrider ×
    InterruptHandler EmptyInterruptHandlerOverrider) (state : PCodeState .be) (address : Address)
    (r : Stepped) : Prop :=
  (r.state = state ∧ r.outcome = ⟨.pass, false⟩) ∨
    r.peripheral.handler = h₀ ∧ ∃ target,
      r.peripheral.entered.getRoutineAddress state = some target ∧
        r.outcome = ⟨.branch 1 target, false⟩ ∧ pushContext emu state address = .ok r.state

theorem outcome_goOn (emu : Machine) (address : Address) (h : p.goOn state = .ok r) :
    Outcome emu p.handler state address r := by
  cases h
  exact .inl ⟨rfl, rfl⟩

theorem outcome_enter {handler : InterruptHandler EmptyInterruptHandlerOverrider}
    (hentered : p.entered = handler) (h : p.enter emu handler state address = .ok r) :
    Outcome emu p.handler state address r := by
  unfold enter at h
  split at h
  next => cases h
  next target htarget =>
    obtain ⟨state', hpush, h⟩ := exists_of_bind_eq_ok h
    cases h
    exact .inr ⟨rfl, target, hentered ▸ htarget, rfl, hpush⟩

theorem outcome_dispatch (h : p.dispatch emu state address = .ok r) :
    Outcome emu p.handler state address r := by
  unfold dispatch at h
  split at h
  next h₀ => exact outcome_enter (if_pos h₀) h
  next h₀ =>
    split at h
    next => exact outcome_enter (if_neg h₀) h
    next => exact outcome_goOn emu address h

theorem handler_setTriggered (p : CompareMatchTimer) (i : Channel) (val : Bool) :
    (p.setTriggered i val).handler = p.handler := by
  cases i <;> rfl

theorem handler_trigger (p : CompareMatchTimer) (i : Channel) :
    (p.trigger i).handler = p.handler := by
  unfold trigger
  split
  · exact handler_setTriggered p i true
  · rfl

theorem handler_leave (p : CompareMatchTimer) (i : Channel) (instruction : UInt32) :
    (p.leave i instruction).handler = p.handler := by
  unfold leave
  split
  · exact handler_setTriggered p i false
  · rfl

end ContextLemmas

open ContextLemmas

theorem hookArchitecturalStep_outcome {emu : Machine} {p : CompareMatchTimer}
    {state : PCodeState .be} {address : Address} {r : Stepped}
    (h : p.hookArchitecturalStep emu state address = .ok r) :
    Outcome emu p.handler state address r := by
  change Outcome emu p.tick.handler state address r
  unfold hookArchitecturalStep at h
  dsimp only at h
  split at h
  next => exact outcome_goOn emu address h
  next =>
    split at h
    next => exact outcome_goOn emu address h
    next =>
      split at h
      next => cases h
      next => cases h
      next =>
        split at h
        next =>
          have hout := outcome_goOn emu address h
          rwa [handler_leave] at hout
        next =>
          split at h
          next =>
            have hout := outcome_goOn emu address h
            rwa [handler_leave, handler_trigger] at hout
          next =>
            have hout := outcome_dispatch h
            rwa [handler_trigger, handler_trigger] at hout

/-- A step that branches jumps to the address that the vector of its channel held before the
step, with the context saved and nothing else changed. A step that passes changes nothing. -/
theorem branch_saves_context {emu : Machine} {p : CompareMatchTimer}
    {state : PCodeState .be} {address : Address} {r : Stepped} {v₀ v₁ : Address}
    (hreg : emu.stackPointer.isRegister = true) (hsize : emu.stackPointer.size ≤ 8)
    (hsp : 8 ≤ state.getAddress emu.stackPointer) (hh : p.handler = (.vector v₀, .vector v₁))
    (h : p.hookArchitecturalStep emu state address = .ok r) :
    (∀ count target, r.outcome.action = .branch count target →
      target = (state.readU32 (if (r.peripheral.int .cmt0).isTriggered then v₀ else v₁)).toNat ∧
        ContextSaved emu state r.state address) ∧
      (r.outcome.action = .pass → r.state = state) := by
  rcases hookArchitecturalStep_outcome h with
    ⟨hstate, hout⟩ | ⟨hkeep, target, hroutine, hout, hpush⟩
  · refine ⟨fun count target haction => ?_, fun _ => hstate⟩
    rw [hout] at haction
    cases haction
  · refine ⟨fun count target' haction => ?_, fun haction => ?_⟩
    · rw [hout] at haction
      cases haction
      refine ⟨?_, pushContext_spec hreg hsize hsp hpush⟩
      rw [entered, hkeep, hh] at hroutine
      cases ht : (r.peripheral.int .cmt0).isTriggered with
      | true =>
        rw [ht] at hroutine
        exact (Option.some.inj hroutine).symm
      | false =>
        rw [ht] at hroutine
        exact (Option.some.inj hroutine).symm
    · rw [hout] at haction
      cases haction

/-- A state whose timers are due: channel 0 is started with a compare value of 1. -/
def due : CompareMatchTimer :=
  (sample [poke 0xfffec006 [0, 1], poke 0xfffec002 [0, 0x40], poke addrCmstr [0, 1]]).2

/-- A machine with its stack at 0x2c0, over the vector of channel 0. -/
def overlapping : PCodeState .be :=
  plainState.setValue plainMachine.stackPointer 0x2c0

theorem branch_saves_context_due : ∃ r count target,
    due.hookArchitecturalStep plainMachine overlapping 0x100 = .ok r ∧
      r.outcome.action = .branch count target ∧
      target = (overlapping.readU32
        (if (r.peripheral.int .cmt0).isTriggered then 0x2bc else 0x2c0)).toNat ∧
      ContextSaved plainMachine overlapping r.state 0x100 := by
  have hstep : ∃ r count target,
      due.hookArchitecturalStep plainMachine overlapping 0x100 = .ok r ∧
        r.outcome.action = .branch count target := ⟨_, _, _, rfl, rfl⟩
  obtain ⟨r, count, target, hr, haction⟩ := hstep
  have hsaved := branch_saves_context (by decide) (by decide) (by decide) rfl hr
  exact ⟨r, count, target, hr, haction, hsaved.1 count target haction⟩

/-! ## Leaving a handler -/

namespace ContextLemmas

variable {emu : Machine} {p : CompareMatchTimer} {state : PCodeState .be}
  {address : Address}

/-- In the handler of channel 0, a step does nothing but look for the `RTE`. -/
theorem step_of_triggered (emu : Machine) (state : PCodeState .be) (address : Address)
    (hh : p.handler = new.handler) (ht : (p.int .cmt0).isTriggered = true) :
    p.hookArchitecturalStep emu state address =
      .ok ⟨p.tick.leave .cmt0 (state.readU32 address), state, ⟨.pass, false⟩⟩ := by
  have ht' : p.tick.interrupt.1.isTriggered = true := ht
  have hidle : p.tick.isIdle = false := by simp [isIdle, ht']
  have hdisabled : p.tick.isDisabled = false := by simp [isDisabled, ht']
  have hhandler : p.tick.handler = (.vector Channel.cmt0.vector, .vector Channel.cmt1.vector) :=
    hh
  unfold hookArchitecturalStep
  dsimp only
  rw [hidle, hdisabled, hhandler, if_neg Bool.false_ne_true, if_neg Bool.false_ne_true]
  dsimp only
  rw [if_pos ht']
  rfl

theorem isTriggered_leave (p : CompareMatchTimer) (instruction : UInt32)
    (ht : (p.int .cmt0).isTriggered = true) :
    ((p.leave .cmt0 instruction).int .cmt0).isTriggered = decide (instruction ≠ instRte) := by
  unfold leave
  split
  next heq =>
    rw [decide_eq_false (not_not.mpr heq)]
    rfl
  next hne =>
    rw [decide_eq_true hne]
    exact ht

/-- Four bytes that are the literal `INST_RTE` do not begin with the instruction. -/
theorem halfWord_ne_of_readU32_eq (h : state.readU32 address = instRte) :
    halfWord state address ≠ 0x2b := by
  rw [(readU32_halves state address).1, h]
  decide

end ContextLemmas

/-- In the handler of channel 0, a step clears the triggered flag at an `RTE` and keeps it
elsewhere, exactly where the instruction is no `RTE` and the four bytes are not the literal. -/
theorem leaves_at_rte_iff {order : HashOrder} {emu : Machine}
    {tr : List (CompareMatchTimer × HookEvent .be)} {p : CompareMatchTimer}
    (h : Reaches order emu tr p) (ht : (p.int .cmt0).isTriggered = true)
    (state : PCodeState .be) (address : Address) :
    ((halfWord state address = 0x2b → ∃ r, p.hookArchitecturalStep emu state address = .ok r ∧
        (r.peripheral.int .cmt0).isTriggered = false) ∧
      (halfWord state address ≠ 0x2b → ∃ r, p.hookArchitecturalStep emu state address = .ok r ∧
        (r.peripheral.int .cmt0).isTriggered = true)) ↔
      halfWord state address ≠ 0x2b ∧ state.readU32 address ≠ instRte := by
  have hstep := step_of_triggered emu state address (Reaches.handler h) ht
  have hflag := isTriggered_leave p.tick (state.readU32 address) ht
  constructor
  · rintro ⟨hclear, hkeep⟩
    have hrte : halfWord state address ≠ 0x2b := by
      intro heq
      obtain ⟨r, hr, hfalse⟩ := hclear heq
      rw [hstep] at hr
      cases hr
      rw [hflag, decide_eq_false_iff_not, not_not] at hfalse
      exact halfWord_ne_of_readU32_eq hfalse heq
    obtain ⟨r, hr, htrue⟩ := hkeep hrte
    rw [hstep] at hr
    cases hr
    rw [hflag, decide_eq_true_eq] at htrue
    exact ⟨hrte, htrue⟩
  · rintro ⟨hrte, hword⟩
    refine ⟨fun heq => absurd heq hrte, fun _ => ⟨_, hstep, ?_⟩⟩
    exact hflag.trans (decide_eq_true hword)

/-- The run of channel 0 into its handler. -/
def entering : List (HookEvent .be) :=
  [poke 0xfffec006 [0, 1], poke 0xfffec002 [0, 0x40], poke addrCmstr [0, 1],
    .step plainState 0x100]

theorem leaves_at_rte_iff_entering : ∃ r,
    (sample entering).2.hookArchitecturalStep plainMachine plainState 0x100 = .ok r ∧
      (r.peripheral.int .cmt0).isTriggered = true :=
  ((leaves_at_rte_iff (reaches_sample entering) rfl plainState 0x100).mpr
    ⟨by decide, by decide⟩).2 (by decide)

/-- Memory with an `RTE` at 0x200 and zeros after it. -/
def rteState : PCodeState .be :=
  ⟨fun space a => if space = .ram ∧ a = 0x201 then 0x2b else 0, 0⟩

/-- The flag stays set at an `RTE`. -/
theorem not_left_at_rte : ¬ ∀ (order : HashOrder) (emu : Machine)
    (tr : List (CompareMatchTimer × HookEvent .be)) (p : CompareMatchTimer)
    (state : PCodeState .be) (address : Address), Reaches order emu tr p →
      (p.int .cmt0).isTriggered = true →
        (halfWord state address = 0x2b →
          ∃ r, p.hookArchitecturalStep emu state address = .ok r ∧
            (r.peripheral.int .cmt0).isTriggered = false) ∧
        (halfWord state address ≠ 0x2b →
          ∃ r, p.hookArchitecturalStep emu state address = .ok r ∧
            (r.peripheral.int .cmt0).isTriggered = true) := by
  intro h
  obtain ⟨r, hr, hclear⟩ := (h .insertion plainMachine _ _ rteState 0x200
    (reaches_sample entering) rfl).1 (by decide)
  cases hr
  exact absurd hclear (by decide)

end CompareMatchTimer

end FuguexPeripheral.SuperH
