import FuguexPeripheral.Backend.CompareMatchTimer
import FuguexPeripheral.Backend.Interrupt
import FuguexPeripheral.Runs

/-!
# The SuperH compare match timer

Model of `src/SuperH/compare_match_timer.rs`: two timers with an interrupt each, behind
seven 16-bit registers. Both timers tick at every architectural step, and a step may
enter the handler of a matched timer or leave one at an `RTE`, of which the code has an idea
of its own: `instRte`.

* The pairs of the source are pairs here; `Channel` names their halves.
* What the emulator provides is a parameter, the emulated `Machine`.
* Both memory hooks answer `Pass`, which is left out, and so are the log lines.
-/

namespace FuguexPeripheral.SuperH

open ByteStore Backend

/-- The emulated machine: how the library of the emulator converts addresses, and where it
keeps the stack pointer and the named registers. -/
structure Machine extends AddressConversion where
  stackPointer : Operand
  registerByName : String → Option Operand

/-- The two halves of the peripheral. -/
inductive Channel
  | cmt0
  | cmt1
  deriving DecidableEq, Repr

namespace Channel

def other : Channel → Channel
  | cmt0 => cmt1
  | cmt1 => cmt0

/-- The addresses for which the memory hooks turn to the timer of the channel. -/
def window (i : Channel) (address : Address) : Bool :=
  match i with
  | cmt0 => decide (0xfffec000 ≤ address) && decide (address ≤ 0xfffec006)
  | cmt1 => address == 0xfffec000 ||
      (decide (0xfffec008 ≤ address) && decide (address ≤ 0xfffec00c))

/-- The bit of the channel in CMSTR. -/
def startMask : Channel → UInt32
  | cmt0 => 0x01
  | cmt1 => 0x02

def addrCmcsr : Channel → Address
  | cmt0 => 0xfffec002
  | cmt1 => 0xfffec008

def addrCmcnt : Channel → Address
  | cmt0 => 0xfffec004
  | cmt1 => 0xfffec00a

def addrCmcor : Channel → Address
  | cmt0 => 0xfffec006
  | cmt1 => 0xfffec00c

/-- CMI0 and CMI1 channel vector. -/
def vector : Channel → Address
  | cmt0 => 0x2bc
  | cmt1 => 0x2c0

end Channel

def addrCmstr : Address := 0xfffec000

structure CompareMatchTimer where
  backend : Backend.CompareMatchTimer × Backend.CompareMatchTimer
  interrupt : Interrupt × Interrupt
  handler : InterruptHandler EmptyInterruptHandlerOverrider ×
    InterruptHandler EmptyInterruptHandlerOverrider
  addressRange : Address × Address

/-- What a step leaves behind: the peripheral, the state and the outcome. -/
structure Stepped where
  peripheral : CompareMatchTimer
  state : PCodeState .be
  outcome : HookOutcome

namespace CompareMatchTimer

/-- The timer of a channel with its four registers mapped. -/
def newTimer (i : Channel) : Backend.CompareMatchTimer :=
  (default : Backend.CompareMatchTimer)
    |>.mapFunctionAddrRead addrCmstr i.startMask .isEnabled
    |>.mapFunctionAddrWrite addrCmstr i.startMask .setEnable
    |>.mapFunctionAddrRead i.addrCmcsr 0x40 .isInterruptEnabled
    |>.mapFunctionAddrWrite i.addrCmcsr 0x40 .setInterruptEnabled
    |>.mapFunctionAddrRead i.addrCmcsr 0x80 .isMatched
    |>.mapFunctionAddrWrite i.addrCmcsr 0x80 .clearMatchedFlag
    |>.mapFunctionAddrRead i.addrCmcnt 0xffff .getCurrentTick
    |>.mapFunctionAddrWrite i.addrCmcnt 0xffff .setCurrentTick
    |>.mapFunctionAddrRead i.addrCmcor 0xffff .getCompareAgainst
    |>.mapFunctionAddrWrite i.addrCmcor 0xffff .setCompareAgainst

def new : CompareMatchTimer :=
  { backend := (newTimer .cmt0, newTimer .cmt1)
    interrupt := (.new "CMT0", .new "CMT1")
    handler := (.vector Channel.cmt0.vector, .vector Channel.cmt1.vector)
    addressRange := (0xfffec000, 0xfffec00c) }

/-! ## Channels -/

def timer (p : CompareMatchTimer) : Channel → Backend.CompareMatchTimer
  | .cmt0 => p.backend.1
  | .cmt1 => p.backend.2

def int (p : CompareMatchTimer) : Channel → Interrupt
  | .cmt0 => p.interrupt.1
  | .cmt1 => p.interrupt.2

def setTimer (p : CompareMatchTimer) (i : Channel) (t : Backend.CompareMatchTimer) :
    CompareMatchTimer :=
  match i with
  | .cmt0 => { p with backend := (t, p.backend.2) }
  | .cmt1 => { p with backend := (p.backend.1, t) }

def setInt (p : CompareMatchTimer) (i : Channel) (int : Interrupt) : CompareMatchTimer :=
  match i with
  | .cmt0 => { p with interrupt := (int, p.interrupt.2) }
  | .cmt1 => { p with interrupt := (p.interrupt.1, int) }

def setTriggered (p : CompareMatchTimer) (i : Channel) (val : Bool) : CompareMatchTimer :=
  p.setInt i ((p.int i).setTriggered val)

/-! ## The architectural step -/

/-- Suppose each pc change is one clock cycle. -/
def tick (p : CompareMatchTimer) : CompareMatchTimer :=
  { p with backend := (p.backend.1.tick.2, p.backend.2.tick.2) }

/-- The first early exit. The last test names interrupt 0 again, as in the source. -/
def isIdle (p : CompareMatchTimer) : Bool :=
  !p.backend.1.isMatched && !p.interrupt.1.isTriggered &&
    !p.backend.2.isMatched && !p.interrupt.1.isTriggered

/-- The second early exit: "if the interrupt is not enabled, then continue execution". -/
def isDisabled (p : CompareMatchTimer) : Bool :=
  !p.interrupt.1.isEnabled && !p.interrupt.1.isTriggered &&
    !p.interrupt.2.isEnabled && !p.interrupt.2.isTriggered

/-- `INST_RTE`: four bytes, where the instruction of the processor has two. -/
def instRte : UInt32 := 0b0000_00000_0010_1011

/-- The step lets the emulator go on. -/
def goOn (p : CompareMatchTimer) (state : PCodeState .be) : Except TimerPanic Stepped :=
  .ok ⟨p, state, ⟨.pass, false⟩⟩

/-- Subtraction of 64-bit addresses. -/
def subAddress (a b : Address) : Address :=
  (a + 2 ^ 64 - b) % 2 ^ 64

/-- Save SR and then PC to the stack. -/
def pushContext (emu : Machine) (state : PCodeState .be) (address : Address) :
    Except TimerPanic (PCodeState .be) :=
  let sp := state.getAddress emu.stackPointer
  match emu.registerByName "sr" with
  | none => .error (.noRegister "sr")
  | some srReg => do
    let srVal := state.getOperandU32 srReg
    let sp := subAddress sp 4
    let state := state.writeU32 sp srVal
    let pc ← emu.addressToU32 address
    let sp := subAddress sp 4
    let state := state.writeU32 sp pc
    .ok (state.setValue emu.stackPointer sp)

/-- Jump to the routine of a handler. -/
def enter (emu : Machine) (p : CompareMatchTimer)
    (h : InterruptHandler EmptyInterruptHandlerOverrider) (state : PCodeState .be)
    (address : Address) : Except TimerPanic Stepped :=
  match h.getRoutineAddress state with
  | none => .error .overrideNotSupported
  | some routineAddr => do
    let state ← pushContext emu state address
    .ok ⟨p, state, ⟨.branch 1 routineAddr, false⟩⟩

/-- Channel 0 is served first. -/
def dispatch (emu : Machine) (p : CompareMatchTimer) (state : PCodeState .be)
    (address : Address) : Except TimerPanic Stepped :=
  if p.interrupt.1.isTriggered then p.enter emu p.handler.1 state address
  else if p.interrupt.2.isTriggered then p.enter emu p.handler.2 state address
  else p.goOn state

/-- A channel whose timer has matched and is enabled becomes triggered. -/
def trigger (p : CompareMatchTimer) (i : Channel) : CompareMatchTimer :=
  if (p.timer i).isMatched && (p.timer i).isEnabled then p.setTriggered i true else p

/-- In an interrupt routine: leave it at the word `instRte`. -/
def leave (p : CompareMatchTimer) (i : Channel) (instruction : UInt32) : CompareMatchTimer :=
  if instruction = instRte then p.setTriggered i false else p

def hookArchitecturalStep (emu : Machine) (p : CompareMatchTimer) (state : PCodeState .be)
    (address : Address) : Except TimerPanic Stepped :=
  let p := p.tick
  if p.isIdle then p.goOn state
  else if p.isDisabled then p.goOn state
  else
    match p.handler with
    | (.override _, _) | (_, .override _) => .error .overrideNotSupported
    | _ =>
      let instruction := state.readU32 address
      if p.interrupt.1.isTriggered then (p.leave .cmt0 instruction).goOn state
      else
        -- channel 0 is triggered before the routine of channel 1 is looked at
        let p := p.trigger .cmt0
        if p.interrupt.2.isTriggered then (p.leave .cmt1 instruction).goOn state
        else (p.trigger .cmt1).dispatch emu state address

/-! ## The memory hooks -/

def inRange (p : CompareMatchTimer) (address : Address) : Bool :=
  decide (p.addressRange.1 ≤ address) && decide (address ≤ p.addressRange.2)

def readChannel (order : HashOrder) (p : CompareMatchTimer) (i : Channel) (state : PCodeState .be)
    (address : Address) : Except TimerPanic (PCodeState .be) :=
  if i.window address then do
    let (_, state) ← (p.timer i).handleRegRead order state address
    .ok state
  else .ok state

def hookMemoryRead (order : HashOrder) (emu : Machine) (p : CompareMatchTimer)
    (state : PCodeState .be) (address : Address) : Except TimerPanic (PCodeState .be) := do
  let addrU32 ← emu.addressToU32 address
  if p.inRange address then
    let state ← p.readChannel order .cmt0 state addrU32.toNat
    p.readChannel order .cmt1 state addrU32.toNat
  else .ok state

/-- The value of a write of one, two or four bytes. -/
def writeValue (value : List UInt8) : Except TimerPanic UInt32 :=
  if value.length = 1 ∨ value.length = 2 ∨ value.length = 4 then
    .ok (UInt32.ofNat (decode .be value))
  else .error .unexpectedValueSize

/-- The interrupt follows the interrupt enable bit of its timer. -/
def writeChannel (order : HashOrder) (p : CompareMatchTimer) (i : Channel) (address : Address)
    (writeVal : UInt32) : Except TimerPanic CompareMatchTimer :=
  if i.window address then do
    let t ← (p.timer i).handleRegWrite order address writeVal
    .ok ((p.setTimer i t).setInt i ((p.int i).setEnable t.isInterruptEnabled))
  else .ok p

def hookMemoryWrite (order : HashOrder) (emu : Machine) (p : CompareMatchTimer)
    (address : Address) (value : List UInt8) : Except TimerPanic CompareMatchTimer := do
  let addrU32 ← emu.addressToU32 address
  if p.inRange address then
    let writeVal ← writeValue value
    let p ← p.writeChannel order .cmt0 addrU32.toNat writeVal
    p.writeChannel order .cmt1 addrU32.toNat writeVal
  else .ok p

section InRange

variable {p : CompareMatchTimer} {address : Address}

/-- The addresses of the range have 32 bits. -/
theorem lt_of_inRange (hrange : p.addressRange = new.addressRange)
    (h : p.inRange address = true) : address < 2 ^ 32 := by
  rw [inRange, hrange, Bool.and_eq_true, decide_eq_true_eq, decide_eq_true_eq] at h
  exact Nat.lt_of_le_of_lt h.2 (by decide)

theorem hookMemoryRead_of_inRange (hrange : p.addressRange = new.addressRange)
    (h : p.inRange address = true) (order : HashOrder) (emu : Machine) (state : PCodeState .be) :
    p.hookMemoryRead order emu state address =
      (p.readChannel order .cmt0 state address).bind fun mid =>
        p.readChannel order .cmt1 mid address := by
  have hlt := lt_of_inRange hrange h
  unfold hookMemoryRead
  rw [AddressConversion.addressToU32_of_lt hlt]
  change (if p.inRange address = true then (p.readChannel order .cmt0 state _).bind _ else _) = _
  rw [if_pos h, UInt32.toNat_ofNat_of_lt' hlt]

theorem hookMemoryWrite_of_inRange (hrange : p.addressRange = new.addressRange)
    (h : p.inRange address = true) (order : HashOrder) (emu : Machine) (value : List UInt8) :
    p.hookMemoryWrite order emu address value =
      (writeValue value).bind fun writeVal =>
        (p.writeChannel order .cmt0 address writeVal).bind fun q =>
          q.writeChannel order .cmt1 address writeVal := by
  have hlt := lt_of_inRange hrange h
  unfold hookMemoryWrite
  rw [AddressConversion.addressToU32_of_lt hlt]
  change (if p.inRange address = true then (writeValue value).bind _ else _) = _
  rw [if_pos h, UInt32.toNat_ofNat_of_lt' hlt]
  rfl

end InRange

/-! ## Runs -/

/-- The peripheral after a call that does not panic. -/
def apply (order : HashOrder) (emu : Machine) (p : CompareMatchTimer) :
    HookEvent .be → Except TimerPanic CompareMatchTimer
  | .step state address => do .ok (← p.hookArchitecturalStep emu state address).peripheral
  | .read state address _ => do
    let _ ← p.hookMemoryRead order emu state address
    .ok p
  | .write _ address _ value => p.hookMemoryWrite order emu address value

/-- A run from `new`. -/
abbrev Reaches (order : HashOrder) (emu : Machine)
    (tr : List (CompareMatchTimer × HookEvent .be)) (p : CompareMatchTimer) : Prop :=
  Runs.Run (fun p e p' => p.apply order emu e = .ok p') new tr p

/-! ## A plain machine -/

/-- A machine with its stack pointer and its status register in the first eight bytes of
the register space. -/
def plainMachine : Machine :=
  { AddressConversion.truncating with
    stackPointer := .register "r15" 0 4
    registerByName := fun _ => some (.register "sr" 4 4) }

/-- All bytes are zero, but for the last one of the word `instRte` at address 0. -/
def plainState : PCodeState .be :=
  ⟨fun space a => if space = .ram ∧ a = 3 then 0x2b else 0, 0⟩

/-- The firmware writes a register. -/
def poke (address : Address) (value : List UInt8) : HookEvent .be :=
  .write plainState address value.length value

/-- The run of the machine on some events. -/
def sample (es : List (HookEvent .be)) :
    List (CompareMatchTimer × HookEvent .be) × CompareMatchTimer :=
  Runs.tracePartial (apply .insertion plainMachine) new es

theorem reaches_sample (es : List (HookEvent .be)) :
    Reaches .insertion plainMachine (sample es).1 (sample es).2 :=
  Runs.run_tracePartial _ _ _

end CompareMatchTimer

end FuguexPeripheral.SuperH
