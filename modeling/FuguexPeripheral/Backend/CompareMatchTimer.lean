import FuguexPeripheral.Fallible
import FuguexPeripheral.Pcode

/-!
# The compare match timer backend

Model of `src/backend/compare_match_timer.rs`. The timer counts up or down in a `u128`
and matches when the count equals `compare_against`. A peripheral maps the bits of its
registers to functions of the timer: `reg_read_map` and `reg_write_map` give, for the
address of a register, the function behind each mask.

* A panic is an `Except.error`; the arithmetic of the count wraps, as in a release
  build.
* The outer maps are only looked up, so they are partial functions. The inner maps are
  iterated, in an order that the language leaves open: `HashOrder` is that order.
* The functions under the masks are called through `FunName`, as in the source.
* The peripherals convert addresses with the library of the emulator, which is a parameter:
  `AddressConversion`.
-/

namespace FuguexPeripheral.Backend

open ByteStore

inductive FunName
  | isEnabled
  | isInterruptEnabled
  | isMatched
  | getCompareAgainst
  | getCurrentTick
  | setEnable
  | setInterruptEnabled
  | setCompareAgainst
  | clearMatchedFlag
  | setCurrentTick
  | setCountForward
  | getCountForwardFlag
  | getFlagUnderflow
  | getFlagOverflow
  | getFlagOverunderflow
  | setFlagOverunderflow
  | setMatchToggle
  | getMatchToggle
  deriving DecidableEq, Repr

/-- The panics of the timer and of the peripherals built on it, with the data that
their texts print. -/
inductive TimerPanic
  /-- "Addr: 0x{:x} is not bind to any function" -/
  | notBound (addr : Address)
  /-- `unwrap` of the functions of an address without any. -/
  | notMapped (addr : Address)
  /-- "{:?} mapping not supported in compare_match_timer" -/
  | notSupported (funName : FunName)
  /-- "mask error, mask 0x{:X}" -/
  | maskError (mask : UInt32)
  /-- `unwrap` of a `u128` that is no `u32`. -/
  | tickTooLarge (val : BitVec 128)
  /-- `unwrap` of an address that is no `u32`. -/
  | addressTooLarge (address : Address)
  /-- "Unexpected value size" -/
  | unexpectedValueSize
  /-- "Interrupt Handler Rust Override not supported in this periphrial yet" -/
  | overrideNotSupported
  /-- `unwrap` of a register that the architecture does not have. -/
  | noRegister (name : String)
  deriving DecidableEq, Repr

/-- The functions behind the masks of one register. -/
abbrev MaskMap := List (UInt32 × FunName)

/-- `insert` of a hash map: an entry under the same key is replaced. -/
def MaskMap.insert (m : MaskMap) (mask : UInt32) (funName : FunName) : MaskMap :=
  m.filter (fun entry => entry.1 != mask) ++ [(mask, funName)]

/-- The order in which the entries of a register's map are visited. -/
structure HashOrder where
  arrange : Address → MaskMap → MaskMap
  perm : ∀ addr m, (arrange addr m).Perm m

/-- Every map is visited in the order in which it was filled. -/
def HashOrder.insertion : HashOrder :=
  ⟨fun _ m => m, fun _ m => .refl m⟩

/-- Every map is visited against the order in which it was filled. -/
def HashOrder.reversed : HashOrder :=
  ⟨fun _ m => m.reverse, fun _ m => m.reverse_perm⟩

structure CompareMatchTimer where
  counterStart : Bool
  currentTick : BitVec 128
  compareAgainst : BitVec 128
  countForward : Bool
  flagOverflow : Bool
  flagUnderflow : Bool
  matched : Bool
  resetOnMatch : Bool
  interruptEnabled : Bool
  matchToggle : Bool
  regReadMap : Address → Option MaskMap
  regWriteMap : Address → Option MaskMap

namespace CompareMatchTimer

instance : Inhabited CompareMatchTimer where
  default :=
    { counterStart := false
      currentTick := 0
      compareAgainst := 0
      countForward := true
      flagOverflow := false
      flagUnderflow := false
      matched := false
      resetOnMatch := true
      interruptEnabled := false
      matchToggle := false
      regReadMap := fun _ => none
      regWriteMap := fun _ => none }

/-! ## Fields -/

def isEnabled (t : CompareMatchTimer) : Bool :=
  t.counterStart

def setEnable (t : CompareMatchTimer) (val : Bool) : CompareMatchTimer :=
  { t with counterStart := val }

def isInterruptEnabled (t : CompareMatchTimer) : Bool :=
  t.interruptEnabled

def setInterruptEnabled (t : CompareMatchTimer) (val : Bool) : CompareMatchTimer :=
  { t with interruptEnabled := val }

def configResetOnMatch (t : CompareMatchTimer) (val : Bool) : CompareMatchTimer :=
  { t with resetOnMatch := val }

def setCompareAgainst (t : CompareMatchTimer) (val : BitVec 128) : CompareMatchTimer :=
  { t with compareAgainst := val }

def getCompareAgainst (t : CompareMatchTimer) : BitVec 128 :=
  t.compareAgainst

def setCountForward (t : CompareMatchTimer) (val : Bool) : CompareMatchTimer :=
  { t with countForward := val }

def getCountForwardFlag (t : CompareMatchTimer) : Bool :=
  t.countForward

def getFlagUnderflow (t : CompareMatchTimer) : Bool :=
  t.flagUnderflow

def getFlagOverflow (t : CompareMatchTimer) : Bool :=
  t.flagOverflow

def setFlagOverflow (t : CompareMatchTimer) (val : Bool) : CompareMatchTimer :=
  { t with flagOverflow := val }

def setFlagUnderflow (t : CompareMatchTimer) (val : Bool) : CompareMatchTimer :=
  { t with flagUnderflow := val }

def setFlagUnderoverflow (t : CompareMatchTimer) (val : Bool) : CompareMatchTimer :=
  { t with flagUnderflow := val, flagOverflow := val }

/-- Both operands are the overflow flag, as in the source. -/
def getFlagOverunderflow (t : CompareMatchTimer) : Bool :=
  t.flagOverflow || t.flagOverflow

def setMatchToggle (t : CompareMatchTimer) (val : Bool) : CompareMatchTimer :=
  { t with matchToggle := val }

def getMatchToggle (t : CompareMatchTimer) : Bool :=
  t.matchToggle

def getCurrentTick (t : CompareMatchTimer) : BitVec 128 :=
  t.currentTick

def setCurrentTick (t : CompareMatchTimer) (val : BitVec 128) : CompareMatchTimer :=
  { t with currentTick := val }

def isMatched (t : CompareMatchTimer) : Bool :=
  if t.isEnabled then t.matched else false

def clearMatchedFlag (t : CompareMatchTimer) : CompareMatchTimer :=
  { t with matched := false }

/-! ## Ticks -/

/-- The count after one more tick. -/
def nextTick (t : CompareMatchTimer) : BitVec 128 :=
  if t.countForward then t.currentTick + 1 else t.currentTick - 1

/-- True if matched in enabled condition. -/
def tick (t : CompareMatchTimer) : Bool × CompareMatchTimer :=
  if t.counterStart = false then (false, t)
  else
    let t := { t with currentTick := t.nextTick }
    if t.currentTick = t.compareAgainst then
      (true,
        { t with
          matched := true
          matchToggle := !t.matchToggle
          currentTick := if t.resetOnMatch then 0 else t.currentTick })
    else (false, t)

/-! ## Registers -/

def mapFunctionAddrRead (t : CompareMatchTimer) (addr : Address) (mask : UInt32)
    (funName : FunName) : CompareMatchTimer :=
  let v := (t.regReadMap addr).getD []
  { t with regReadMap := Function.update t.regReadMap addr (some (v.insert mask funName)) }

def mapFunctionAddrWrite (t : CompareMatchTimer) (addr : Address) (mask : UInt32)
    (funName : FunName) : CompareMatchTimer :=
  let v := (t.regWriteMap addr).getD []
  { t with regWriteMap := Function.update t.regWriteMap addr (some (v.insert mask funName)) }

/-- Set or clear the masked bits. -/
def setBitsBool (val mask : UInt32) (set : Bool) : UInt32 :=
  if set then val ||| mask else val &&& ~~~ mask

/-- The loop of `get_mask_start_bit` over the remaining bits. -/
def scanMask (mask : UInt32) : List Nat → Int × Int → Int × Int
  | [], found => found
  | i :: bits, (start, last) =>
    let isSet := mask &&& (1 <<< UInt32.ofNat i) != 0
    let start := if start = -1 ∧ isSet = true then (i : Int) else start
    if start ≠ -1 ∧ isSet = false then
      (start, if i = 31 then 31 else (i : Int) - 1)
    else scanMask mask bits (start, last)

/-- The first and the last bit of the lowest run of ones. A run that is bit 0 alone, or
that reaches the top bit, is not found. -/
def getMaskStartBit (mask : UInt32) : Option (Nat × Nat) :=
  let (start, last) := scanMask mask (List.range 32) (-1, -1)
  if 0 ≤ start ∧ 0 < last then some (start.toNat, last.toNat) else none

/-- Put `setVal`, shifted to the start of the mask, under the mask. -/
def setBitsVal (val mask setVal : UInt32) : Except TimerPanic UInt32 :=
  match getMaskStartBit mask with
  | some (s, _) => .ok ((val &&& ~~~ mask) ||| ((setVal <<< UInt32.ofNat s) &&& mask))
  | none => .error (.maskError mask)

/-- `try_into().unwrap()` of a count. -/
def tickToU32 (val : BitVec 128) : Except TimerPanic UInt32 :=
  if val.toNat < 2 ^ 32 then .ok (UInt32.ofNat val.toNat) else .error (.tickTooLarge val)

/-- The value of a register with the bits of one mask put in. -/
def readBits (t : CompareMatchTimer) (val : UInt32) (entry : UInt32 × FunName) :
    Except TimerPanic UInt32 :=
  let mask := entry.1
  match entry.2 with
  | .isEnabled => .ok (setBitsBool val mask t.isEnabled)
  | .isInterruptEnabled => .ok (setBitsBool val mask t.isInterruptEnabled)
  | .isMatched => .ok (setBitsBool val mask t.isMatched)
  | .getCompareAgainst => do setBitsVal val mask (← tickToU32 t.getCompareAgainst)
  | .getCurrentTick => do setBitsVal val mask (← tickToU32 t.getCurrentTick)
  | .getCountForwardFlag => .ok (setBitsBool val mask t.getCountForwardFlag)
  | .getFlagOverflow => .ok (setBitsBool val mask t.getFlagOverflow)
  | .getFlagUnderflow => .ok (setBitsBool val mask t.getFlagUnderflow)
  | .getFlagOverunderflow => .ok (setBitsBool val mask t.getFlagOverunderflow)
  | .getMatchToggle => .ok (setBitsBool val mask t.getMatchToggle)
  | funName => .error (.notSupported funName)

/-- The firmware reads the register at `addr`: its bits are put into the word there. -/
def handleRegRead {O : Order} (order : HashOrder) (t : CompareMatchTimer) (state : PCodeState O)
    (addr : Address) : Except TimerPanic (UInt32 × PCodeState O) :=
  match t.regReadMap addr with
  | none => .error (.notBound addr)
  | some maskFunMap => do
    let val ← (order.arrange addr maskFunMap).foldlM t.readBits (state.readU32 addr)
    .ok (val, state.writeU32 addr val)

/-- `write_val as u128`. -/
def toTick (writeVal : UInt32) : BitVec 128 :=
  BitVec.ofNat 128 writeVal.toNat

/-- The timer after a write of `writeVal` to a register, as far as one mask goes. The
flags take whether a masked bit is written, the counts take the whole value. -/
def writeBits (writeVal : UInt32) (t : CompareMatchTimer) (entry : UInt32 × FunName) :
    Except TimerPanic CompareMatchTimer :=
  if writeVal &&& entry.1 ≠ 0 then
    match entry.2 with
    | .setEnable => .ok (t.setEnable true)
    | .setInterruptEnabled => .ok (t.setInterruptEnabled true)
    | .setCompareAgainst => .ok (t.setCompareAgainst (toTick writeVal))
    -- the firmware cannot set the flag
    | .clearMatchedFlag => .ok t
    | .setCurrentTick => .ok (t.setCurrentTick (toTick writeVal))
    | .setCountForward => .ok (t.setCountForward true)
    | .setMatchToggle => .ok (t.setMatchToggle true)
    | funName => .error (.notSupported funName)
  else
    match entry.2 with
    | .setEnable => .ok (t.setEnable false)
    | .setInterruptEnabled => .ok (t.setInterruptEnabled false)
    | .setCompareAgainst => .ok (t.setCompareAgainst 0)
    | .setCurrentTick => .ok (t.setCurrentTick 0)
    | .clearMatchedFlag => .ok t.clearMatchedFlag
    | .setCountForward => .ok (t.setCountForward false)
    | .setMatchToggle => .ok (t.setMatchToggle false)
    | .setFlagOverunderflow => .ok (t.setFlagUnderoverflow false)
    | funName => .error (.notSupported funName)

/-- The firmware writes `writeVal` to the register at `addr`. -/
def handleRegWrite (order : HashOrder) (t : CompareMatchTimer) (addr : Address)
    (writeVal : UInt32) : Except TimerPanic CompareMatchTimer :=
  match t.regWriteMap addr with
  | none => .error (.notMapped addr)
  | some maskFunMap => (order.arrange addr maskFunMap).foldlM (writeBits writeVal) t

/-! ## What a write does under one mask -/

/-- A count takes the whole value, or zero when no masked bit is written. -/
def writtenCount (writeVal mask : UInt32) : BitVec 128 :=
  if writeVal &&& mask ≠ 0 then toTick writeVal else 0

theorem writeBits_setEnable (v mask : UInt32) (t : CompareMatchTimer) :
    writeBits v t (mask, .setEnable) = .ok (t.setEnable (decide (v &&& mask ≠ 0))) := by
  by_cases h : v &&& mask = 0 <;> simp [writeBits, h]

theorem writeBits_setInterruptEnabled (v mask : UInt32) (t : CompareMatchTimer) :
    writeBits v t (mask, .setInterruptEnabled) =
      .ok (t.setInterruptEnabled (decide (v &&& mask ≠ 0))) := by
  by_cases h : v &&& mask = 0 <;> simp [writeBits, h]

/-- The flag is cleared by writing zero to it, and is never set. -/
theorem writeBits_clearMatchedFlag (v mask : UInt32) (t : CompareMatchTimer) :
    writeBits v t (mask, .clearMatchedFlag) =
      .ok { t with matched := t.matched && decide (v &&& mask ≠ 0) } := by
  by_cases h : v &&& mask = 0 <;> simp [writeBits, clearMatchedFlag, h]

theorem writeBits_setCurrentTick (v mask : UInt32) (t : CompareMatchTimer) :
    writeBits v t (mask, .setCurrentTick) = .ok (t.setCurrentTick (writtenCount v mask)) := by
  by_cases h : v &&& mask = 0 <;> simp [writeBits, writtenCount, h]

theorem writeBits_setCompareAgainst (v mask : UInt32) (t : CompareMatchTimer) :
    writeBits v t (mask, .setCompareAgainst) =
      .ok (t.setCompareAgainst (writtenCount v mask)) := by
  by_cases h : v &&& mask = 0 <;> simp [writeBits, writtenCount, h]

theorem writeBits_setMatchToggle (v mask : UInt32) (t : CompareMatchTimer) :
    writeBits v t (mask, .setMatchToggle) = .ok (t.setMatchToggle (decide (v &&& mask ≠ 0))) := by
  by_cases h : v &&& mask = 0 <;> simp [writeBits, h]

/-- A register with one function behind it. -/
theorem handleRegWrite_singleton (order : HashOrder) {t : CompareMatchTimer} {addr : Address}
    {entry : UInt32 × FunName} (h : t.regWriteMap addr = some [entry]) (v : UInt32) :
    t.handleRegWrite order addr v = writeBits v t entry := by
  rw [handleRegWrite, h]
  dsimp only
  rw [List.perm_singleton.mp (order.perm addr [entry]), List.foldlM_cons]
  cases writeBits v t entry <;> rfl

/-! ## Ticks and matches -/

/-- The timer with other enable and count fields, after `hits` more matches. -/
def advanced (t : CompareMatchTimer) (start : Bool) (count : BitVec 128) (hits : Nat) :
    CompareMatchTimer :=
  { t with
    counterStart := start
    currentTick := count
    matched := t.matched || decide (0 < hits)
    matchToggle := Bool.not^[hits] t.matchToggle }

/-- A tick while disabled changes nothing and returns false. -/
theorem tick_disabled {t : CompareMatchTimer} (h : t.isEnabled = false) : t.tick = (false, t) :=
  if_pos h

/-- A tick changes the count, and the match flags when it returns true. -/
theorem tick_frame (t : CompareMatchTimer) :
    t.tick.2 = t.advanced t.counterStart t.tick.2.currentTick t.tick.1.toNat := by
  unfold tick
  split
  · simp [advanced]
  · dsimp only
    split
    · simp [advanced]
    · simp [advanced]

theorem tick_enabled {t : CompareMatchTimer} (he : t.isEnabled = true)
    (hf : t.countForward = true) (hfits : t.currentTick.toNat + 1 < 2 ^ 128) :
    t.tick.1 = decide (t.currentTick.toNat + 1 = t.compareAgainst.toNat) ∧
      t.tick.2.currentTick.toNat =
        if t.tick.1 && t.resetOnMatch then 0 else t.currentTick.toNat + 1 := by
  have hnext : t.nextTick.toNat = t.currentTick.toNat + 1 := by
    simpa [nextTick, hf] using hfits
  have hstart : ¬ t.counterStart = false := by simpa [isEnabled] using he
  unfold tick
  rw [if_neg hstart, ← hnext]
  dsimp only
  by_cases h : t.nextTick = t.compareAgainst
  · rw [if_pos h, h]
    cases t.resetOnMatch <;> simp
  · rw [if_neg h]
    simpa [BitVec.toNat_inj] using h

/-- The timer will be matched after its next tick: it is enabled, and it has matched
before or matches with that tick. -/
def isDue (t : CompareMatchTimer) : Bool :=
  t.isEnabled && (t.matched || t.nextTick == t.compareAgainst)

theorem isMatched_tick (t : CompareMatchTimer) : t.tick.2.isMatched = t.isDue := by
  unfold tick
  by_cases hs : t.counterStart = false
  · rw [if_pos hs]
    simp [isMatched, isDue, isEnabled, hs]
  · rw [if_neg hs]
    rw [Bool.not_eq_false] at hs
    dsimp only
    split
    next h => simp [isMatched, isDue, isEnabled, hs, h]
    next h => simp [isMatched, isDue, isEnabled, hs, h]

theorem isEnabled_of_isMatched {t : CompareMatchTimer} (h : t.isMatched = true) :
    t.isEnabled = true := by
  unfold isMatched at h
  split at h
  next he => exact he
  next => cases h

end CompareMatchTimer

/-! ## Peripherals built on the timer -/

/-- How the library of the emulator converts an address to 32 bits. An address that fits
is converted to itself. One that does not may be refused, or cut down to something else. -/
structure AddressConversion where
  toU32 : Address → Option UInt32
  toU32_of_lt : ∀ {address}, address < 2 ^ 32 → toU32 address = some (UInt32.ofNat address)

namespace AddressConversion

/-- The conversion that keeps the low 32 bits. -/
def truncating : AddressConversion :=
  ⟨fun address => some (UInt32.ofNat address), fun _ => rfl⟩

/-- `try_into().unwrap()` of an address. -/
def addressToU32 (conv : AddressConversion) (address : Address) : Except TimerPanic UInt32 :=
  match conv.toU32 address with
  | some addrU32 => .ok addrU32
  | none => .error (.addressTooLarge address)

variable {conv : AddressConversion} {address : Address} {addrU32 : UInt32}

theorem addressToU32_eq_ok_iff :
    conv.addressToU32 address = .ok addrU32 ↔ conv.toU32 address = some addrU32 := by
  unfold addressToU32
  cases conv.toU32 address <;> simp

theorem addressToU32_of_lt (hlt : address < 2 ^ 32) :
    conv.addressToU32 address = .ok (UInt32.ofNat address) :=
  addressToU32_eq_ok_iff.mpr (conv.toU32_of_lt hlt)

/-- An address that fits is what it is converted to. -/
theorem toNat_addressToU32 (hlt : address < 2 ^ 32)
    (h : conv.addressToU32 address = .ok addrU32) : addrU32.toNat = address := by
  rw [addressToU32_of_lt hlt] at h
  cases h
  exact UInt32.toNat_ofNat_of_lt' hlt

end AddressConversion

/-- The calls that drive such a peripheral, each with the state of the emulator at that
moment. -/
inductive HookEvent (O : Order)
  | step (state : PCodeState O) (address : Address)
  | read (state : PCodeState O) (address : Address) (size : Nat)
  | write (state : PCodeState O) (address : Address) (size : Nat) (value : List UInt8)

end FuguexPeripheral.Backend
