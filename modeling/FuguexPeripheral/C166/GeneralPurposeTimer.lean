import Mathlib.Data.List.Permutation
import FuguexPeripheral.Backend.CompareMatchTimer
import FuguexPeripheral.Backend.Interrupt
import FuguexPeripheral.Runs

/-!
# The C166 general purpose timer

Model of `src/c166/general_purpose_timer.rs`: one timer behind two registers, T6 and its
control register. It ticks at every architectural step, and its interrupt is never
raised. The handler and the address range of the source are not used by its hooks and
left out.

Results:
1. `handleRegWrite_t6con`, `handleRegWrite_t6`: the two registers.
2. `apply_access`: what the accesses do to the timer.
-/

namespace FuguexPeripheral.C166

open ByteStore Backend Fallible

structure GeneralPurposeTimer where
  backendCmt6 : Backend.CompareMatchTimer
  interrupt : Interrupt

namespace GeneralPurposeTimer

def addrT6con : Address := 0xff48

def addrT6 : Address := 0xfe48

def newTimer : Backend.CompareMatchTimer :=
  (default : Backend.CompareMatchTimer)
    |>.mapFunctionAddrRead addrT6con 0x40 .isEnabled
    |>.mapFunctionAddrWrite addrT6con 0x40 .setEnable
    |>.mapFunctionAddrRead addrT6con 0x400 .getMatchToggle
    |>.mapFunctionAddrWrite addrT6con 0x400 .setMatchToggle
    |>.mapFunctionAddrRead addrT6 0xffff .getCurrentTick
    |>.mapFunctionAddrWrite addrT6 0xffff .setCurrentTick
    |>.setCompareAgainst 0xffff

def new : GeneralPurposeTimer :=
  { backendCmt6 := newTimer
    interrupt := .new "GPT" }

/-- Assume each pc change is for one clock cycle. The outcome is always `Pass`. -/
def hookArchitecturalStep (p : GeneralPurposeTimer) : GeneralPurposeTimer :=
  { p with backendCmt6 := p.backendCmt6.tick.2 }

def isRegister (address : Address) : Bool :=
  address == addrT6con || address == addrT6

def hookMemoryRead (order : HashOrder) (conv : AddressConversion) (p : GeneralPurposeTimer)
    (state : PCodeState .le) (address : Address) : Except TimerPanic (PCodeState .le) := do
  let addrU32 ← conv.addressToU32 address
  if isRegister addrU32.toNat then
    let (_, state) ← p.backendCmt6.handleRegRead order state addrU32.toNat
    .ok state
  else .ok state

/-- Below `2 ^ 32` an address is what the hook compares. -/
theorem hookMemoryRead_of_lt {address : Address} (hlt : address < 2 ^ 32) (order : HashOrder)
    (conv : AddressConversion) (p : GeneralPurposeTimer) (state : PCodeState .le) :
    p.hookMemoryRead order conv state address =
      if isRegister address then
        (p.backendCmt6.handleRegRead order state address).bind fun r => .ok r.2
      else .ok state := by
  unfold hookMemoryRead
  rw [AddressConversion.addressToU32_of_lt hlt]
  change (if isRegister (UInt32.ofNat address).toNat = true then _ else _) = _
  rw [UInt32.toNat_ofNat_of_lt' hlt]
  rfl

/-- The value of a write of one or two bytes. -/
def writeValue (value : List UInt8) : Except TimerPanic UInt32 :=
  if value.length = 1 ∨ value.length = 2 then .ok (UInt32.ofNat (decode .le value))
  else .error .unexpectedValueSize

def hookMemoryWrite (order : HashOrder) (conv : AddressConversion) (p : GeneralPurposeTimer)
    (address : Address) (value : List UInt8) : Except TimerPanic GeneralPurposeTimer := do
  let addrU32 ← conv.addressToU32 address
  if isRegister addrU32.toNat then
    let writeVal ← writeValue value
    let t ← p.backendCmt6.handleRegWrite order addrU32.toNat writeVal
    .ok ⟨t, p.interrupt.setEnable t.isInterruptEnabled⟩
  else .ok p

theorem hookMemoryWrite_of_lt {address : Address} (hlt : address < 2 ^ 32) (order : HashOrder)
    (conv : AddressConversion) (p : GeneralPurposeTimer) (value : List UInt8) :
    p.hookMemoryWrite order conv address value =
      if isRegister address then
        (writeValue value).bind fun writeVal =>
          (p.backendCmt6.handleRegWrite order address writeVal).bind fun t =>
            .ok ⟨t, p.interrupt.setEnable t.isInterruptEnabled⟩
      else .ok p := by
  unfold hookMemoryWrite
  rw [AddressConversion.addressToU32_of_lt hlt]
  change (if isRegister (UInt32.ofNat address).toNat = true then _ else _) = _
  rw [UInt32.toNat_ofNat_of_lt' hlt]
  rfl

/-! ## Runs -/

/-- The peripheral after a call that does not panic. -/
def apply (order : HashOrder) (conv : AddressConversion) (p : GeneralPurposeTimer) :
    HookEvent .le → Except TimerPanic GeneralPurposeTimer
  | .step _ _ => .ok p.hookArchitecturalStep
  | .read state address _ => do
    let _ ← p.hookMemoryRead order conv state address
    .ok p
  | .write _ address _ value => p.hookMemoryWrite order conv address value

/-- A run from `new`. -/
abbrev Reaches (order : HashOrder) (conv : AddressConversion)
    (tr : List (GeneralPurposeTimer × HookEvent .le)) (p : GeneralPurposeTimer) : Prop :=
  Runs.Run (fun p e p' => p.apply order conv e = .ok p') new tr p

/-- The run on some events. -/
def sample (es : List (HookEvent .le)) :
    List (GeneralPurposeTimer × HookEvent .le) × GeneralPurposeTimer :=
  Runs.tracePartial (apply .insertion .truncating) new es

theorem reaches_sample (es : List (HookEvent .le)) :
    Reaches .insertion .truncating (sample es).1 (sample es).2 :=
  Runs.run_tracePartial _ _ _

/-! ## Registers -/

theorem regWriteMap_newTimer (a : Address) :
    newTimer.regWriteMap a =
      if a = addrT6con then some [(0x40, .setEnable), (0x400, .setMatchToggle)]
      else if a = addrT6 then some [(0xffff, .setCurrentTick)]
      else none := by
  unfold newTimer
  simp only [CompareMatchTimer.mapFunctionAddrRead, CompareMatchTimer.mapFunctionAddrWrite,
    CompareMatchTimer.setCompareAgainst, Function.update_apply]
  split_ifs <;> simp_all [addrT6con, addrT6] <;> rfl

/-- The two functions of T6CON may be called in either order. -/
theorem handleRegWrite_t6con {order : HashOrder} {t : CompareMatchTimer}
    (hmap : t.regWriteMap = newTimer.regWriteMap) (v : UInt32) :
    t.handleRegWrite order addrT6con v =
      .ok ((t.setEnable (decide (v &&& 0x40 ≠ 0))).setMatchToggle
        (decide (v &&& 0x400 ≠ 0))) := by
  have henable := CompareMatchTimer.writeBits_setEnable v 0x40
  have htoggle := CompareMatchTimer.writeBits_setMatchToggle v 0x400
  rw [CompareMatchTimer.handleRegWrite, hmap, regWriteMap_newTimer, if_pos rfl]
  dsimp only
  rcases List.perm_pair.mp (order.perm addrT6con _) with hord | hord
  · rw [hord]
    exact foldlM_pair (henable t) (htoggle _)
  · rw [hord]
    exact foldlM_pair (htoggle t) (henable _)

theorem handleRegWrite_t6 {order : HashOrder} {t : CompareMatchTimer}
    (hmap : t.regWriteMap = newTimer.regWriteMap) (v : UInt32) :
    t.handleRegWrite order addrT6 v =
      .ok (t.setCurrentTick (CompareMatchTimer.writtenCount v 0xffff)) := by
  have haddr : t.regWriteMap addrT6 = some [(0xffff, .setCurrentTick)] := by
    rw [hmap, regWriteMap_newTimer, if_neg (by decide), if_pos rfl]
  rw [CompareMatchTimer.handleRegWrite_singleton order haddr,
    CompareMatchTimer.writeBits_setCurrentTick]

/-! ## Calls -/

section Calls

variable {order : HashOrder} {conv : AddressConversion} {p p' : GeneralPurposeTimer}

/-- An access sets the control bits or the counter, or leaves the timer alone. -/
theorem apply_access {e : HookEvent .le} (he : ∀ state address, e ≠ .step state address)
    (hmap : p.backendCmt6.regWriteMap = newTimer.regWriteMap) (h : p.apply order conv e = .ok p') :
    p'.backendCmt6 = p.backendCmt6 ∨
      (∃ on toggle, p'.backendCmt6 = (p.backendCmt6.setEnable on).setMatchToggle toggle) ∨
      ∃ v : UInt32, v.toNat < 2 ^ 16 ∧ p'.backendCmt6 =
        p.backendCmt6.setCurrentTick (CompareMatchTimer.writtenCount v 0xffff) := by
  cases e with
  | step state address => exact absurd rfl (he state address)
  | read state address size =>
    obtain ⟨_, _, hp⟩ := exists_of_bind_eq_ok h
    cases hp
    exact .inl rfl
  | write state address size value =>
    obtain ⟨_, _, h⟩ := exists_of_bind_eq_ok h
    split at h
    next hreg =>
      obtain ⟨v, hv, h⟩ := exists_of_bind_eq_ok h
      obtain ⟨t, ht, h⟩ := exists_of_bind_eq_ok h
      cases h
      have hlt : v.toNat < 2 ^ 16 := by
        unfold writeValue at hv
        split at hv
        next hlen =>
          cases hv
          have hle : value.length ≤ 2 := by omega
          exact PCodeState.toNat_ofNat_decode_lt .le hle
        next => cases hv
      simp only [isRegister, Bool.or_eq_true, beq_iff_eq] at hreg
      rcases hreg with hreg | hreg
      · rw [hreg, handleRegWrite_t6con hmap] at ht
        cases ht
        exact .inr (.inl ⟨_, _, rfl⟩)
      · rw [hreg, handleRegWrite_t6 hmap] at ht
        cases ht
        exact .inr (.inr ⟨v, hlt, rfl⟩)
    next =>
      cases h
      exact .inl rfl

end Calls

end GeneralPurposeTimer

end FuguexPeripheral.C166
