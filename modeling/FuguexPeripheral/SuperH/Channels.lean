import Mathlib.Data.List.Permutation
import FuguexPeripheral.SuperH.Steps

/-!
# A channel on its own

To the timer of a channel, a run is a sequence of commands: ticks, and writes to its own
registers or of its own bit in the shared one. `command` picks them out of the calls.

Results:
1. `regWriteMap_newTimer`: the registers of a channel.
2. `handleRegWrite_wired`: a register write is a command, in any order of the map.
3. `Wired.apply`: every call of the peripheral is a command, or nothing, to each timer,
   and keeps the interrupt enabled as its timer says.
-/

namespace FuguexPeripheral.SuperH

open ByteStore Backend Fallible

/-! ## Commands -/

/-- What may happen to the timer of a channel. -/
inductive Command
  | tick
  | start (on : Bool)
  | control (writeVal : UInt32)
  | counter (writeVal : UInt32)
  | compare (writeVal : UInt32)
  deriving DecidableEq, Repr

/-- The command that a write of `writeVal` to `address` is to a channel. -/
def writeCommand (i : Channel) (address : Address) (writeVal : UInt32) : Option Command :=
  if address = addrCmstr then some (.start (decide (writeVal &&& i.startMask ≠ 0)))
  else if address = i.addrCmcsr then some (.control writeVal)
  else if address = i.addrCmcnt then some (.counter writeVal)
  else if address = i.addrCmcor then some (.compare writeVal)
  else none

/-- The command that a call is to a channel. -/
def command (i : Channel) : HookEvent .be → Option Command
  | .step _ _ => some .tick
  | .read _ _ _ => none
  | .write _ address _ value => writeCommand i address (UInt32.ofNat (decode .be value))

def obey (t : Backend.CompareMatchTimer) : Command → Backend.CompareMatchTimer
  | .tick => t.tick.2
  | .start on => t.setEnable on
  | .control writeVal =>
    { t with
      interruptEnabled := decide (writeVal &&& 0x40 ≠ 0)
      matched := t.matched && decide (writeVal &&& 0x80 ≠ 0) }
  | .counter writeVal => t.setCurrentTick (Backend.CompareMatchTimer.writtenCount writeVal 0xffff)
  | .compare writeVal =>
    t.setCompareAgainst (Backend.CompareMatchTimer.writtenCount writeVal 0xffff)

namespace CompareMatchTimer

/-! ## Registers -/

/-- The functions behind the registers of a channel. -/
theorem regWriteMap_newTimer (i : Channel) (a : Address) :
    (newTimer i).regWriteMap a =
      if a = addrCmstr then some [(i.startMask, .setEnable)]
      else if a = i.addrCmcsr then some [(0x40, .setInterruptEnabled), (0x80, .clearMatchedFlag)]
      else if a = i.addrCmcnt then some [(0xffff, .setCurrentTick)]
      else if a = i.addrCmcor then some [(0xffff, .setCompareAgainst)]
      else none := by
  unfold newTimer
  simp only [Backend.CompareMatchTimer.mapFunctionAddrRead,
    Backend.CompareMatchTimer.mapFunctionAddrWrite, Function.update_apply]
  cases i with
  | cmt0 => split_ifs <;> simp_all [addrCmstr, Channel.addrCmcsr, Channel.addrCmcnt,
      Channel.addrCmcor] <;> rfl
  | cmt1 => split_ifs <;> simp_all [addrCmstr, Channel.addrCmcsr, Channel.addrCmcnt,
      Channel.addrCmcor] <;> rfl

namespace ChannelLemmas

open Backend.CompareMatchTimer

variable {order : HashOrder} {t t' : Backend.CompareMatchTimer} {i : Channel} {address : Address}
  {writeVal : UInt32}

/-- The two functions of CMCSR may be called in either order. -/
theorem handleRegWrite_cmcsr
    (h : t.regWriteMap address = some [(0x40, .setInterruptEnabled), (0x80, .clearMatchedFlag)]) :
    t.handleRegWrite order address writeVal = .ok (obey t (.control writeVal)) := by
  have hint := writeBits_setInterruptEnabled writeVal 0x40
  have hclear := writeBits_clearMatchedFlag writeVal 0x80
  rw [handleRegWrite, h]
  dsimp only
  rcases List.perm_pair.mp (order.perm address _) with hord | hord
  · rw [hord]
    exact foldlM_pair (hint t) (hclear _)
  · rw [hord]
    exact foldlM_pair (hclear t) (hint _)

end ChannelLemmas

open ChannelLemmas Backend.CompareMatchTimer

/-- A register write that does not panic is a command to the timer. -/
theorem handleRegWrite_wired {order : HashOrder} {t t' : Backend.CompareMatchTimer} {i : Channel}
    {address : Address} {writeVal : UInt32} (hmap : t.regWriteMap = (newTimer i).regWriteMap)
    (h : t.handleRegWrite order address writeVal = .ok t') :
    ∃ c, writeCommand i address writeVal = some c ∧ t' = obey t c := by
  have haddr := regWriteMap_newTimer i address
  rw [← hmap] at haddr
  unfold writeCommand
  split_ifs at haddr ⊢ with h₀ h₁ h₂ h₃
  · rw [handleRegWrite_singleton order haddr, writeBits_setEnable] at h
    cases h
    exact ⟨_, rfl, rfl⟩
  · rw [handleRegWrite_cmcsr haddr] at h
    cases h
    exact ⟨_, rfl, rfl⟩
  · rw [handleRegWrite_singleton order haddr, writeBits_setCurrentTick] at h
    cases h
    exact ⟨_, rfl, rfl⟩
  · rw [handleRegWrite_singleton order haddr, writeBits_setCompareAgainst] at h
    cases h
    exact ⟨_, rfl, rfl⟩
  · rw [handleRegWrite, haddr] at h
    cases h

/-! ## Calls -/

/-- The timers have the registers of `new`, and the interrupts follow their timers. -/
structure Wired (p : CompareMatchTimer) : Prop where
  range : p.addressRange = new.addressRange
  handler : p.handler = new.handler
  maps : ∀ i, (p.timer i).regWriteMap = (newTimer i).regWriteMap
  enabled : ∀ i, (p.int i).isEnabled = (p.timer i).isInterruptEnabled

theorem wired_new : Wired new where
  range := rfl
  handler := rfl
  maps := fun i => by cases i <;> rfl
  enabled := fun i => by cases i <;> rfl

namespace ChannelLemmas

theorem obey_regWriteMap (t : Backend.CompareMatchTimer) (c : Command) :
    (obey t c).regWriteMap = t.regWriteMap := by
  cases c with
  | tick =>
    rw [obey, tick_frame]
    rfl
  | start on => rfl
  | control writeVal => rfl
  | counter writeVal => rfl
  | compare writeVal => rfl

/-- The registers of a channel lie in its window. -/
theorem writeCommand_eq_none {i : Channel} {address : Address} {writeVal : UInt32}
    (h : i.window address = false) : writeCommand i address writeVal = none := by
  unfold writeCommand
  split_ifs with h₀ h₁ h₂ h₃
  · rw [h₀] at h
    cases i <;> cases h
  · rw [h₁] at h
    cases i <;> cases h
  · rw [h₂] at h
    cases i <;> cases h
  · rw [h₃] at h
    cases i <;> cases h
  · rfl

/-- The windows lie in the address range. -/
theorem window_eq_false {p : CompareMatchTimer} {address : Address} (hp : Wired p)
    (h : p.inRange address = false) (i : Channel) : i.window address = false := by
  rw [← Bool.not_eq_true] at h ⊢
  refine fun hw => h ?_
  unfold inRange
  rw [hp.range, Bool.and_eq_true, decide_eq_true_eq, decide_eq_true_eq]
  cases i with
  | cmt0 =>
    rw [Channel.window, Bool.and_eq_true, decide_eq_true_eq, decide_eq_true_eq] at hw
    exact ⟨hw.1, Nat.le_trans hw.2 (by decide)⟩
  | cmt1 =>
    rw [Channel.window, Bool.or_eq_true, Bool.and_eq_true, decide_eq_true_eq,
      decide_eq_true_eq, beq_iff_eq] at hw
    rcases hw with rfl | hw
    · decide
    · exact ⟨Nat.le_trans (by decide) hw.1, hw.2⟩

/-- A write through the window of a channel is a command to its timer. -/
theorem writeChannel_wired {order : HashOrder} {p p' : CompareMatchTimer} {i : Channel}
    {address : Address} {writeVal : UInt32} (hp : Wired p)
    (h : p.writeChannel order i address writeVal = .ok p') :
    Wired p' ∧ p'.timer i.other = p.timer i.other ∧
      p'.timer i = (writeCommand i address writeVal).elim (p.timer i) (obey (p.timer i)) := by
  unfold writeChannel at h
  split at h
  next hw =>
    obtain ⟨t, ht, hset⟩ := exists_of_bind_eq_ok h
    obtain ⟨c, hc, rfl⟩ := handleRegWrite_wired (hp.maps i) ht
    cases hset
    have hmap : (obey (p.timer i) c).regWriteMap = (newTimer i).regWriteMap :=
      (obey_regWriteMap _ c).trans (hp.maps i)
    rw [hc]
    cases i with
    | cmt0 =>
      refine ⟨⟨hp.range, hp.handler, fun j => ?_, fun j => ?_⟩, rfl, rfl⟩
      · cases j with
        | cmt0 => exact hmap
        | cmt1 => exact hp.maps .cmt1
      · cases j with
        | cmt0 => rfl
        | cmt1 => exact hp.enabled .cmt1
    | cmt1 =>
      refine ⟨⟨hp.range, hp.handler, fun j => ?_, fun j => ?_⟩, rfl, rfl⟩
      · cases j with
        | cmt0 => exact hp.maps .cmt0
        | cmt1 => exact hmap
      · cases j with
        | cmt0 => exact hp.enabled .cmt0
        | cmt1 => rfl
  next hw =>
    cases h
    rw [writeCommand_eq_none (by simpa using hw)]
    exact ⟨hp, rfl, rfl⟩

end ChannelLemmas

/-- A memory write is a command to each timer, or nothing. -/
theorem hookMemoryWrite_wired {order : HashOrder} {emu : Machine}
    {p p' : CompareMatchTimer} {address : Address} {value : List UInt8}
    (hp : Wired p) (h : p.hookMemoryWrite order emu address value = .ok p') :
    Wired p' ∧ ∀ i, p'.timer i =
      (writeCommand i address (UInt32.ofNat (decode .be value))).elim (p.timer i)
        (obey (p.timer i)) := by
  cases hr : p.inRange address with
  | true =>
    rw [hookMemoryWrite_of_inRange hp.range hr] at h
    obtain ⟨v, hv, h⟩ := exists_of_bind_eq_ok h
    obtain ⟨q, hq, h⟩ := exists_of_bind_eq_ok h
    have hval : v = UInt32.ofNat (decode .be value) := by
      unfold writeValue at hv
      split at hv
      · cases hv
        rfl
      · cases hv
    subst hval
    obtain ⟨hq', hother₀, hcmt0⟩ := writeChannel_wired hp hq
    obtain ⟨hp', hother₁, hcmt1⟩ := writeChannel_wired hq' h
    refine ⟨hp', fun i => ?_⟩
    cases i with
    | cmt0 => exact hother₁.trans hcmt0
    | cmt1 =>
      rw [show q.timer .cmt1 = p.timer .cmt1 from hother₀] at hcmt1
      exact hcmt1
  | false =>
    obtain ⟨_, _, h⟩ := exists_of_bind_eq_ok h
    rw [hr] at h
    cases h
    refine ⟨hp, fun i => ?_⟩
    rw [writeCommand_eq_none (window_eq_false hp hr i)]
    rfl

/-- Every call is a command, or nothing, to each timer. -/
theorem Wired.apply {order : HashOrder} {emu : Machine} {p p' : CompareMatchTimer}
    {e : HookEvent .be} (hp : Wired p) (h : p.apply order emu e = .ok p') :
    Wired p' ∧ ∀ i, p'.timer i = (command i e).elim (p.timer i) (obey (p.timer i)) := by
  cases e with
  | step state address =>
    have htick (i : Channel) : p'.timer i = (p.timer i).tick.2 := by
      rw [apply_step hp.handler h]
      cases i <;> rfl
    refine ⟨?_, htick⟩
    rw [apply_step hp.handler h] at htick ⊢
    refine ⟨hp.range, hp.handler, fun i => ?_, fun i => ?_⟩
    · rw [htick]
      exact (obey_regWriteMap (p.timer i) .tick).trans (hp.maps i)
    · rw [htick, isInterruptEnabled, tick_frame]
      have hi := hp.enabled i
      cases i <;> exact hi
  | read state address size =>
    obtain ⟨_, _, hr⟩ := exists_of_bind_eq_ok h
    cases hr
    exact ⟨hp, fun _ => rfl⟩
  | write state address size value => exact hookMemoryWrite_wired hp h

end CompareMatchTimer

end FuguexPeripheral.SuperH
