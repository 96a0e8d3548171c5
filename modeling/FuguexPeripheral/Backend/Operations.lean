import FuguexPeripheral.Backend.RegisterWrite
import FuguexPeripheral.Runs

/-!
# Runs of the compare match timer

A timer as its owner drives it: any sequence of its public operations, from the default
timer on. The getters and `handle_reg_read` leave the timer alone and are left out.

The count goes below zero in one situation only, when the timer counts backward from 0.
Matches bring it back to 0, and a timer that counts backward leaves 0 with its next tick
whatever it is compared against.

Results:
1. `apply_currentTick`: where the count of an operation comes from.
2. `tick_fits_iff`: the ticks of a run neither overflow nor underflow exactly when none is
   made backward from 0.
-/

namespace FuguexPeripheral.Backend

open Runs

/-- The public operations that change a timer. -/
inductive Op
  | setEnable (val : Bool)
  | setInterruptEnabled (val : Bool)
  | configResetOnMatch (val : Bool)
  | setCompareAgainst (val : BitVec 128)
  | setCountForward (val : Bool)
  | setFlagOverflow (val : Bool)
  | setFlagUnderflow (val : Bool)
  | setFlagUnderoverflow (val : Bool)
  | setMatchToggle (val : Bool)
  | setCurrentTick (val : BitVec 128)
  | clearMatchedFlag
  | mapFunctionAddrRead (addr : Address) (mask : UInt32) (funName : FunName)
  | mapFunctionAddrWrite (addr : Address) (mask : UInt32) (funName : FunName)
  | handleRegWrite (addr : Address) (writeVal : UInt32)
  | tick

def Op.isTick : Op → Bool
  | .tick => true
  | _ => false

namespace CompareMatchTimer

/-- The timer after an operation that does not panic. -/
def apply (order : HashOrder) (t : CompareMatchTimer) : Op → Except TimerPanic CompareMatchTimer
  | .setEnable val => .ok (t.setEnable val)
  | .setInterruptEnabled val => .ok (t.setInterruptEnabled val)
  | .configResetOnMatch val => .ok (t.configResetOnMatch val)
  | .setCompareAgainst val => .ok (t.setCompareAgainst val)
  | .setCountForward val => .ok (t.setCountForward val)
  | .setFlagOverflow val => .ok (t.setFlagOverflow val)
  | .setFlagUnderflow val => .ok (t.setFlagUnderflow val)
  | .setFlagUnderoverflow val => .ok (t.setFlagUnderoverflow val)
  | .setMatchToggle val => .ok (t.setMatchToggle val)
  | .setCurrentTick val => .ok (t.setCurrentTick val)
  | .clearMatchedFlag => .ok t.clearMatchedFlag
  | .mapFunctionAddrRead addr mask funName => .ok (t.mapFunctionAddrRead addr mask funName)
  | .mapFunctionAddrWrite addr mask funName => .ok (t.mapFunctionAddrWrite addr mask funName)
  | .handleRegWrite addr writeVal => t.handleRegWrite order addr writeVal
  | .tick => .ok t.tick.2

/-- A timer that operations lead to. -/
abbrev Operated (order : HashOrder) (s : CompareMatchTimer) (tr : List (CompareMatchTimer × Op))
    (t : CompareMatchTimer) : Prop :=
  Run (fun t op t' => t.apply order op = .ok t') s tr t

/-- The run of a timer on some operations. -/
def operate (ops : List Op) : List (CompareMatchTimer × Op) × CompareMatchTimer :=
  tracePartial (apply .insertion) default ops

theorem operated_operate (ops : List Op) :
    Operated .insertion default (operate ops).1 (operate ops).2 :=
  run_tracePartial _ _ _

/-! ## The range of the count -/

/-- The `+= 1` or `-= 1` of a tick leaves the range of a `u128`. -/
def Overflows (t : CompareMatchTimer) : Prop :=
  t.counterStart = true ∧
    if t.countForward then BitVec.uaddOverflow t.currentTick 1 = true
    else BitVec.usubOverflow t.currentTick 1 = true

/-- The timer is enabled and counts backward, from 0. -/
def BackwardFromZero (t : CompareMatchTimer) : Prop :=
  t.isEnabled = true ∧ t.getCountForwardFlag = false ∧ t.getCurrentTick = 0

namespace OperationsLemmas

variable {order : HashOrder} {t t' : CompareMatchTimer}

theorem overflows_iff (t : CompareMatchTimer) : t.Overflows ↔
    t.BackwardFromZero ∨
      t.isEnabled = true ∧ t.countForward = true ∧ 2 ^ 128 ≤ t.currentTick.toNat + 1 := by
  have hzero : t.currentTick.toNat < 1 ↔ t.currentTick = 0 := by
    rw [Nat.lt_one_iff, ← BitVec.toNat_inj]
    rfl
  unfold Overflows BackwardFromZero isEnabled getCountForwardFlag getCurrentTick
  cases t.countForward with
  | true => simp [BitVec.uaddOverflow]
  | false => simpa [BitVec.usubOverflow] using fun _ => hzero

/-- A tick adds at most one to the count, unless it is made backward from 0. -/
theorem tick_currentTick_le (h : ¬ t.BackwardFromZero) :
    t.tick.2.currentTick.toNat ≤ t.currentTick.toNat + 1 := by
  unfold tick
  cases hs : t.counterStart with
  | false => exact Nat.le_succ _
  | true =>
    have hnext : t.nextTick.toNat ≤ t.currentTick.toNat + 1 := by
      unfold nextTick
      cases hf : t.countForward with
      | true =>
        rw [if_pos rfl, BitVec.toNat_add]
        exact Nat.mod_le _ _
      | false =>
        have hne : t.currentTick ≠ 0 := fun h0 => h ⟨hs, hf, h0⟩
        have hle : (1 : BitVec 128) ≤ t.currentTick := by
          rw [BitVec.le_def]
          exact Nat.one_le_iff_ne_zero.mpr fun h0 => hne (BitVec.toNat_inj.mp h0)
        rw [if_neg Bool.false_ne_true, BitVec.toNat_sub_of_le hle]
        exact Nat.le_succ_of_le (Nat.sub_le _ _)
    rw [if_neg (by simp)]
    dsimp only
    split
    · cases t.resetOnMatch with
      | true => exact Nat.zero_le _
      | false => exact hnext
    · exact hnext

/-- A register write leaves the count alone or sets it to a 32-bit value. -/
theorem handleRegWrite_currentTick {addr : Address} {v : UInt32}
    (h : t.handleRegWrite order addr v = .ok t') :
    t'.currentTick = t.currentTick ∨ t'.currentTick.toNat < 2 ^ 32 := by
  cases hm : t.regWriteMap addr with
  | none =>
    rw [handleRegWrite, hm] at h
    cases h
  | some m =>
    obtain ⟨-, rfl⟩ := (handleRegWrite_eq_ok_iff hm order v t').mp h
    rw [foldl_assigned]
    dsimp only [afterWrite]
    cases lastMask (order.arrange addr m) .setCurrentTick with
    | none => exact .inl rfl
    | some mask =>
      refine .inr ?_
      rw [Option.elim_some, RegisterWriteLemmas.toNat_writtenCount]
      split
      · decide
      · exact v.toNat_lt

end OperationsLemmas

open OperationsLemmas

/-- Where the count of an operation comes from. -/
theorem apply_currentTick {order : HashOrder} {t t' : CompareMatchTimer} {op : Op}
    (h : t.apply order op = .ok t') :
    t'.currentTick = t.currentTick ∨ (∃ val, op = .setCurrentTick val ∧ t'.currentTick = val) ∨
      t'.currentTick.toNat < 2 ^ 32 ∨ op = .tick ∧ t' = t.tick.2 := by
  cases op with
  | setCurrentTick val =>
    cases h
    exact .inr (.inl ⟨val, rfl, rfl⟩)
  | handleRegWrite addr v =>
    rcases handleRegWrite_currentTick h with hkeep | hlt
    · exact .inl hkeep
    · exact .inr (.inr (.inl hlt))
  | tick =>
    cases h
    exact .inr (.inr (.inr ⟨rfl, rfl⟩))
  | _ =>
    cases h
    exact .inl rfl

namespace OperationsLemmas

/-- The count is at most one for each tick above what it was set to. -/
theorem currentTick_lt {order : HashOrder} {tr : List (CompareMatchTimer × Op)}
    {t : CompareMatchTimer} (h : Operated order default tr t)
    (hset : ∀ q val, (q, .setCurrentTick val) ∈ tr → val.toNat < 2 ^ 64)
    (hback : ∀ q, (q, .tick) ∈ tr → ¬ q.BackwardFromZero) :
    t.currentTick.toNat < 2 ^ 64 + tr.countP (·.2.isTick) := by
  refine h.history (fun past q =>
    (∀ q val, (q, .setCurrentTick val) ∈ past → val.toNat < 2 ^ 64) →
      (∀ q, (q, .tick) ∈ past → ¬ q.BackwardFromZero) →
        q.currentTick.toNat < 2 ^ 64 + past.countP (·.2.isTick)) ?_ ?_ hset hback
  · exact fun _ _ => by decide
  · intro past q op r _ ih hstep hset hback
    have hq := ih (fun q val hm => hset q val (List.mem_append_left _ hm))
      fun q hm => hback q (List.mem_append_left _ hm)
    have hlast : (q, op) ∈ past ++ [(q, op)] := List.mem_append_right _ List.mem_cons_self
    rw [List.countP_append]
    rcases apply_currentTick hstep with hkeep | ⟨val, rfl, hval⟩ | hlt | ⟨rfl, rfl⟩
    · rw [hkeep]
      exact Nat.lt_of_lt_of_le hq (Nat.add_le_add_left (Nat.le_add_right _ _) _)
    · rw [hval]
      exact Nat.lt_of_lt_of_le (hset q val hlast) (Nat.le_add_right _ _)
    · exact Nat.lt_of_lt_of_le hlt (Nat.le_trans (by decide) (Nat.le_add_right _ _))
    · have hle := tick_currentTick_le (hback q hlast)
      calc q.tick.2.currentTick.toNat ≤ q.currentTick.toNat + 1 := hle
        _ < 2 ^ 64 + past.countP (·.2.isTick) + 1 := Nat.add_lt_add_right hq 1

end OperationsLemmas

/-- In a run of fewer than `2 ^ 64` ticks whose counts are set below `2 ^ 64`, no tick
overflows or underflows exactly when none is made backward from 0. -/
theorem tick_fits_iff {order : HashOrder} {tr : List (CompareMatchTimer × Op)}
    {t : CompareMatchTimer} (h : Operated order default tr t)
    (hset : ∀ q val, (q, .setCurrentTick val) ∈ tr → val.toNat < 2 ^ 64)
    (hfew : tr.countP (·.2.isTick) < 2 ^ 64) :
    (∀ q, (q, .tick) ∈ tr → ¬ q.Overflows) ↔ ∀ q, (q, .tick) ∈ tr → ¬ q.BackwardFromZero := by
  constructor
  · exact fun hfits q hq hback => hfits q hq ((overflows_iff q).mpr (.inl hback))
  · intro hback q hq hover
    rcases (overflows_iff q).mp hover with hzero | ⟨-, -, htop⟩
    · exact hback q hq hzero
    · obtain ⟨tr₁, tr₂, _, rfl, hreach, -, -⟩ := h.mem hq
      have hlt := currentTick_lt hreach (fun q val hm => hset q val (List.mem_append_left _ hm))
        fun q hm => hback q (List.mem_append_left _ hm)
      rw [List.countP_append] at hfew
      omega

/-- The run of a timer that is set to 3, compared against 5 and reset on its match. -/
def countingUp : List Op :=
  [.setCompareAgainst 5, .setCurrentTick 3, .setEnable true, .tick, .tick, .tick]

theorem tick_fits_iff_countingUp :
    (∀ q, (q, .tick) ∈ (operate countingUp).1 → ¬ q.Overflows) ↔
      ∀ q, (q, .tick) ∈ (operate countingUp).1 → ¬ q.BackwardFromZero := by
  refine tick_fits_iff (operated_operate countingUp) (fun q val hm => ?_) (by decide)
  have hmem := mem_of_mem_tracePartial hm
  simp [countingUp] at hmem
  subst hmem
  decide

/-- A timer that is started backward underflows with its first tick. -/
theorem not_tick_fits_backward : ¬ ∀ (order : HashOrder) (tr : List (CompareMatchTimer × Op))
    (t : CompareMatchTimer), Operated order default tr t →
      (∀ q val, (q, .setCurrentTick val) ∈ tr → val.toNat < 2 ^ 64) →
        tr.countP (·.2.isTick) < 2 ^ 64 → ∀ q, (q, .tick) ∈ tr → ¬ q.Overflows := by
  intro h
  let ops : List Op := [.setCountForward false, .setEnable true, .tick]
  refine h .insertion _ _ (operated_operate ops) (fun q val hm => ?_) (by decide)
    (((default : CompareMatchTimer).setCountForward false).setEnable true) ?_ ⟨rfl, by decide⟩
  · have hmem := mem_of_mem_tracePartial hm
    simp [ops] at hmem
  · exact .tail _ (.tail _ (.head _))

end CompareMatchTimer

end FuguexPeripheral.Backend
