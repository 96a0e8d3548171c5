import FuguexPeripheral.Backend.RegisterRead

/-!
# The run that a mask scan finds

`get_mask_start_bit` looks for the start and the end of the lowest run of ones. Its loop sets
the end at the first zero behind the run, one step late. A run that reaches the top bit has no
such zero, one that stops below it has its zero at the index that the loop treats as the top,
and an end of zero is taken for no end at all.

Results:
1. `setBitsVal_ok_iff`: which masks take a value without a panic.
2. `scansRun_iff`: which masks are scanned right.
-/

namespace FuguexPeripheral.Backend.CompareMatchTimer

open Masks

/-- The scan finds the first and the last bit of the lowest run, and no value that is put
under the mask panics. -/
def ScansRun (mask : UInt32) : Prop :=
  (∃ s n, LowestRun mask s n ∧ getMaskStartBit mask = some (s, n - 1)) ∧
    ∀ val setVal, ∃ word, setBitsVal val mask setVal = .ok word

namespace MaskScanLemmas

/-- The scan ends at the last bit of the run, where the run is neither bit 0 alone nor one
that gets to bit 30. -/
theorem getMaskStartBit_eq_last_iff {mask : UInt32} {s n : Nat} (h : LowestRun mask s n) :
    getMaskStartBit mask = some (s, n - 1) ↔ n ≠ 1 ∧ n < 31 := by
  rw [getMaskStartBit_run h]
  constructor
  · intro heq
    split at heq
    · rename_i hfound
      simp only [Option.some.injEq, Prod.mk.injEq, true_and] at heq
      refine ⟨hfound.2, Nat.lt_of_le_of_ne (Nat.le_of_lt_succ hfound.1) ?_⟩
      rintro rfl
      simp at heq
    · cases heq
  · rintro ⟨hone, hlt⟩
    rw [if_pos ⟨Nat.lt_succ_of_lt hlt, hone⟩, if_neg (Nat.ne_of_lt hlt)]

end MaskScanLemmas

open MaskScanLemmas

/-- A value goes under a mask exactly if the scan finds anything, the value does not matter. -/
theorem setBitsVal_ok_iff {mask : UInt32} {s n : Nat} (h : LowestRun mask s n)
    (val setVal : UInt32) :
    (∃ word, setBitsVal val mask setVal = .ok word) ↔ n ≠ 1 ∧ n < 32 := by
  unfold setBitsVal
  rw [getMaskStartBit_run h]
  constructor
  · rintro ⟨word, hword⟩
    by_contra hbad
    rw [if_neg fun hfound => hbad ⟨hfound.2, hfound.1⟩] at hword
    cases hword
  · rintro ⟨hone, hlt⟩
    rw [if_pos ⟨hlt, hone⟩]
    exact ⟨_, rfl⟩

/-- The masks that are scanned right are those whose lowest run ends below bit 30 and is not
bit 0 alone. A value panics under the masks with bit 0 alone or with a run up to the top. -/
theorem scansRun_iff {mask : UInt32} (h : mask ≠ 0) :
    (ScansRun mask ↔ ∃ s n, LowestRun mask s n ∧ n ≠ 1 ∧ n < 31) ∧
      ((∀ val setVal, ∃ word, setBitsVal val mask setVal = .ok word) ↔
        ∃ s n, LowestRun mask s n ∧ n ≠ 1 ∧ n < 32) := by
  obtain ⟨s, n, hrun⟩ := exists_lowestRun h
  constructor
  · constructor
    · rintro ⟨⟨s', n', hrun', hfound⟩, -⟩
      exact ⟨s', n', hrun', (getMaskStartBit_eq_last_iff hrun').mp hfound⟩
    · rintro ⟨s', n', hrun', hone, hlt⟩
      refine ⟨⟨s', n', hrun', (getMaskStartBit_eq_last_iff hrun').mpr ⟨hone, hlt⟩⟩, ?_⟩
      exact fun val setVal =>
        (setBitsVal_ok_iff hrun' val setVal).mpr ⟨hone, Nat.lt_succ_of_lt hlt⟩
  · constructor
    · exact fun hok => ⟨s, n, hrun, (setBitsVal_ok_iff hrun 0 0).mp (hok 0 0)⟩
    · rintro ⟨s', n', hrun', hends⟩ val setVal
      exact (setBitsVal_ok_iff hrun' val setVal).mpr hends

/-- A mask of eight bits in the middle of a word is scanned right. -/
theorem scansRun_byte : ScansRun 0xFF00 := by
  have hrun : LowestRun 0xFF00 8 16 :=
    ⟨by decide, by decide, fun j h h' => by interval_cases j <;> decide, by decide⟩
  exact (scansRun_iff (by decide)).1.mpr ⟨8, 16, hrun, by decide, by decide⟩

/-- The full mask is refused, although its lowest run is all of it. -/
theorem not_scansRun_full : ¬ ∀ mask : UInt32, mask ≠ 0 → ScansRun mask := by
  intro h
  obtain ⟨-, hok⟩ := h 0xFFFFFFFF (by decide)
  obtain ⟨word, hword⟩ := hok 0 0
  have hnone : getMaskStartBit 0xFFFFFFFF = none := by decide
  rw [setBitsVal, hnone] at hword
  cases hword

end FuguexPeripheral.Backend.CompareMatchTimer
