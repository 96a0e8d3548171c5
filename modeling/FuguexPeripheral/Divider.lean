import Mathlib.Data.Nat.Count

/-!
# Frequency dividers

A divider counts pulses and starts over when it reaches its period, where it fires. A
divider that does not start over fires once, when it gets there.

Results:
1. `mod_succ`, `mod_add_one_eq_iff`: after `m` pulses it shows `m % c`, and it fires at
   the multiples of `c`.
2. `count_dvd`: `n` pulses after `m`, it has fired `(m + n) / c - m / c` times.
3. `count_eq`: without a restart, it has fired once or not at all.
-/

namespace Divider

variable {c : Nat}

theorem mod_add_one_eq_iff (hc : 0 < c) (m : Nat) : m % c + 1 = c ↔ c ∣ m + 1 := by
  have hlt := Nat.mod_lt m hc
  rw [Nat.dvd_iff_mod_eq_zero, Nat.add_mod]
  constructor
  · intro h
    rw [← Nat.add_mod, ← Nat.mod_add_mod, h, Nat.mod_self]
  · intro h
    rw [← Nat.add_mod, ← Nat.mod_add_mod] at h
    by_contra hne
    rw [Nat.mod_eq_of_lt (by omega)] at h
    omega

theorem mod_succ (hc : 0 < c) (m : Nat) :
    (m + 1) % c = if m % c + 1 = c then 0 else m % c + 1 := by
  have hlt := Nat.mod_lt m hc
  rw [← Nat.mod_add_mod]
  split
  next h => rw [h, Nat.mod_self]
  next h => exact Nat.mod_eq_of_lt (by omega)

/-- The number of multiples of `c` among the `n` numbers after `m`. -/
theorem count_dvd (m n : Nat) :
    Nat.count (fun j => c ∣ m + j + 1) n = (m + n) / c - m / c := by
  induction n with
  | zero => simp
  | succ n ih =>
    have hle : m / c ≤ (m + n) / c := Nat.div_le_div_right (Nat.le_add_right m n)
    rw [Nat.count_succ, ih, ← Nat.add_assoc, Nat.succ_div]
    omega

/-- Whether `c` is among the `n` numbers after `m`. -/
theorem count_eq {m : Nat} (hlt : m < c) (n : Nat) :
    Nat.count (fun j => m + j + 1 = c) n = if c ≤ m + n then 1 else 0 := by
  induction n with
  | zero => simp [hlt]
  | succ n ih =>
    rw [Nat.count_succ, ih]
    split <;> split <;> split <;> omega

end Divider
