import Mathlib.Logic.Function.Iterate
import FuguexPeripheral.Divider

/-!
# Laps

A state moves on with `next`. When it gets to a mark it is put back to a base in the same
step, and a lap begins.

Results:
1. `Distance.step`: the mark comes nearer.
2. `iterate_of_lt`, `iterate_first`: the way to the mark.
3. `position`: where the state is after any number of steps.
4. `hits_iff`, `count_hits`: at which steps it got to the mark, and how often.
5. `countP_eq_count`: the same, where the steps are elements of a list.
-/

namespace Laps

variable {α : Type*} {next : α → α} {mark base x : α} {d p : Nat}

/-- It takes `d` steps to the mark. -/
structure Distance (next : α → α) (mark x : α) (d : Nat) : Prop where
  pos : 0 < d
  arrives : next^[d] x = mark
  first : ∀ k, 0 < k → k < d → next^[k] x ≠ mark

theorem Distance.unique {d' : Nat} (h : Distance next mark x d) (h' : Distance next mark x d') :
    d = d' := by
  rcases Nat.lt_trichotomy d d' with hlt | heq | hgt
  · exact absurd h.arrives (h'.first d h.pos hlt)
  · exact heq
  · exact absurd h'.arrives (h.first d' h'.pos hgt)

theorem distance_one (h : next x = mark) : Distance next mark x 1 :=
  ⟨Nat.one_pos, h, fun _ hpos hlt => absurd hlt (Nat.not_lt.mpr hpos)⟩

/-- A step brings the mark nearer. -/
theorem Distance.step (h : Distance next mark x d) (hne : next x ≠ mark) :
    Distance next mark (next x) (d - 1) := by
  obtain ⟨n, rfl⟩ := Nat.exists_eq_succ_of_ne_zero h.pos.ne'
  refine ⟨Nat.pos_of_ne_zero ?_, h.arrives, fun k hpos hlt => ?_⟩
  · intro hzero
    obtain rfl : n = 0 := hzero
    exact hne h.arrives
  · exact h.first (k + 1) (Nat.succ_pos k) (Nat.succ_lt_succ hlt)

/-! ## Starting over at the mark -/

variable [DecidableEq α]

def advance (next : α → α) (mark base : α) (x : α) : α :=
  if next x = mark then base else next x

/-- The step after `n` others gets to the mark. -/
def Hits (next : α → α) (mark base x : α) (n : Nat) : Prop :=
  next ((advance next mark base)^[n] x) = mark

instance (n : Nat) : Decidable (Hits next mark base x n) :=
  inferInstanceAs (Decidable (_ = mark))

theorem iterate_of_lt (h : Distance next mark x d) {n : Nat} (hn : n < d) :
    (advance next mark base)^[n] x = next^[n] x := by
  induction n with
  | zero => rfl
  | succ n ih =>
    rw [Function.iterate_succ_apply', ih (by omega), advance, ← Function.iterate_succ_apply' next]
    exact if_neg (h.first (n + 1) (by omega) hn)

theorem iterate_first (h : Distance next mark x d) : (advance next mark base)^[d] x = base := by
  obtain ⟨k, rfl⟩ := Nat.exists_eq_succ_of_ne_zero h.pos.ne'
  rw [Function.iterate_succ_apply', iterate_of_lt h (Nat.lt_succ_self k), advance,
    ← Function.iterate_succ_apply' next]
  exact if_pos h.arrives

/-- From the base on, the position is that in the lap. -/
theorem iterate_base (h : Distance next mark base p) (n : Nat) :
    (advance next mark base)^[n] base = next^[n % p] base := by
  rw [← iterate_of_lt h (Nat.mod_lt n h.pos)]
  conv_lhs => rw [← Nat.mod_add_div n p, Function.iterate_add_apply]
  have hlaps : ∀ k, (advance next mark base)^[p * k] base = base := by
    intro k
    rw [Function.iterate_mul]
    exact Function.iterate_fixed (iterate_first h) k
  rw [hlaps]

theorem position (hx : Distance next mark x d) (hbase : Distance next mark base p) (n : Nat) :
    (advance next mark base)^[n] x =
      if n < d then next^[n] x else next^[(n - d) % p] base := by
  split
  next hlt => exact iterate_of_lt hx hlt
  next hge =>
    conv_lhs => rw [← Nat.sub_add_cancel (Nat.not_lt.mp hge), Function.iterate_add_apply]
    rw [iterate_first hx, iterate_base hbase]

theorem hits_of_lt (hx : Distance next mark x d) {n : Nat} (hn : n < d) :
    Hits next mark base x n ↔ n + 1 = d := by
  rw [Hits, iterate_of_lt hx hn, ← Function.iterate_succ_apply' next]
  constructor
  · intro hhit
    by_contra hne
    exact hx.first (n + 1) (Nat.succ_pos n) (by omega) hhit
  · rintro rfl
    exact hx.arrives

theorem hits_iff (hx : Distance next mark x d) (hbase : Distance next mark base p) (n : Nat) :
    Hits next mark base x n ↔ d ≤ n + 1 ∧ p ∣ n + 1 - d := by
  rcases Nat.lt_or_ge n d with hlt | hge
  · rw [hits_of_lt hx hlt]
    constructor
    · rintro rfl
      simp
    · rintro ⟨hle, -⟩
      omega
  · -- the laps since the first arrival
    obtain ⟨k, rfl⟩ := Nat.exists_eq_add_of_le hge
    have hlap : Hits next mark base x (d + k) ↔ Hits next mark base base (k % p) := by
      rw [Hits, Hits, position hx hbase, if_neg (by omega), Nat.add_sub_cancel_left,
        iterate_of_lt hbase (Nat.mod_lt k hbase.pos)]
    rw [hlap, hits_of_lt hbase (Nat.mod_lt k hbase.pos), Divider.mod_add_one_eq_iff hbase.pos,
      Nat.add_assoc, Nat.add_sub_cancel_left]
    simp

/-- The number of arrivals in the first `n` steps. -/
theorem count_hits (hx : Distance next mark x d) (hbase : Distance next mark base p) (n : Nat) :
    Nat.count (Hits next mark base x) n = if n < d then 0 else (n - d) / p + 1 := by
  induction n with
  | zero => simp [hx.pos]
  | succ n ih =>
    rw [Nat.count_succ, ih]
    simp only [hits_iff hx hbase]
    rcases Nat.lt_trichotomy (n + 1) d with hlt | rfl | hgt
    · rw [if_pos (show n < d by omega), if_pos hlt, if_neg fun hhit => by omega]
    · simp
    · obtain ⟨k, rfl⟩ := Nat.exists_eq_add_of_le (Nat.lt_succ_iff.mp hgt)
      have hlap : (d + k + 1 - d) = k + 1 := by omega
      rw [if_neg (show ¬ d + k < d by omega), if_neg (show ¬ d + k + 1 < d by omega), hlap,
        Nat.add_sub_cancel_left, Nat.succ_div]
      simp only [show d ≤ d + k + 1 by omega, true_and]
      omega

/-! ## Steps in a list -/

/-- Where the number of steps `S` before an element settles whether it counts, the steps count
as their numbers do. -/
theorem countP_eq_count {β : Type*} {P S : β → Bool} {Q : Nat → Prop} [DecidablePred Q]
    (l : List β)
    (h : ∀ past x rest, l = past ++ x :: rest → P x = (S x && decide (Q (past.countP S)))) :
    l.countP P = Nat.count Q (l.countP S) := by
  induction l using List.reverseRecOn with
  | nil => rfl
  | append_singleton l x ih =>
    have hlast : P x = (S x && decide (Q (l.countP S))) := h l x [] rfl
    have hbefore : l.countP P = Nat.count Q (l.countP S) :=
      ih fun past y rest hl => h past y (rest ++ [x]) (by rw [hl]; simp)
    rw [List.countP_append, List.countP_append, List.countP_singleton, List.countP_singleton,
      hbefore, hlast]
    cases S x
    · rfl
    · simp [Nat.count_succ]

end Laps
