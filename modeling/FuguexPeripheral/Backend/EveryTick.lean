import Mathlib.Data.BitVec
import FuguexPeripheral.Laps
import FuguexPeripheral.Backend.ClosedForm

/-!
# The timer from any state

Up or down, with or without a restart, and from whatever count it is at: the timer gets to the
compare value after a number of ticks, and from then on it matches once in a lap. The counts
wrap, so a lap without a restart has all of them.

Results:
1. `distance_ticksTo`: how many ticks it takes to the compare value.
2. `after_iterate`: a run of the timer as steps of its count.
3. `laps_of_timer`: the count, the matches and the flags after any ticks and enable changes.
4. `isDue_iterate`: when the timer is due.
-/

namespace FuguexPeripheral.Backend.CompareMatchTimer

open Laps

/-- What an enabled tick adds to the count. -/
def direction (t : CompareMatchTimer) : BitVec 128 :=
  if t.countForward then 1 else -1

/-- The count `n` ticks after `x`, as long as nothing matches. -/
def countAfter (t : CompareMatchTimer) (x : BitVec 128) (n : Nat) : BitVec 128 :=
  x + t.direction * BitVec.ofNat 128 n

/-- How many ticks it takes from the count `x` to the compare value. -/
def ticksTo (t : CompareMatchTimer) (x : BitVec 128) : Nat :=
  let gap := t.direction * (t.compareAgainst - x)
  if gap = 0 then 2 ^ 128 else gap.toNat

/-- The count after a match. -/
def lapStart (t : CompareMatchTimer) : BitVec 128 :=
  if t.resetOnMatch then 0 else t.compareAgainst

/-- One step of the count. -/
def tickCount (t : CompareMatchTimer) : BitVec 128 → BitVec 128 :=
  advance (· + t.direction) t.compareAgainst t.lapStart

namespace EveryTickLemmas

variable {t : CompareMatchTimer}

theorem direction_mul_self (t : CompareMatchTimer) : t.direction * t.direction = 1 := by
  unfold direction
  split <;> decide

theorem nextTick_eq (t : CompareMatchTimer) : t.nextTick = t.currentTick + t.direction := by
  unfold nextTick direction
  split
  · rfl
  · rw [BitVec.sub_eq_add_neg]

theorem iterate_direction (t : CompareMatchTimer) (x : BitVec 128) (n : Nat) :
    (· + t.direction)^[n] x = t.countAfter x n := by
  induction n with
  | zero => simp [countAfter]
  | succ n ih =>
    rw [Function.iterate_succ_apply', ih, countAfter, countAfter, BitVec.ofNat_add]
    grind

/-- A number of ticks leads to the compare value if it is the gap, modulo the width. -/
theorem countAfter_eq_iff (t : CompareMatchTimer) (x : BitVec 128) (n : Nat) :
    t.countAfter x n = t.compareAgainst ↔
      BitVec.ofNat 128 n = t.direction * (t.compareAgainst - x) := by
  have hunit := direction_mul_self t
  unfold countAfter
  constructor
  · intro h
    grind
  · intro h
    grind

theorem distance_ticksTo (t : CompareMatchTimer) (x : BitVec 128) :
    Distance (· + t.direction) t.compareAgainst x (t.ticksTo x) := by
  have hiff := countAfter_eq_iff t x
  unfold ticksTo
  dsimp only
  split
  -- a timer that is at its compare value goes through all counts before it is there again
  next hgap =>
    rw [hgap] at hiff
    refine ⟨by decide, ?_, fun k hpos hlt harrives => ?_⟩
    · rw [iterate_direction, hiff]
      rfl
    · rw [iterate_direction, hiff] at harrives
      have hzero := congrArg BitVec.toNat harrives
      rw [BitVec.toNat_ofNat, Nat.mod_eq_of_lt hlt] at hzero
      exact hpos.ne' hzero
  next hgap =>
    generalize t.direction * (t.compareAgainst - x) = gap at hgap hiff
    refine ⟨?_, ?_, fun k _ hlt harrives => ?_⟩
    · exact Nat.pos_of_ne_zero fun hzero => hgap (BitVec.eq_of_toNat_eq hzero)
    · rw [iterate_direction, hiff]
      exact BitVec.eq_of_toNat_eq (by simp)
    · rw [iterate_direction, hiff] at harrives
      subst harrives
      rw [BitVec.toNat_ofNat] at hlt
      exact absurd (Nat.mod_le k _) (Nat.not_le.mpr hlt)

/-! ## Ticks as steps of the count -/

theorem tick_of_enabled (he : t.isEnabled = true) :
    t.tick.1 = decide (t.currentTick + t.direction = t.compareAgainst) ∧
      t.tick.2.currentTick = t.tickCount t.currentTick := by
  have hstart : ¬ t.counterStart = false := by simpa [isEnabled] using he
  unfold tick tickCount advance lapStart
  rw [if_neg hstart]
  simp only [nextTick_eq]
  by_cases hmatch : t.currentTick + t.direction = t.compareAgainst
  · simp [hmatch]
  · simp [hmatch]

/-- The enabled ticks of a run are steps of the count, and return whether these match. -/
theorem after_iterate (t : CompareMatchTimer) (calls : List TimerCall) :
    (t.after calls).currentTick = t.tickCount^[(t.enabledTicks calls).length] t.currentTick ∧
      t.enabledTicks calls = (List.range (t.enabledTicks calls).length).map fun j =>
        decide (Hits (· + t.direction) t.compareAgainst t.lapStart t.currentTick j) := by
  induction calls generalizing t with
  | nil => exact ⟨rfl, rfl⟩
  | cons c calls ih =>
    cases c with
    | setEnable val => exact ih (t.setEnable val)
    | tick =>
      have hrun : t.after (.tick :: calls) = t.tick.2.after calls := rfl
      rw [hrun]
      cases he : t.isEnabled with
      | false =>
        rw [ClosedFormLemmas.enabledTicks_tick_disabled calls he, tick_disabled he]
        exact ih t
      | true =>
        -- the first tick is the step 0, and the others those after it
        rw [ClosedFormLemmas.enabledTicks_tick calls he, List.length_cons]
        obtain ⟨hhit, hcount⟩ := tick_of_enabled he
        obtain ⟨hafter, hticks⟩ := ih t.tick.2
        have hframe := tick_frame t
        have hdirection : t.tick.2.direction = t.direction := by rw [hframe]; rfl
        have hcompare : t.tick.2.compareAgainst = t.compareAgainst := by rw [hframe]; rfl
        have hlap : t.tick.2.lapStart = t.lapStart := by rw [hframe]; rfl
        have hstep : t.tick.2.tickCount = t.tickCount := by
          rw [tickCount, hdirection, hcompare, hlap]
          rfl
        rw [hcount, hstep] at hafter
        rw [hcount, hdirection, hcompare, hlap] at hticks
        refine ⟨hafter, ?_⟩
        rw [List.range_succ_eq_map, List.map_cons, List.map_map]
        exact congrArg₂ List.cons hhit hticks

/-- Without a restart a match makes no difference to the count. -/
theorem tickCount_of_plain (h : t.resetOnMatch = false) : t.tickCount = (· + t.direction) := by
  funext x
  unfold tickCount advance lapStart
  rw [h]
  split
  next hmatch => exact hmatch.symm
  next => rfl

end EveryTickLemmas

open EveryTickLemmas

/-- Every timer, after any sequence of ticks and enable changes with `n` ticks made while
enabled: it takes `d` of them to the first match, and `p` from one match to the next. -/
theorem laps_of_timer (t : CompareMatchTimer) (calls : List TimerCall) {n d p : Nat}
    (hn : (t.enabledTicks calls).length = n) (hd : t.ticksTo t.currentTick = d)
    (hp : t.ticksTo t.lapStart = p) :
    (t.after calls).currentTick = (if n < d then t.countAfter t.currentTick n
      else t.countAfter t.lapStart ((n - d) % p)) ∧
    (t.resetOnMatch = false → (t.after calls).currentTick = t.countAfter t.currentTick n) ∧
    t.matchCount calls = (if n < d then 0 else (n - d) / p + 1) ∧
    (∀ j < n, (t.enabledTicks calls)[j]? = some (decide (d ≤ j + 1 ∧ p ∣ j + 1 - d))) ∧
    t.after calls =
      { t with
        counterStart := (t.after calls).counterStart
        currentTick := (t.after calls).currentTick
        matched := t.matched || decide (0 < t.matchCount calls)
        matchToggle := Bool.not^[t.matchCount calls] t.matchToggle } := by
  obtain ⟨hafter, hticks⟩ := after_iterate t calls
  have hfirst : Distance (· + t.direction) t.compareAgainst t.currentTick d :=
    hd ▸ distance_ticksTo t t.currentTick
  have hlap : Distance (· + t.direction) t.compareAgainst t.lapStart p :=
    hp ▸ distance_ticksTo t t.lapStart
  rw [hn] at hafter hticks
  refine ⟨?_, fun hplain => ?_, ?_, fun j hj => ?_, after_frame t calls⟩
  · rw [hafter, tickCount, position hfirst hlap, iterate_direction, iterate_direction]
  · rw [hafter, tickCount_of_plain hplain, iterate_direction]
  · rw [ClosedFormLemmas.matchCount_eq, hticks, List.countP_map, ← count_hits hfirst hlap]
    rfl
  · rw [hticks, List.getElem?_map, List.getElem?_range hj, Option.map_some]
    simp only [hits_iff hfirst hlap]

/-- A timer that counts down from 5 to 3, starts over at 0, and wraps. -/
theorem laps_of_timer_down :
    (((default : CompareMatchTimer).setCountForward false |>.setCompareAgainst 3
        |>.setCurrentTick 5).after [.setEnable true, .tick, .tick, .tick]).currentTick = -1 := by
  have h := (laps_of_timer ((default : CompareMatchTimer).setCountForward false
    |>.setCompareAgainst 3 |>.setCurrentTick 5) [.setEnable true, .tick, .tick, .tick]
    rfl rfl rfl).1
  rw [h]
  decide

/-! ## When the timer is due -/

/-- In how many ticks the timer is matched, if it is enabled. -/
def dueIn (t : CompareMatchTimer) : Option Nat :=
  if t.isEnabled then some (if t.matched then 1 else t.ticksTo t.currentTick) else none

namespace EveryTickLemmas

variable {t : CompareMatchTimer}

theorem ticksTo_eq_one_iff (t : CompareMatchTimer) :
    t.ticksTo t.currentTick = 1 ↔ t.nextTick = t.compareAgainst := by
  rw [nextTick_eq]
  have hdistance := distance_ticksTo t t.currentTick
  constructor
  · intro h
    rw [h] at hdistance
    exact hdistance.arrives
  · exact fun h => hdistance.unique (distance_one h)

theorem isDue_iff (t : CompareMatchTimer) : t.isDue = true ↔ t.dueIn = some 1 := by
  have hone := ticksTo_eq_one_iff t
  unfold isDue dueIn
  cases t.isEnabled <;> cases t.matched <;> simp [hone]

theorem ticksTo_nextTick (h : t.nextTick ≠ t.compareAgainst) :
    t.ticksTo t.nextTick = max 1 (t.ticksTo t.currentTick - 1) := by
  rw [nextTick_eq] at h ⊢
  have hstep := (distance_ticksTo t t.currentTick).step h
  rw [← hstep.unique (distance_ticksTo t (t.currentTick + t.direction))]
  exact (Nat.max_eq_right hstep.pos).symm

/-- A timer that is matched stays so, and another is one tick nearer. -/
theorem dueIn_tick (t : CompareMatchTimer) :
    t.tick.2.dueIn = t.dueIn.map fun d => max 1 (d - 1) := by
  cases he : t.isEnabled with
  | false => simp [tick_disabled he, dueIn, he]
  | true =>
    have hstart : ¬ t.counterStart = false := by simpa [isEnabled] using he
    have hdue : t.dueIn = some (if t.matched then 1 else t.ticksTo t.currentTick) := if_pos he
    rw [hdue, tick, if_neg hstart]
    dsimp only
    split
    next hmatch =>
      rw [(ticksTo_eq_one_iff t).mpr hmatch, ite_self]
      exact if_pos he
    next hmatch =>
      have hnext : ({ t with currentTick := t.nextTick } : CompareMatchTimer).dueIn =
          some (if t.matched then 1 else t.ticksTo t.nextTick) := if_pos he
      rw [hnext, ticksTo_nextTick hmatch]
      cases t.matched <;> rfl

theorem dueIn_pos {d : Nat} (h : t.dueIn = some d) : 0 < d := by
  unfold dueIn at h
  split at h
  next =>
    cases h
    split
    next => exact Nat.one_pos
    next => exact (distance_ticksTo t t.currentTick).pos
  next => cases h

theorem dueIn_iterate (t : CompareMatchTimer) (n : Nat) :
    ((fun t => t.tick.2)^[n] t).dueIn = t.dueIn.map fun d => max 1 (d - n) := by
  induction n with
  | zero =>
    rw [Function.iterate_zero_apply]
    cases hd : t.dueIn with
    | none => rfl
    | some d => exact congrArg some (Nat.max_eq_right (dueIn_pos hd)).symm
  | succ n ih =>
    rw [Function.iterate_succ_apply', dueIn_tick, ih, Option.map_map]
    congr 1
    funext d
    simp only [Function.comp_apply]
    omega

/-- The timer is due after `n` ticks, if not before. -/
theorem isDue_iterate (t : CompareMatchTimer) (n : Nat) :
    ((fun t => t.tick.2)^[n] t).isDue = true ↔ ∃ d ≤ n + 1, t.dueIn = some d := by
  rw [isDue_iff, dueIn_iterate]
  cases t.dueIn with
  | none => simp
  | some d =>
    simp only [Option.map_some, Option.some.injEq, exists_eq_right']
    omega

end EveryTickLemmas

end FuguexPeripheral.Backend.CompareMatchTimer
