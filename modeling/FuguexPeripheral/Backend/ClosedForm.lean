import FuguexPeripheral.Backend.CompareMatchTimer
import FuguexPeripheral.Divider
import FuguexPeripheral.Runs

/-!
# The timer in closed form

While it counts forward, the timer is a frequency divider of its enabled ticks: with
`reset_on_match` it starts over at the compare value, without it counts on. Enabling and
disabling it only decides which ticks count.

Results:
1. `after_frame`: what a run changes, for every timer.
2. `after_schedule`, `after_reset`: a run of a timer on a schedule, in terms of the schedule,
   and on the one with a restart.
3. `closed_form`: the two schedules of the timer.
-/

namespace FuguexPeripheral.Backend.CompareMatchTimer

/-! ## Runs -/

inductive TimerCall
  | tick
  | setEnable (val : Bool)
  deriving DecidableEq, Repr

def call (t : CompareMatchTimer) : TimerCall → CompareMatchTimer
  | .tick => t.tick.2
  | .setEnable val => t.setEnable val

def after (t : CompareMatchTimer) (calls : List TimerCall) : CompareMatchTimer :=
  calls.foldl call t

/-- For every tick, whether the timer was enabled and what the tick returned. -/
def ticks (t : CompareMatchTimer) : List TimerCall → List (Bool × Bool)
  | [] => []
  | .tick :: calls => (t.isEnabled, t.tick.1) :: ticks t.tick.2 calls
  | .setEnable val :: calls => ticks (t.setEnable val) calls

/-- What the ticks made while enabled returned. -/
def enabledTicks (t : CompareMatchTimer) (calls : List TimerCall) : List Bool :=
  ((t.ticks calls).filter (·.1)).map (·.2)

/-- The number of ticks that returned true. -/
def matchCount (t : CompareMatchTimer) (calls : List TimerCall) : Nat :=
  (t.ticks calls).countP (·.2)

/-! ## What a run changes -/

namespace ClosedFormLemmas

theorem advanced_advanced (t : CompareMatchTimer) (s s' : Bool) (v w : BitVec 128) (g h : Nat) :
    (t.advanced s v g).advanced s' w h = t.advanced s' w (g + h) := by
  have hmatched : (t.matched || decide (0 < g) || decide (0 < h)) =
      (t.matched || decide (0 < g + h)) := by
    rw [Bool.or_assoc, ← Bool.decide_or]
    simp
  have htoggle : Bool.not^[h] (Bool.not^[g] t.matchToggle) = Bool.not^[g + h] t.matchToggle := by
    rw [Nat.add_comm, Function.iterate_add_apply]
  simp only [advanced, hmatched, htoggle]

theorem matchCount_tick (t : CompareMatchTimer) (calls : List TimerCall) :
    t.matchCount (.tick :: calls) = t.tick.1.toNat + t.tick.2.matchCount calls := by
  rw [matchCount, ticks, List.countP_cons, Nat.add_comm]
  cases t.tick.1 <;> rfl

theorem enabledTicks_tick {t : CompareMatchTimer} (calls : List TimerCall)
    (he : t.isEnabled = true) :
    t.enabledTicks (.tick :: calls) = t.tick.1 :: t.tick.2.enabledTicks calls := by
  simp [enabledTicks, ticks, he]

theorem enabledTicks_tick_disabled {t : CompareMatchTimer} (calls : List TimerCall)
    (he : t.isEnabled = false) : t.enabledTicks (.tick :: calls) = t.enabledTicks calls := by
  simp [enabledTicks, ticks, he, tick_disabled he]

/-- Only the ticks made while enabled return true. -/
theorem matchCount_eq (t : CompareMatchTimer) (calls : List TimerCall) :
    t.matchCount calls = (t.enabledTicks calls).countP id := by
  induction calls generalizing t with
  | nil => rfl
  | cons c calls ih =>
    cases c with
    | setEnable val => exact ih (t.setEnable val)
    | tick =>
      rw [matchCount_tick, ih]
      cases he : t.isEnabled with
      | false => simp [enabledTicks_tick_disabled calls he, tick_disabled he]
      | true =>
        rw [enabledTicks_tick calls he, List.countP_cons, Nat.add_comm]
        cases t.tick.1 <;> rfl

end ClosedFormLemmas

open ClosedFormLemmas

/-- Ticks and enable changes touch the enable flag, the count and the match flags. -/
theorem after_frame (t : CompareMatchTimer) (calls : List TimerCall) :
    t.after calls = t.advanced (t.after calls).counterStart (t.after calls).currentTick
      (t.matchCount calls) := by
  induction calls generalizing t with
  | nil => simp [after, advanced, matchCount, ticks]
  | cons c calls ih =>
    cases c with
    | setEnable val => exact ih (t.setEnable val)
    | tick =>
      have hrun : t.after (.tick :: calls) = t.tick.2.after calls := rfl
      rw [hrun, matchCount_tick, ← advanced_advanced t t.counterStart _ t.tick.2.currentTick,
        ← tick_frame]
      exact ih t.tick.2

/-! ## Schedules -/

/-- A schedule for the compare value `c`: at position `m` the timer shows `value m`, and
`hit` says at which positions it matches. -/
structure Schedule (c : Nat) (reset : Bool) (value : Nat → Nat) (hit : Nat → Bool) (m : Nat) :
    Prop where
  fits : value m + 1 < 2 ^ 128
  hit_eq : hit (m + 1) = decide (value m + 1 = c)
  next : value (m + 1) = if hit (m + 1) && reset then 0 else value m + 1

/-- A run of a timer on a schedule, in terms of the schedule. -/
theorem after_schedule {value : Nat → Nat} {hit : Nat → Bool} (t : CompareMatchTimer)
    (calls : List TimerCall) (m : Nat) (hf : t.countForward = true)
    (hv : t.currentTick.toNat = value m)
    (h : ∀ k, k < (t.enabledTicks calls).length →
      Schedule t.compareAgainst.toNat t.resetOnMatch value hit (m + k)) :
    t.enabledTicks calls =
        (List.range (t.enabledTicks calls).length).map (fun j => hit (m + j + 1)) ∧
      (t.after calls).currentTick.toNat = value (m + (t.enabledTicks calls).length) := by
  induction calls generalizing t m with
  | nil => exact ⟨rfl, hv⟩
  | cons c calls ih =>
    cases c with
    | setEnable val => exact ih (t.setEnable val) m hf hv h
    | tick =>
      have hrun : t.after (.tick :: calls) = t.tick.2.after calls := rfl
      rw [hrun]
      cases he : t.isEnabled with
      | false =>
        rw [enabledTicks_tick_disabled calls he] at h ⊢
        rw [tick_disabled he]
        exact ih t m hf hv h
      | true =>
        rw [enabledTicks_tick calls he, List.length_cons] at h ⊢
        have h₀ : Schedule _ _ value hit m := h 0 (by omega)
        obtain ⟨hhit, hcount⟩ := tick_enabled he hf (by rw [hv]; exact h₀.fits)
        rw [hv, ← h₀.hit_eq] at hhit
        rw [hv, hhit, ← h₀.next] at hcount
        -- the timer is now at position `m + 1` of the same schedule
        have hframe := tick_frame t
        obtain ⟨hticks, hafter⟩ := ih t.tick.2 (m + 1) (by rw [hframe]; exact hf) hcount
          (fun k hk => by
            have hk := h (k + 1) (by omega)
            rw [hframe]
            rwa [Nat.add_comm k, ← Nat.add_assoc] at hk)
        constructor
        · rw [List.range_succ_eq_map, List.map_cons, List.map_map, hhit]
          refine congrArg (_ :: ·) (hticks.trans (List.map_congr_left fun j _ => ?_))
          exact congrArg hit (by omega)
        · exact hafter.trans (congrArg value (by omega))

/-- With a restart, the timer shows the position modulo the compare value. -/
theorem schedule_reset {c : Nat} (hc : 0 < c) (hlt : c < 2 ^ 128) (m : Nat) :
    Schedule c true (fun m => m % c) (fun m => decide (c ∣ m)) m where
  fits := by
    have hmod := Nat.mod_lt m hc
    omega
  hit_eq := by simp only [Divider.mod_add_one_eq_iff hc]
  next := by simp only [Divider.mod_succ hc, Bool.and_true, decide_eq_true_iff,
    Divider.mod_add_one_eq_iff hc]

/-- Without one, it shows the position. -/
theorem schedule_plain {c m : Nat} (hfits : m + 1 < 2 ^ 128) :
    Schedule c false (fun m => m) (fun m => decide (m = c)) m where
  fits := hfits
  hit_eq := rfl
  next := by simp

/-! ## The closed form -/

/-- A timer that starts over, after any number of ticks made while enabled. -/
theorem after_reset (t : CompareMatchTimer) (calls : List TimerCall) {c t₀ : Nat}
    (hforward : t.countForward = true) (hreset : t.resetOnMatch = true)
    (hcompare : t.compareAgainst.toNat = c) (hpos : 1 ≤ c) (hstart : t.currentTick.toNat = t₀)
    (hlt : t₀ < c) :
    (t.after calls).currentTick.toNat = (t₀ + (t.enabledTicks calls).length) % c ∧
      t.matchCount calls = (t₀ + (t.enabledTicks calls).length) / c ∧
      t.enabledTicks calls = (List.range (t.enabledTicks calls).length).map fun j =>
        decide (c ∣ t₀ + j + 1) := by
  have hc : c < 2 ^ 128 := hcompare ▸ t.compareAgainst.isLt
  obtain ⟨hticks, hafter⟩ := after_schedule t calls t₀ hforward
    (hstart.trans (Nat.mod_eq_of_lt hlt).symm) (fun k _ => by
      rw [hcompare, hreset]
      exact schedule_reset hpos hc (t₀ + k))
  refine ⟨hafter, ?_, hticks⟩
  generalize (t.enabledTicks calls).length = n at hticks
  rw [matchCount_eq, hticks, List.countP_map, ← Nat.sub_zero ((t₀ + n) / c),
    ← Nat.div_eq_of_lt hlt, ← Divider.count_dvd]
  rfl

/-- For every sequence of ticks and enable changes with `n` ticks made while enabled: the
count, the matches and the answers of the ticks, with and without a restart, and what
stays as it was. -/
theorem closed_form (t : CompareMatchTimer) (calls : List TimerCall) (c t₀ n : Nat)
    (hforward : t.countForward = true) (hcompare : t.compareAgainst.toNat = c) (hpos : 1 ≤ c)
    (hstart : t.currentTick.toNat = t₀) (hlt : t₀ < c) (hn : (t.enabledTicks calls).length = n)
    (hfits : t₀ + n < 2 ^ 128) :
    (t.resetOnMatch = true →
      (t.after calls).currentTick.toNat = (t₀ + n) % c ∧
      t.matchCount calls = (t₀ + n) / c ∧
      (∀ j, 1 ≤ j → j ≤ n → (t.enabledTicks calls)[j - 1]? = some (decide (c ∣ t₀ + j)))) ∧
    (t.resetOnMatch = false →
      (t.after calls).currentTick.toNat = t₀ + n ∧
      t.matchCount calls = (if c ≤ t₀ + n then 1 else 0)) ∧
    t.after calls =
      { t with
        counterStart := (t.after calls).counterStart
        currentTick := (t.after calls).currentTick
        matched := t.matched || decide (0 < t.matchCount calls)
        matchToggle := Bool.not^[t.matchCount calls] t.matchToggle } ∧
    (∀ q, (q, .tick) ∈ Runs.trace call t calls → q.isEnabled = false → q.tick = (false, q)) := by
  refine ⟨fun hreset => ?_, fun hreset => ?_, after_frame t calls, fun q _ h => tick_disabled h⟩
  · obtain ⟨hafter, hmatches, hticks⟩ :=
      after_reset t calls hforward hreset hcompare hpos hstart hlt
    rw [hn] at hafter hmatches hticks
    refine ⟨hafter, hmatches, fun j hj hjn => ?_⟩
    rw [hticks, List.getElem?_map, List.getElem?_range (by omega), Option.map_some,
      Nat.add_assoc, Nat.sub_add_cancel hj]
  · obtain ⟨hticks, hafter⟩ := after_schedule t calls t₀ hforward hstart (fun k hk => by
        rw [hcompare, hreset]
        exact schedule_plain (by omega))
    rw [hn] at hticks hafter
    refine ⟨hafter, ?_⟩
    rw [matchCount_eq, hticks, List.countP_map, ← Divider.count_eq hlt]
    rfl

/-- The compare value 2 and three enabled ticks, with a disabled one between. -/
theorem closed_form_two :
    ((default : CompareMatchTimer).setCompareAgainst 2 |>.after
        [.setEnable true, .tick, .tick, .setEnable false, .tick, .setEnable true, .tick]
      ).currentTick.toNat = (0 + 3) % 2 ∧
    ((default : CompareMatchTimer).setCompareAgainst 2 |>.matchCount
        [.setEnable true, .tick, .tick, .setEnable false, .tick, .setEnable true, .tick]) =
      (0 + 3) / 2 := by
  have h := (closed_form ((default : CompareMatchTimer).setCompareAgainst 2)
    [.setEnable true, .tick, .tick, .setEnable false, .tick, .setEnable true, .tick] 2 0 3
    rfl rfl (by decide) rfl (by decide) rfl (by decide)).1 rfl
  exact ⟨h.1, h.2.1⟩

end FuguexPeripheral.Backend.CompareMatchTimer
