import FuguexPeripheral.SuperH.Countdown
import FuguexPeripheral.SuperH.EveryMatch

/-!
# The interrupt as a clock

Firmware that keeps to the protocol may use channel 0 as a clock: the handler clears the match
flag and returns, with the word that the step takes for a return, and nobody writes the count,
the compare value or the start bit. The interrupts then come at a fixed distance, however long
the run is and whatever is done in between.

Results:
1. `foldl_obey_free`: the timer on commands that leave its count alone.
2. `isMatch_of_free`: at which steps of a run it matches.
3. `dispatch_every_lap`: which steps branch, and how many.
-/

namespace FuguexPeripheral.SuperH

open ByteStore Backend Fallible Runs Laps

/-- The command leaves the count, the compare value and the start bit of a started timer. -/
def Command.keepsCount : Command → Bool
  | .tick => true
  | .start on => on
  | .control _ => true
  | .counter _ => false
  | .compare _ => false

namespace CompareMatchTimer

open Backend.CompareMatchTimer.EveryTickLemmas EveryMatchLemmas

variable {order : HashOrder} {emu : Machine}
  {tr₀ tr : List (CompareMatchTimer × HookEvent .be)} {p q : CompareMatchTimer}

/-- Nothing in the run interferes with the count of channel 0. -/
def FreeRunning (tr : List (CompareMatchTimer × HookEvent .be)) : Prop :=
  ∀ c ∈ commands .cmt0 tr, c.keepsCount = true

/-- The timer `u` is started, and its laps are those of `t`. -/
structure SameLaps (t u : Backend.CompareMatchTimer) : Prop where
  enabled : u.isEnabled = true
  mark : u.compareAgainst = t.compareAgainst
  restarts : u.resetOnMatch = t.resetOnMatch
  forward : u.countForward = t.countForward

namespace CadenceLemmas

/-! ## The timer on its own -/

variable {t u : Backend.CompareMatchTimer}

/-- No command changes how the timer counts. -/
theorem obey_mode (t : Backend.CompareMatchTimer) (c : Command) :
    (obey t c).resetOnMatch = t.resetOnMatch ∧ (obey t c).countForward = t.countForward := by
  cases c with
  | tick =>
    rw [obey, Backend.CompareMatchTimer.tick_frame]
    exact ⟨rfl, rfl⟩
  | start on => exact ⟨rfl, rfl⟩
  | control writeVal => exact ⟨rfl, rfl⟩
  | counter writeVal => exact ⟨rfl, rfl⟩
  | compare writeVal => exact ⟨rfl, rfl⟩

theorem direction_eq (h : SameLaps t u) : u.direction = t.direction := by
  rw [Backend.CompareMatchTimer.direction, h.forward]
  rfl

theorem tickCount_eq (h : SameLaps t u) : u.tickCount = t.tickCount := by
  unfold Backend.CompareMatchTimer.tickCount Backend.CompareMatchTimer.lapStart
  rw [direction_eq h, h.mark, h.restarts]

/-- A tick of the timer is a step of its count, and another command none. -/
theorem sameLaps_obey {c : Command} (h : SameLaps t u) (hc : c.keepsCount = true) :
    SameLaps t (obey u c) ∧
      (obey u c).currentTick = t.tickCount^[[c].count .tick] u.currentTick := by
  obtain ⟨hrestarts, hforward⟩ := obey_mode u c
  have hmode : (obey u c).isEnabled = true →
      (obey u c).compareAgainst = u.compareAgainst → SameLaps t (obey u c) :=
    fun hen hmark => ⟨hen, hmark.trans h.mark, hrestarts.trans h.restarts,
      hforward.trans h.forward⟩
  cases c with
  | tick =>
    refine ⟨hmode ?_ ?_, ?_⟩
    · rw [obey, Backend.CompareMatchTimer.tick_frame]
      exact h.enabled
    · rw [obey, Backend.CompareMatchTimer.tick_frame]
      rfl
    · exact (tick_of_enabled h.enabled).2.trans (congrFun (tickCount_eq h) _)
  | start on => exact ⟨hmode hc rfl, rfl⟩
  | control writeVal => exact ⟨hmode h.enabled rfl, rfl⟩
  | counter writeVal => cases hc
  | compare writeVal => cases hc

theorem foldl_obey_free (cs : List Command) (h : SameLaps t u)
    (hcs : ∀ c ∈ cs, c.keepsCount = true) :
    SameLaps t (cs.foldl obey u) ∧
      (cs.foldl obey u).currentTick = t.tickCount^[cs.count .tick] u.currentTick := by
  induction cs generalizing u with
  | nil => exact ⟨h, rfl⟩
  | cons c cs ih =>
    obtain ⟨hkept, hcount⟩ := sameLaps_obey h (hcs c List.mem_cons_self)
    obtain ⟨hlaps, htick⟩ := ih hkept fun c' hc' => hcs c' (List.mem_cons_of_mem _ hc')
    refine ⟨hlaps, ?_⟩
    rw [List.foldl_cons, htick, hcount, ← Function.iterate_add_apply, ← List.count_append]
    exact congrArg (fun n => t.tickCount^[n] u.currentTick) (List.perm_append_comm.count_eq _)

/-- In every reachable state the timers start over. -/
theorem restarts_of_run (i : Channel) (h : Reaches order emu tr p) :
    (p.timer i).resetOnMatch = true := by
  have hnew : (newTimer i).resetOnMatch = true := by cases i <;> rfl
  rw [timer_eq_obey i h]
  exact List.foldlRecOn (motive := fun t => t.resetOnMatch = true) (commands i tr) obey hnew
    fun t ht c _ => (obey_mode t c).1.trans ht

/-! ## The steps of the run -/

theorem command_eq_tick_iff (i : Channel) (x : CompareMatchTimer × HookEvent .be) :
    command i x.2 = some .tick ↔ isStep x = true := by
  obtain ⟨q, e⟩ := x
  constructor
  · intro htick
    cases e with
    | step state address => rfl
    | read state address size => cases htick
    | write state address size value => exact absurd htick (command_ne_tick (by simp) i)
  · intro hstep
    cases e with
    | step state address => rfl
    | read state address size => cases hstep
    | write state address size value => cases hstep

theorem count_tick_commands (i : Channel) (tr : List (CompareMatchTimer × HookEvent .be)) :
    (commands i tr).count .tick = tr.countP isStep := by
  rw [List.count, commands, List.countP_filterMap]
  refine List.countP_congr fun x _ => ?_
  rw [← command_eq_tick_iff i x]
  cases command i x.2 <;> simp

/-- The timer matches at the steps that end a lap. -/
theorem isMatch_of_free {past rest : List (CompareMatchTimer × HookEvent .be)}
    {x : CompareMatchTimer × HookEvent .be} (hp : Wired p)
    (h : Run (fun p e p' => p.apply order emu e = .ok p') p (past ++ x :: rest) q)
    (hfree : FreeRunning (past ++ x :: rest)) (hen : (p.timer .cmt0).isEnabled = true) :
    isMatch x = (isStep x && decide (Hits (· + (p.timer .cmt0).direction)
      (p.timer .cmt0).compareAgainst (p.timer .cmt0).lapStart (p.timer .cmt0).currentTick
      (past.countP isStep))) := by
  obtain ⟨q, e⟩ := x
  cases e with
  | read state address size => rfl
  | write state address size value => rfl
  | step state address =>
    have hrun := (CountdownLemmas.Wired.run hp h.at.1).2 .cmt0
    have hpast : ∀ c ∈ commands .cmt0 past, c.keepsCount = true := fun c hc =>
      hfree c (by
        rw [commands, List.filterMap_append]
        exact List.mem_append_left _ hc)
    obtain ⟨hlaps, hcount⟩ :=
      foldl_obey_free (commands .cmt0 past) (SameLaps.mk hen rfl rfl rfl) hpast
    rw [← hrun] at hlaps hcount
    rw [count_tick_commands] at hcount
    have htick := (tick_of_enabled hlaps.enabled).1
    rw [direction_eq hlaps, hlaps.mark, hcount] at htick
    exact htick

end CadenceLemmas

open CadenceLemmas

/-- From every reachable state with channel 0 started, interrupt 1 not triggered, and interrupt
0 triggered if the match flag is set, in every run of firmware that keeps to the protocol and
leaves the count to itself: it takes `d` steps to the first interrupt and `c` from each to the
next, and no other step branches. -/
theorem dispatch_every_lap (hp : Reaches order emu tr₀ p) (hpending : Pending p)
    (h : Run (fun p e p' => p.apply order emu e = .ok p') p tr q) (hfirm : Prompt tr)
    (hfree : FreeRunning tr) (hen : (p.timer .cmt0).isEnabled = true) {d c : Nat}
    (hd : (p.timer .cmt0).ticksTo (p.timer .cmt0).currentTick = d)
    (hc : (p.timer .cmt0).ticksTo 0 = c) :
    (∀ past u state address rest r, tr = past ++ (u, .step state address) :: rest →
      u.hookArchitecturalStep emu state address = .ok r →
        r.outcome.action =
          if d ≤ past.countP isStep + 1 ∧ c ∣ past.countP isStep + 1 - d then
            .branch 1 (routine state .cmt0)
          else .pass) ∧
    ∀ n, tr.countP isStep = n →
      tr.countP (isDispatch emu) = if n < d then 0 else (n - d) / c + 1 := by
  have hfirst := hd ▸ distance_ticksTo (p.timer .cmt0) (p.timer .cmt0).currentTick
  have hlap := hc ▸ distance_ticksTo (p.timer .cmt0) 0
  have hbase : (p.timer .cmt0).lapStart = 0 := if_pos (restarts_of_run .cmt0 hp)
  -- the timer has ticked once at each step before `x`, and nothing else has moved its count
  have hhits : ∀ past x rest, tr = past ++ x :: rest → isMatch x = (isStep x &&
      decide (Hits (· + (p.timer .cmt0).direction) (p.timer .cmt0).compareAgainst 0
        (p.timer .cmt0).currentTick (past.countP isStep))) := by
    rintro past x rest rfl
    rw [isMatch_of_free hp.wired h hfree hen, hbase]
  constructor
  · intro past u state address rest r htr hr
    have hmem : (u, HookEvent.step state address) ∈ tr := by simp [htr]
    obtain ⟨hw, hu⟩ := (pending_of_run hp.wired hpending h hfirm).2 u _ hmem
    have hmatch : (u.timer .cmt0).tick.1 = decide (Hits _ _ _ _ _) := hhits past _ rest htr
    rw [action_of_match hw hu hfirm hmem hr, hmatch]
    simp only [hits_iff hfirst hlap, decide_eq_true_eq]
  · rintro n rfl
    have hdispatch : tr.countP (isDispatch emu) = tr.countP isMatch :=
      List.countP_congr fun x hm => by
        rw [isDispatch_eq_isMatch hp.wired hpending h hfirm hm]
    rw [hdispatch, countP_eq_count tr hhits, count_hits hfirst hlap]

/-- Four steps with the compare value 2. -/
theorem dispatch_every_lap_paced :
    (tracePartial (apply .insertion plainMachine) (sample (paced.take 3)).2
      (paced.drop 3)).1.countP (isDispatch plainMachine) = 2 := by
  have hfree : FreeRunning (tracePartial (apply .insertion plainMachine)
      (sample (paced.take 3)).2 (paced.drop 3)).1 := by
    unfold FreeRunning
    decide
  exact (dispatch_every_lap (reaches_sample (paced.take 3)) ⟨rfl, by decide⟩
    (run_tracePartial _ _ _)
    ⟨by decide, by decide, by decide, by decide⟩ hfree rfl rfl rfl).2 4 rfl

end CompareMatchTimer

end FuguexPeripheral.SuperH
