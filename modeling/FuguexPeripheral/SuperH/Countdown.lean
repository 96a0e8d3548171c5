import FuguexPeripheral.Backend.EveryTick
import FuguexPeripheral.SuperH.Isolation

/-!
# The next interrupt

As long as the firmware leaves the timers to themselves, the next interrupt is settled: the
timer that is nearer to its compare value has it, at the step that gets there, and channel 0
where both are as near.

Results:
1. `arbitrate_idle`: a step with nothing in service.
2. `ready_of_wait`: nothing is triggered before.
3. `next_dispatch`: which step branches, and where to.
-/

namespace FuguexPeripheral.SuperH

open ByteStore Backend Fallible Runs

namespace CompareMatchTimer

open Backend.CompareMatchTimer.EveryTickLemmas

variable {order : HashOrder} {emu : Machine}
  {tr : List (CompareMatchTimer × HookEvent .be)} {p q : CompareMatchTimer}

/-- The steps and accesses of the run leave the timers to themselves, for `n` ticks. -/
def Undisturbed (tr : List (CompareMatchTimer × HookEvent .be)) (n : Nat) : Prop :=
  ∀ i, commands i tr = List.replicate n .tick

/-- Nothing is in service, and an interrupt may be. -/
structure Ready (p : CompareMatchTimer) : Prop where
  idle : ∀ i, (p.int i).isTriggered = false
  enabled : ∃ i, (p.int i).isEnabled = true

namespace CountdownLemmas

theorem arbitrate_idle (l : Lines) (rte : Bool)
    (hidle : l.triggered₀ = false ∧ l.triggered₁ = false)
    (hen : l.enabled₀ = true ∨ l.enabled₁ = true) :
    l.arbitrate rte = ⟨l.due₀, l.due₁,
      if l.due₀ then some .cmt0 else if l.due₁ then some .cmt1 else none⟩ := by
  revert hidle hen
  obtain ⟨d₀, d₁, e₀, e₁, t₀, t₁⟩ := l
  revert d₀ d₁ e₀ e₁ t₀ t₁ rte
  decide

theorem triggered_of_quiet (l : Lines) (rte : Bool)
    (hidle : l.triggered₀ = false ∧ l.triggered₁ = false)
    (hdue : l.due₀ = false ∧ l.due₁ = false) (i : Channel) :
    (l.arbitrate rte).triggered i = false := by
  revert hidle hdue
  obtain ⟨d₀, d₁, e₀, e₁, t₀, t₁⟩ := l
  revert d₀ d₁ e₀ e₁ t₀ t₁ rte
  cases i <;> decide

/-- What a step does where nothing is in service. -/
theorem verdict_of_ready (h : Ready p) (state : PCodeState .be) (address : Address) :
    p.verdict state address = ⟨(p.timer .cmt0).isDue, (p.timer .cmt1).isDue,
      if (p.timer .cmt0).isDue then some .cmt0
        else if (p.timer .cmt1).isDue then some .cmt1 else none⟩ := by
  refine arbitrate_idle p.lines _ ⟨h.idle .cmt0, h.idle .cmt1⟩ ?_
  obtain ⟨_ | _, hi⟩ := h.enabled
  · exact .inl hi
  · exact .inr hi

theorem Wired.run (hp : Wired p) (h : Run (fun p e p' => p.apply order emu e = .ok p') p tr q) :
    Wired q ∧ ∀ i, q.timer i = (commands i tr).foldl obey (p.timer i) :=
  ⟨h.invariant Wired (fun _ _ _ hq hs => (hq.apply hs).1) hp,
    fun i => h.project (fun q : CompareMatchTimer => q.timer i) (command i) obey Wired hp
      (fun _ _ _ hq hs => (hq.apply hs).1) (fun _ _ _ hq hs => (hq.apply hs).2 i)⟩

theorem foldl_replicate_tick (t : Backend.CompareMatchTimer) (n : Nat) :
    (List.replicate n Command.tick).foldl obey t = (fun t => t.tick.2)^[n] t := by
  induction n generalizing t with
  | zero => rfl
  | succ n ih => exact ih t.tick.2

/-- The timers tick on. -/
theorem timer_of_undisturbed (hp : Wired p)
    (h : Run (fun p e p' => p.apply order emu e = .ok p') p tr q) {n : Nat}
    (hn : Undisturbed tr n) (i : Channel) : q.timer i = (fun t => t.tick.2)^[n] (p.timer i) := by
  rw [(Wired.run hp h).2 i, hn i, foldl_replicate_tick]

theorem isInterruptEnabled_iterate (t : Backend.CompareMatchTimer) (n : Nat) :
    ((fun t => t.tick.2)^[n] t).isInterruptEnabled = t.isInterruptEnabled := by
  induction n with
  | zero => rfl
  | succ n ih =>
    rw [Function.iterate_succ_apply', Backend.CompareMatchTimer.tick_frame]
    exact ih

/-- No step of the run finds a timer due. -/
theorem not_due_of_wait {tr₁ tr₂ : List (CompareMatchTimer × HookEvent .be)}
    {r : CompareMatchTimer} {state : PCodeState .be} {address : Address} (hp : Wired p)
    (h : Run (fun p e p' => p.apply order emu e = .ok p') p tr₁ r) {n : Nat}
    (hn : Undisturbed (tr₁ ++ (r, .step state address) :: tr₂) n) (i : Channel)
    (hwait : ∀ d, (p.timer i).dueIn = some d → n < d) : (r.timer i).isDue = false := by
  have hcommands : commands i tr₁ ++ .tick :: commands i tr₂ = List.replicate n .tick := by
    rw [← hn i]
    simp [commands, command]
  obtain ⟨hlength, hbefore, -⟩ := List.append_eq_replicate_iff.mp hcommands
  rw [List.length_cons] at hlength
  rw [← Bool.not_eq_true, (Wired.run hp h).2 i, hbefore, foldl_replicate_tick, isDue_iterate]
  rintro ⟨d, hle, hd⟩
  have hlt := hwait d hd
  omega

theorem ready_of_wait (hp : Wired p) (hready : Ready p)
    (h : Run (fun p e p' => p.apply order emu e = .ok p') p tr q) {n : Nat}
    (hn : Undisturbed tr n) (hwait : ∀ i d, (p.timer i).dueIn = some d → n < d) :
    Ready q := by
  have hidle : ∀ i, (q.int i).isTriggered = false := by
    refine (h.invariant_mem (fun r => ∀ i, (r.int i).isTriggered = false) hready.idle
      fun r e r' hm hr hs i => ?_).1
    cases e with
    | step state address =>
      obtain ⟨tr₁, tr₂, _, rfl, hbefore, _, _⟩ := h.mem hm
      have hdue := fun i => not_due_of_wait hp hbefore hn i (hwait i)
      rw [apply_step (Wired.run hp hbefore).1.handler hs, isTriggered_served, verdict]
      exact triggered_of_quiet r.lines _ ⟨hr .cmt0, hr .cmt1⟩ ⟨hdue .cmt0, hdue .cmt1⟩ i
    | read state address size => exact ((apply_access (by simp) hs).2 i).trans (hr i)
    | write state address size value => exact ((apply_access (by simp) hs).2 i).trans (hr i)
  refine ⟨hidle, ?_⟩
  obtain ⟨i, hi⟩ := hready.enabled
  refine ⟨i, ?_⟩
  rw [(Wired.run hp h).1.enabled, timer_of_undisturbed hp h hn, isInterruptEnabled_iterate,
    ← hp.enabled]
  exact hi

end CountdownLemmas

open CountdownLemmas

/-- From every reachable state with nothing in service and an interrupt enabled, and for every
run that leaves the timers to themselves for `n` ticks, with neither due by then: the step
after it branches if a timer is due after one tick more, to the routine of channel 0 if its
is, and otherwise lets the emulator go on. -/
theorem next_dispatch {tr₀ : List (CompareMatchTimer × HookEvent .be)}
    (hp : Reaches order emu tr₀ p) (hready : Ready p)
    (h : Run (fun p e p' => p.apply order emu e = .ok p') p tr q) {n : Nat}
    (hn : Undisturbed tr n) (hwait : ∀ i d, (p.timer i).dueIn = some d → n < d)
    {state : PCodeState .be} {address : Address} {r : Stepped}
    (hr : q.hookArchitecturalStep emu state address = .ok r) :
    r.outcome.action =
        (if (p.timer .cmt0).dueIn = some (n + 1) then .branch 1 (routine state .cmt0)
          else if (p.timer .cmt1).dueIn = some (n + 1) then .branch 1 (routine state .cmt1)
          else .pass) ∧
      ∀ i, (r.peripheral.int i).isTriggered = decide ((p.timer i).dueIn = some (n + 1)) := by
  have hq := ready_of_wait hp.wired hready h hn hwait
  have hdue : ∀ i, (q.timer i).isDue = decide ((p.timer i).dueIn = some (n + 1)) := by
    intro i
    rw [timer_of_undisturbed hp.wired h hn, Bool.eq_iff_iff, decide_eq_true_eq, isDue_iterate]
    -- due by now, and not before
    constructor
    · rintro ⟨d, hle, hd⟩
      rw [hd, Nat.le_antisymm hle (hwait i d hd)]
    · exact fun hd => ⟨n + 1, le_rfl, hd⟩
  obtain ⟨hper, hout⟩ := hookArchitecturalStep_spec (Wired.run hp.wired h).1.handler hr
  have hverdict := verdict_of_ready hq state address
  rw [verdict] at hverdict
  rw [hverdict, hdue, hdue] at hper hout
  constructor
  · rw [hout, outcome]
    split_ifs <;> simp_all
  · intro i
    rw [hper, isTriggered_served]
    cases i <;> rfl

/-- Both timers are started, and the compare value of channel 1 is the smaller. -/
def race : List (HookEvent .be) :=
  [poke 0xfffec006 [0, 3], poke 0xfffec00c [0, 2], poke 0xfffec002 [0, 0x40], poke addrCmstr [0, 3]]

theorem next_dispatch_race :
    ∃ r, (sample (race ++ [.step plainState 0x10])).2.hookArchitecturalStep plainMachine
        plainState 0x10 = .ok r ∧
      r.outcome.action = .branch 1 (routine plainState .cmt1) := by
  have hwait : ∀ i d, ((sample race).2.timer i).dueIn = some d → 1 < d := by
    rintro (_ | _) d hd
    · obtain rfl : 3 = d := Option.some.inj hd
      decide
    · obtain rfl : 2 = d := Option.some.inj hd
      decide
  have hticks : Undisturbed (tracePartial (apply .insertion plainMachine) (sample race).2
      [.step plainState 0x10]).1 1 := by
    rintro (_ | _) <;> rfl
  have hnext : ∀ r, (sample (race ++ [.step plainState 0x10])).2.hookArchitecturalStep
      plainMachine plainState 0x10 = .ok r → r.outcome.action = .branch 1 _ := fun r hr =>
    (next_dispatch (reaches_sample race) ⟨by rintro (_ | _) <;> rfl, .cmt0, rfl⟩
      (run_tracePartial _ _ _) hticks hwait hr).1
  exact ⟨_, rfl, hnext _ rfl⟩

end CompareMatchTimer

end FuguexPeripheral.SuperH
