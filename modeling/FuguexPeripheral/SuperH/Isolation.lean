import FuguexPeripheral.SuperH.Channels

/-!
# The channels are isolated, up to the interrupts

The timer of a channel runs on the commands of that channel alone, so nothing done to the
other channel reaches it. Whether a matched timer interrupts is another matter: the test
whether interrupts are enabled is one for both channels.

Results:
1. `timer_eq_obey`: the timer of a channel at the end of a run, from its commands.
2. `channels_isolated`: two runs with the same commands to a channel leave its timer and
   its interrupt enable flag alike.
3. `masked_quiet_iff`: a masked channel becomes triggered exactly at a step that finds it
   due and the other channel enabled or in service.
-/

namespace FuguexPeripheral.SuperH

open ByteStore Backend Fallible Runs

namespace CompareMatchTimer

variable {order : HashOrder} {emu : Machine}
  {tr : List (CompareMatchTimer × HookEvent .be)} {p : CompareMatchTimer}

/-! ## The timers -/

/-- The commands of a run to a channel. -/
def commands (i : Channel) (tr : List (CompareMatchTimer × HookEvent .be)) : List Command :=
  tr.filterMap fun x => command i x.2

theorem Reaches.wired (h : Reaches order emu tr p) : Wired p :=
  Run.invariant Wired (fun _ _ _ hq hs => (hq.apply hs).1) h wired_new

/-- The timer of a channel has obeyed its commands, and nothing else. -/
theorem timer_eq_obey (i : Channel) (h : Reaches order emu tr p) :
    p.timer i = (commands i tr).foldl obey (newTimer i) := by
  have hrun := Run.project (fun q : CompareMatchTimer => q.timer i) (command i) obey Wired h
    wired_new (fun _ _ _ hq hs => (hq.apply hs).1) (fun _ _ _ hq hs => (hq.apply hs).2 i)
  cases i <;> exact hrun

/-- For each channel: two runs with the same commands to it, however the maps of the
timers are walked, end with the same timer and the same interrupt enable flag; and in
every reachable state the interrupt is enabled exactly when its timer says so. -/
theorem channels_isolated (i : Channel) :
    (∀ (order₁ order₂ : HashOrder) (emu₁ emu₂ : Machine)
      (tr₁ tr₂ : List (CompareMatchTimer × HookEvent .be)) (p₁ p₂ : CompareMatchTimer),
      Reaches order₁ emu₁ tr₁ p₁ → Reaches order₂ emu₂ tr₂ p₂ →
      commands i tr₁ = commands i tr₂ →
      p₁.timer i = p₂.timer i ∧ (p₁.int i).isEnabled = (p₂.int i).isEnabled) ∧
    (∀ (order : HashOrder) (emu : Machine)
      (tr : List (CompareMatchTimer × HookEvent .be)) (p : CompareMatchTimer),
      Reaches order emu tr p → (p.int i).isEnabled = (p.timer i).isInterruptEnabled) := by
  constructor
  · intro order₁ order₂ emu₁ emu₂ tr₁ tr₂ p₁ p₂ h₁ h₂ hsame
    have htimer : p₁.timer i = p₂.timer i := by
      rw [timer_eq_obey i h₁, timer_eq_obey i h₂, hsame]
    refine ⟨htimer, ?_⟩
    rw [h₁.wired.enabled i, h₂.wired.enabled i, htimer]
  · intro order emu tr p h
    exact h.wired.enabled i

/-- Channel 0 is started, with and without channel 1 and its registers. -/
theorem channels_isolated_start :
    ((sample [poke addrCmstr [0, 1], .step plainState 0x10]).2.timer .cmt0 =
        (sample [poke 0xfffec00c [0, 5], poke addrCmstr [0, 3], .step plainState 0]).2.timer .cmt0 ∧
      ((sample [poke addrCmstr [0, 1], .step plainState 0x10]).2.int .cmt0).isEnabled =
        ((sample [poke 0xfffec00c [0, 5], poke addrCmstr [0, 3],
          .step plainState 0]).2.int .cmt0).isEnabled) :=
  (channels_isolated .cmt0).1 _ _ _ _ _ _ _ _ (reaches_sample _) (reaches_sample _) (by decide)

/-! ## The interrupts -/

/-- The interrupt enable bit of a write to CMCSR. -/
def enableBit (i : Channel) (e : HookEvent .be) : Option Bool :=
  match command i e with
  | some (.control writeVal) => some (decide (writeVal &&& 0x40 ≠ 0))
  | _ => none

/-- The bit that was last written there in a run, which is zero before the first write. -/
def lastEnableBit (i : Channel) (tr : List (CompareMatchTimer × HookEvent .be)) : Bool :=
  (tr.filterMap fun x => enableBit i x.2).foldl (fun _ bit => bit) false

/-- Every step of the run that makes an interrupt triggered finds it enabled, its bit
last written as one. -/
def MaskedQuiet (emu : Machine) (tr : List (CompareMatchTimer × HookEvent .be)) : Prop :=
  ∀ past q state address rest r i, tr = past ++ (q, .step state address) :: rest →
    q.hookArchitecturalStep emu state address = .ok r →
    (q.int i).isTriggered = false → (r.peripheral.int i).isTriggered = true →
    (q.int i).isEnabled = true ∧ lastEnableBit i past = true

/-- Channel `i` is masked and due, no interrupt stands in its way, and the other channel
is enabled or in service. -/
def Leaks (p : CompareMatchTimer) (i : Channel) : Prop :=
  (p.int i).isEnabled = false ∧ (p.timer i).isDue = true ∧
    (p.int i).isTriggered = false ∧ (p.int .cmt0).isTriggered = false ∧
    ((p.int i.other).isEnabled = true ∨ (p.int i.other).isTriggered = true)

namespace IsolationLemmas

/-- When a step makes a masked interrupt triggered. -/
theorem triggered_masked_iff (l : Lines) (rte : Bool) (i : Channel) :
    (l.triggered i = false ∧ (l.arbitrate rte).triggered i = true ∧ l.enabled i = false) ↔
      (l.enabled i = false ∧ l.due i = true ∧ l.triggered i = false ∧ l.triggered .cmt0 = false ∧
        (l.enabled i.other = true ∨ l.triggered i.other = true)) := by
  obtain ⟨d₀, d₁, e₀, e₁, t₀, t₁⟩ := l
  revert d₀ d₁ e₀ e₁ t₀ t₁ rte
  cases i <;> decide

theorem isInterruptEnabled_obey (t : Backend.CompareMatchTimer) (c : Command) :
    (obey t c).isInterruptEnabled =
      match c with
      | .control writeVal => decide (writeVal &&& 0x40 ≠ 0)
      | _ => t.isInterruptEnabled := by
  cases c with
  | tick =>
    rw [obey, Backend.CompareMatchTimer.tick_frame]
    rfl
  | start on => rfl
  | control writeVal => rfl
  | counter writeVal => rfl
  | compare writeVal => rfl

/-- An interrupt is enabled as its bit was last written. -/
theorem isEnabled_eq_lastEnableBit (i : Channel) (h : Reaches order emu tr p) :
    (p.int i).isEnabled = lastEnableBit i tr := by
  have hrun := Run.project (fun q : CompareMatchTimer => (q.int i).isEnabled) (enableBit i)
    (fun _ bit => bit) Wired h wired_new (fun _ _ _ hq hs => (hq.apply hs).1) (fun q e r hq hs => by
      obtain ⟨hr, htimer⟩ := hq.apply hs
      rw [hr.enabled, htimer, hq.enabled, enableBit]
      cases hc : command i e with
      | none => rfl
      | some c =>
        rw [Option.elim_some, isInterruptEnabled_obey]
        cases c <;> rfl)
  cases i <;> exact hrun

end IsolationLemmas

open IsolationLemmas

/-- For every run: every interrupt that becomes triggered is enabled, exactly when no
step of the run finds a masked channel that is due with the other enabled or in
service. -/
theorem masked_quiet_iff (h : Reaches order emu tr p) :
    MaskedQuiet emu tr ↔
      ∀ q state address i, (q, .step state address) ∈ tr → ¬ q.Leaks i := by
  have hiff : ∀ q state address r i, (q, .step state address) ∈ tr →
      q.hookArchitecturalStep emu state address = .ok r →
      (((q.int i).isTriggered = false ∧ (r.peripheral.int i).isTriggered = true ∧
        (q.int i).isEnabled = false) ↔ q.Leaks i) := by
    intro q state address r i hm hr
    have harb := triggered_masked_iff q.lines (state.readU32 address == instRte) i
    rw [(hookArchitecturalStep_spec (Reaches.handler_of_mem h hm) hr).1, isTriggered_served]
    simpa [Leaks] using harb
  constructor
  · intro hquiet q state address i hm hleak
    obtain ⟨past, rest, _, htr, _, happly, _⟩ := h.mem hm
    obtain ⟨r, hr, _⟩ := exists_of_bind_eq_ok happly
    obtain ⟨hoff, hon, hmask⟩ := (hiff q state address r i hm hr).mpr hleak
    rw [(hquiet past q state address rest r i htr hr hoff hon).1] at hmask
    cases hmask
  · rintro hnone past q state address rest r i rfl hr hoff hon
    have hm : (q, HookEvent.step state address) ∈ past ++ (q, .step state address) :: rest := by
      simp
    have henabled : (q.int i).isEnabled = true := by
      by_contra hmask
      rw [Bool.not_eq_true] at hmask
      exact hnone q state address i hm ((hiff q state address r i hm hr).mp ⟨hoff, hon, hmask⟩)
    exact ⟨henabled, (isEnabled_eq_lastEnableBit i (Run.at h).1).symm.trans henabled⟩

/-- Channel 1 alone. -/
theorem masked_quiet_iff_start :
    MaskedQuiet plainMachine (sample [poke addrCmstr [0, 2], .step plainState 0x10]).1 ↔
      ∀ q state address i,
        (q, .step state address) ∈ (sample [poke addrCmstr [0, 2], .step plainState 0x10]).1 →
        ¬ q.Leaks i :=
  masked_quiet_iff (reaches_sample _)

/-- The interrupt of channel 1 is enabled, and channel 0 matches. -/
def otherEnabled : List (HookEvent .be) :=
  [poke 0xfffec008 [0, 0x40], poke 0xfffec006 [0, 1], poke addrCmstr [0, 1],
    .step plainState 0x10]

/-- Channel 0 interrupts, although its enable bit was never set. -/
theorem otherEnabled_not_quiet : ¬ MaskedQuiet plainMachine (sample otherEnabled).1 := by
  intro h
  have hen := (h ((sample otherEnabled).1.take 3) (sample (otherEnabled.take 3)).2 plainState 0x10
    [] _ .cmt0 rfl rfl (by decide) (by decide)).1
  exact absurd hen (by decide)

end CompareMatchTimer

end FuguexPeripheral.SuperH
