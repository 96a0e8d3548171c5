import FuguexPeripheral.Backend.Flags
import FuguexPeripheral.SuperH.Balance
import FuguexPeripheral.SuperH.Isolation

/-!
# An interrupt for every match

Firmware that keeps to the protocol clears the match flag in its handler, returns once the
flag is clear, and has returned before the next match. Channel 0 then interrupts once for
every match. Channel 1 does not: its return is passed over where the flag is clear.

A return is what the step takes for one, the four bytes of `instRte`, and the handler has
returned when its triggered flag is clear. The `RTE` of the processor has two bytes and never
clears the flag, so firmware with that one does not keep to this protocol.

Results:
1. `pending_of_run`: all through a run, a match that is not cleared is in service.
2. `dispatch_of_match`: the steps that branch are those with a match of channel 0.
3. `stuck_of_cmt1`: once channel 1 is in service, nothing is dispatched any more.
-/

namespace FuguexPeripheral.SuperH

open ByteStore Backend Fallible Runs

namespace CompareMatchTimer

variable {order : HashOrder} {emu : Machine}
  {tr : List (CompareMatchTimer × HookEvent .be)} {p q : CompareMatchTimer}

/-! ## Channel 0 -/

/-- The timer of channel 0 gets to its compare value at the step. -/
def isMatch : CompareMatchTimer × HookEvent .be → Bool
  | (q, .step _ _) => (q.timer .cmt0).tick.1
  | _ => false

def isStep : CompareMatchTimer × HookEvent .be → Bool
  | (_, .step _ _) => true
  | _ => false

/-- Channel 1 is never due and interrupts are enabled; interrupt 0 is not triggered any more
when its timer matches, and the match flag is clear at a step on the word `instRte`, the only
one that clears a triggered flag. -/
structure Prompt (tr : List (CompareMatchTimer × HookEvent .be)) : Prop where
  alone : ∀ x ∈ tr, isStep x = true → (x.1.timer .cmt1).isDue = false
  enabled : ∀ x ∈ tr, isStep x = true →
    (x.1.int .cmt0).isEnabled = true ∨ (x.1.int .cmt1).isEnabled = true
  returned : ∀ x ∈ tr, isMatch x = true → (x.1.int .cmt0).isTriggered = false
  cleared : ∀ x ∈ tr, isRte x = true → (x.1.timer .cmt0).matched = false

/-- Channel 1 is not in service, and channel 0 is where its match flag is set. -/
structure Pending (p : CompareMatchTimer) : Prop where
  other : (p.int .cmt1).isTriggered = false
  serves : (p.timer .cmt0).matched = true → (p.int .cmt0).isTriggered = true

namespace EveryMatchLemmas

/-- What a step does for channel 0 alone. -/
theorem arbitrate_alone (l : Lines) (rte : Bool) (hdue : l.due₁ = false)
    (hidle : l.triggered₁ = false) (hen : l.enabled₀ = true ∨ l.enabled₁ = true) :
    l.arbitrate rte =
      if l.triggered₀ then ⟨!rte, false, none⟩
      else ⟨l.due₀, false, if l.due₀ then some .cmt0 else none⟩ := by
  revert hdue hidle hen
  obtain ⟨d₀, d₁, e₀, e₁, t₀, t₁⟩ := l
  revert d₀ d₁ e₀ e₁ t₀ t₁ rte
  decide

theorem verdict_alone (hq : Pending q) {state : PCodeState .be} {address : Address}
    (hfirm : Prompt tr) (hm : (q, .step state address) ∈ tr) :
    q.verdict state address =
      if (q.int .cmt0).isTriggered then ⟨!(state.readU32 address == instRte), false, none⟩
      else ⟨(q.timer .cmt0).isDue, false,
        if (q.timer .cmt0).isDue then some .cmt0 else none⟩ := by
  exact arbitrate_alone q.lines _ (hfirm.alone _ hm rfl) hq.other (hfirm.enabled _ hm rfl)

theorem matched_tick (t : Backend.CompareMatchTimer) :
    t.tick.2.matched = (t.matched || t.tick.1) := by
  rw [Backend.CompareMatchTimer.tick_frame]
  cases t.tick.1 <;> rfl

/-- A timer whose flag is clear is due where it matches. -/
theorem isDue_of_clear {t : Backend.CompareMatchTimer} (h : t.matched = false) :
    t.isDue = t.tick.1 := by
  rw [Bool.eq_iff_iff, Backend.CompareMatchTimer.FlagsLemmas.tick_fst_iff,
    Backend.CompareMatchTimer.isDue, h]
  simp

/-- Only a tick sets the match flag. -/
theorem matched_of_obey {t : Backend.CompareMatchTimer} {c : Command} (hc : c ≠ .tick)
    (h : (obey t c).matched = true) : t.matched = true := by
  cases c with
  | tick => exact absurd rfl hc
  | control writeVal => exact (Bool.and_eq_true _ _ ▸ h).1
  | start on => exact h
  | counter writeVal => exact h
  | compare writeVal => exact h

theorem command_ne_tick {e : HookEvent .be} (he : ∀ state address, e ≠ .step state address)
    (i : Channel) : command i e ≠ some .tick := by
  cases e with
  | step state address => exact absurd rfl (he state address)
  | read state address size => exact nofun
  | write state address size value =>
    show writeCommand i address _ ≠ _
    unfold writeCommand
    split_ifs <;> simp

theorem pending_access {e : HookEvent .be} (he : ∀ state address, e ≠ .step state address)
    (hw : Wired q) (hq : Pending q) {r : CompareMatchTimer}
    (hs : q.apply order emu e = .ok r) : Pending r := by
  have hint := (apply_access he hs).2
  refine ⟨(hint .cmt1).trans hq.other, fun hm => (hint .cmt0).trans (hq.serves ?_)⟩
  rw [(hw.apply hs).2] at hm
  have hc := command_ne_tick he .cmt0
  cases hcommand : command .cmt0 e with
  | none => rwa [hcommand] at hm
  | some c =>
    rw [hcommand] at hm hc
    exact matched_of_obey (fun h => hc (congrArg some h)) hm

theorem clear_of_idle (hq : Pending q) (ht : (q.int .cmt0).isTriggered = false) :
    (q.timer .cmt0).matched = false := by
  rw [← Bool.not_eq_true]
  intro hset
  rw [hq.serves hset] at ht
  cases ht

/-- No match while an interrupt waits or is served. -/
theorem no_match_of_triggered {state : PCodeState .be} {address : Address} (hfirm : Prompt tr)
    (hm : (q, .step state address) ∈ tr) (ht : (q.int .cmt0).isTriggered = true) :
    (q.timer .cmt0).tick.1 = false := by
  rw [← Bool.not_eq_true]
  intro hmatch
  rw [hfirm.returned _ hm hmatch] at ht
  cases ht

theorem pending_step {state : PCodeState .be} {address : Address} (hw : Wired q)
    (hq : Pending q) (hfirm : Prompt tr) (hm : (q, .step state address) ∈ tr)
    {r : CompareMatchTimer} (hs : q.apply order emu (.step state address) = .ok r) :
    Pending r := by
  have hr := apply_step hw.handler hs
  have hflag : (r.timer .cmt0).matched =
      ((q.timer .cmt0).matched || (q.timer .cmt0).tick.1) := by
    rw [(hw.apply hs).2]
    exact matched_tick _
  have hint : ∀ i, (r.int i).isTriggered = (q.verdict state address).triggered i := fun i => by
    rw [hr, isTriggered_served]
  rw [verdict_alone hq hfirm hm] at hint
  cases ht : (q.int .cmt0).isTriggered with
  | true =>
    rw [ht, if_pos rfl] at hint
    refine ⟨hint .cmt1, fun hset => ?_⟩
    rw [hflag, no_match_of_triggered hfirm hm ht, Bool.or_false] at hset
    rw [hint .cmt0]
    -- with its flag set the handler does not return
    have hrte : ¬ state.readU32 address = instRte := fun hrte => by
      rw [hfirm.cleared _ hm (beq_iff_eq.mpr hrte)] at hset
      cases hset
    simpa [Verdict.triggered] using hrte
  | false =>
    rw [ht, if_neg Bool.false_ne_true] at hint
    have hclear := clear_of_idle hq ht
    refine ⟨hint .cmt1, fun hset => ?_⟩
    rw [hflag, hclear, Bool.false_or] at hset
    rw [hint .cmt0]
    exact (isDue_of_clear hclear).trans hset

theorem pending_new : Pending new :=
  ⟨rfl, fun hset => by cases hset⟩

theorem pending_of_run (hw : Wired p) (hp : Pending p)
    (h : Run (fun p e p' => p.apply order emu e = .ok p') p tr q) (hfirm : Prompt tr) :
    (Wired q ∧ Pending q) ∧ ∀ u e, (u, e) ∈ tr → Wired u ∧ Pending u := by
  refine h.invariant_mem (fun u => Wired u ∧ Pending u) ⟨hw, hp⟩ ?_
  rintro u e r hm ⟨hwired, hu⟩ hs
  refine ⟨(hwired.apply hs).1, ?_⟩
  cases e with
  | step state address => exact pending_step hwired hu hfirm hm hs
  | read state address size => exact pending_access (by simp) hwired hu hs
  | write state address size value => exact pending_access (by simp) hwired hu hs

/-- A step enters a handler exactly when the timer matches. -/
theorem entered_alone {state : PCodeState .be} {address : Address} (hq : Pending q)
    (hfirm : Prompt tr) (hm : (q, .step state address) ∈ tr) :
    (q.verdict state address).entered =
      if (q.timer .cmt0).tick.1 then some .cmt0 else none := by
  rw [verdict_alone hq hfirm hm]
  cases ht : (q.int .cmt0).isTriggered with
  | true => rw [if_pos rfl, no_match_of_triggered hfirm hm ht, if_neg Bool.false_ne_true]
  | false => rw [if_neg Bool.false_ne_true, isDue_of_clear (clear_of_idle hq ht)]

theorem action_of_match {state : PCodeState .be} {address : Address} {r : Stepped}
    (hw : Wired q) (hq : Pending q) (hfirm : Prompt tr) (hm : (q, .step state address) ∈ tr)
    (hr : q.hookArchitecturalStep emu state address = .ok r) :
    r.outcome.action =
      if (q.timer .cmt0).tick.1 then .branch 1 (routine state .cmt0) else .pass := by
  have hout : r.outcome = outcome state (q.verdict state address) :=
    (hookArchitecturalStep_spec hw.handler hr).2
  rw [hout, outcome, entered_alone hq hfirm hm]
  cases (q.timer .cmt0).tick.1 <;> rfl

theorem isDispatch_eq_isMatch {x : CompareMatchTimer × HookEvent .be} (hw : Wired p)
    (hp : Pending p) (h : Run (fun p e p' => p.apply order emu e = .ok p') p tr q)
    (hfirm : Prompt tr) (hm : x ∈ tr) : isDispatch emu x = isMatch x := by
  obtain ⟨u, e⟩ := x
  cases e with
  | step state address =>
    obtain ⟨_, _, _, _, -, hs, -⟩ := h.mem hm
    obtain ⟨hwired, hu⟩ := (pending_of_run hw hp h hfirm).2 u _ hm
    rw [BalanceLemmas.isDispatch_step hwired.handler hs, entered_alone hu hfirm hm, isMatch]
    cases (u.timer .cmt0).tick.1 <;> rfl
  | read state address size => rfl
  | write state address size value => rfl

end EveryMatchLemmas

open EveryMatchLemmas

/-- For every run from `new` with firmware that keeps to the protocol on channel 0, and
channel 1 not used: a step branches exactly when the timer of channel 0 matches at it, to the
routine of channel 0. No match is lost, and none interrupts twice. -/
theorem dispatch_of_match (h : Reaches order emu tr p) (hfirm : Prompt tr) :
    (∀ q state address r, (q, .step state address) ∈ tr →
      q.hookArchitecturalStep emu state address = .ok r →
        r.outcome.action =
          if (q.timer .cmt0).tick.1 then .branch 1 (routine state .cmt0) else .pass) ∧
    tr.countP (isDispatch emu) = tr.countP isMatch := by
  constructor
  · intro q state address r hm hr
    obtain ⟨hw, hq⟩ := (pending_of_run wired_new pending_new h hfirm).2 q _ hm
    exact action_of_match hw hq hfirm hm hr
  · exact List.countP_congr fun x hm => by
      rw [isDispatch_eq_isMatch wired_new pending_new h hfirm hm]

/-- A handler that clears the flag and returns, between two matches. -/
def paced : List (HookEvent .be) :=
  [poke 0xfffec006 [0, 2], poke 0xfffec002 [0, 0x40], poke addrCmstr [0, 1],
    .step plainState 0x10, .step plainState 0x10, poke 0xfffec002 [0, 0x40], .step plainState 0,
    .step plainState 0x10]

theorem dispatch_of_match_paced :
    (sample paced).1.countP (isDispatch plainMachine) = (sample paced).1.countP isMatch :=
  (dispatch_of_match (reaches_sample paced) ⟨by decide, by decide, by decide, by decide⟩).2

/-! ## Channel 1 -/

namespace EveryMatchLemmas

/-- Where no timer is due at a return, interrupt 1 stays triggered. -/
theorem triggered_cmt1 (l : Lines) (rte : Bool) (hl : l.triggered₁ = true)
    (hrte : rte = true → l.due₀ = false ∧ l.due₁ = false) :
    (l.arbitrate rte).triggered₁ = true ∧ (l.arbitrate rte).entered.isSome = false := by
  revert hl hrte
  obtain ⟨d₀, d₁, e₀, e₁, t₀, t₁⟩ := l
  revert d₀ d₁ e₀ e₁ t₀ t₁ rte
  decide

end EveryMatchLemmas

/-- For every run from `new` in which no timer is due at a step on the word `instRte`, as the
handlers have cleared the flags: once interrupt 1 is triggered it stays so, and no step
branches any more. -/
theorem stuck_of_cmt1 (h : Reaches order emu tr p)
    (hrte : ∀ x ∈ tr, isRte x = true → ∀ i, (x.1.timer i).isDue = false) :
    ∀ past q e rest, tr = past ++ (q, e) :: rest → (q.int .cmt1).isTriggered = true →
      (∀ x ∈ (q, e) :: rest, isDispatch emu x = false) ∧ (p.int .cmt1).isTriggered = true := by
  rintro past q e rest rfl hq
  obtain ⟨t, hpast, hrest⟩ := h.split
  have hstart : t = q := by
    cases hrest
    rfl
  subst hstart
  have hstep : ∀ r state address, (r, .step state address) ∈ (t, e) :: rest →
      (r.int .cmt1).isTriggered = true →
        (r.verdict state address).triggered₁ = true ∧
          (r.verdict state address).entered.isSome = false := by
    intro r state address hm hr
    refine triggered_cmt1 r.lines _ hr fun hinst => ?_
    have hdue := hrte _ (List.mem_append_right _ hm) hinst
    exact ⟨hdue .cmt0, hdue .cmt1⟩
  -- from `q` on, interrupt 1 is triggered at every step
  have hkept := hrest.invariant_mem (fun r => (r.int .cmt1).isTriggered = true) hq
    fun r e' r' hm hr hs => by
      have hh := Reaches.handler_of_mem h (List.mem_append_right past hm)
      cases e' with
      | step state address =>
        rw [apply_step hh hs]
        exact (hstep r state address hm hr).1
      | read state address size => exact ((apply_access (by simp) hs).2 .cmt1).trans hr
      | write state address size value => exact ((apply_access (by simp) hs).2 .cmt1).trans hr
  refine ⟨fun x hm => ?_, hkept.1⟩
  obtain ⟨r, e'⟩ := x
  cases e' with
  | step state address =>
    obtain ⟨_, _, _, _, hbefore, hs, _⟩ := h.mem (List.mem_append_right past hm)
    rw [BalanceLemmas.isDispatch_step (Reaches.handler hbefore) hs]
    exact (hstep r state address hm (hkept.2 r _ hm)).2
  | read state address size => rfl
  | write state address size value => rfl

/-- The handler of channel 1 clears the flag and returns, and then its timer matches again. -/
def pacedCmt1 : List (HookEvent .be) :=
  [poke 0xfffec00c [0, 2], poke 0xfffec008 [0, 0x40], poke addrCmstr [0, 2],
    .step plainState 0x10, .step plainState 0x10, poke 0xfffec008 [0, 0x40], .step plainState 0,
    .step plainState 0x10]

theorem stuck_of_cmt1_paced :
    (∀ x ∈ (sample pacedCmt1).1.drop 5, isDispatch plainMachine x = false) ∧
      ((sample pacedCmt1).2.int .cmt1).isTriggered = true := by
  have hcmt0 : ∀ x ∈ (sample pacedCmt1).1, isRte x = true → (x.1.timer .cmt0).isDue = false := by
    decide
  have hcmt1 : ∀ x ∈ (sample pacedCmt1).1, isRte x = true → (x.1.timer .cmt1).isDue = false := by
    decide
  refine stuck_of_cmt1 (reaches_sample pacedCmt1) (fun x hx hrte i => ?_)
    ((sample pacedCmt1).1.take 5) (sample (pacedCmt1.take 5)).2 (poke 0xfffec008 [0, 0x40])
    ((sample pacedCmt1).1.drop 6) rfl (by decide)
  cases i with
  | cmt0 => exact hcmt0 x hx hrte
  | cmt1 => exact hcmt1 x hx hrte

end CompareMatchTimer

end FuguexPeripheral.SuperH
