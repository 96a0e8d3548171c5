import FuguexPeripheral.SuperH.Steps

/-!
# Interrupts in service

A triggered interrupt is in service: its handler has been entered, and the flag is
cleared at the `RTE` that ends it. By an `RTE` these modules mean the word `instRte` that the
step compares with; the instruction of the processor is another. Three properties of runs,
from the arbitration of one step:

Results:
1. `no_dispatch_in_service`: nothing is dispatched while an interrupt is in service.
2. `dispatched_iff`: what is marked in service has been dispatched, exactly when no step
   finds two channels that want service at once.
3. `released_iff`: an `RTE` releases the interrupt in service, exactly when it is that of
   channel 0 or one of the timers is matched.
-/

namespace FuguexPeripheral.SuperH

open ByteStore Backend Fallible Runs

/-! ## Two channels at once -/

namespace Lines

/-- Channel 0 becomes triggered while channel 1 is in service, or both do at once. -/
def collides (l : Lines) : Bool :=
  !l.triggered₀ && l.due₀ && (l.triggered₁ || (l.due₁ && (l.enabled₀ || l.enabled₁)))

/-- At most one channel is triggered. -/
def single (l : Lines) : Bool :=
  !(l.triggered₀ && l.triggered₁)

end Lines

def Verdict.single (v : Verdict) : Bool :=
  !(v.triggered₀ && v.triggered₁)

namespace ServiceLemmas

/-- A handler is entered with no interrupt in service, and then one is. -/
theorem entered_facts (l : Lines) (rte : Bool) (h : (l.arbitrate rte).entered ≠ none) :
    (l.triggered₀ = false ∧ l.triggered₁ = false) ∧
      ((l.arbitrate rte).triggered₀ || (l.arbitrate rte).triggered₁) = true := by
  revert h
  obtain ⟨d₀, d₁, e₀, e₁, t₀, t₁⟩ := l
  revert d₀ d₁ e₀ e₁ t₀ t₁ rte
  decide

/-- A triggered flag is cleared at an `RTE` only. -/
theorem rte_of_cleared (l : Lines) (rte : Bool) (i : Channel) (hl : l.triggered i = true)
    (hv : (l.arbitrate rte).triggered i = false) : rte = true := by
  revert hl hv
  obtain ⟨d₀, d₁, e₀, e₁, t₀, t₁⟩ := l
  revert d₀ d₁ e₀ e₁ t₀ t₁ rte
  cases i <;> decide

/-- Without a collision, a channel that becomes triggered is the one that is entered. -/
theorem entered_of_triggered (l : Lines) (rte : Bool) (hc : l.collides = false)
    (hs : l.single = true) :
    (l.arbitrate rte).single = true ∧
      ∀ i, l.triggered i = false → (l.arbitrate rte).triggered i = true →
        (l.arbitrate rte).entered = some i := by
  suffices h : (l.arbitrate rte).single = true ∧
      (l.triggered₀ = false → (l.arbitrate rte).triggered₀ = true →
        (l.arbitrate rte).entered = some .cmt0) ∧
      (l.triggered₁ = false → (l.arbitrate rte).triggered₁ = true →
        (l.arbitrate rte).entered = some .cmt1) by
    refine ⟨h.1, fun i => ?_⟩
    cases i with
    | cmt0 => exact h.2.1
    | cmt1 => exact h.2.2
  revert hc hs
  obtain ⟨d₀, d₁, e₀, e₁, t₀, t₁⟩ := l
  revert d₀ d₁ e₀ e₁ t₀ t₁ rte
  decide

/-- With one, both channels end up triggered, or channel 0 does and nothing is entered. -/
theorem lost_of_collides (l : Lines) (rte : Bool) (hc : l.collides = true) :
    (l.arbitrate rte).single = false ∨
      (l.triggered₀ = false ∧ (l.arbitrate rte).triggered₀ = true ∧
        (l.arbitrate rte).entered = none) := by
  revert hc
  obtain ⟨d₀, d₁, e₀, e₁, t₀, t₁⟩ := l
  revert d₀ d₁ e₀ e₁ t₀ t₁ rte
  decide

/-- At an `RTE`, with one channel in service. -/
theorem cleared_iff (l : Lines) (i : Channel) (hi : l.triggered i = true)
    (ho : l.triggered i.other = false) :
    (l.arbitrate true).triggered i = false ↔
      i = .cmt0 ∨ l.due₀ = true ∨ l.due₁ = true := by
  revert hi ho
  obtain ⟨d₀, d₁, e₀, e₁, t₀, t₁⟩ := l
  revert d₀ d₁ e₀ e₁ t₀ t₁
  cases i <;> decide

end ServiceLemmas

open ServiceLemmas

namespace CompareMatchTimer

variable {order : HashOrder} {emu : Machine}
  {tr : List (CompareMatchTimer × HookEvent .be)} {p : CompareMatchTimer}

/-! ## Dispatch -/

/-- The step returns `Branch`. -/
def Branches (emu : Machine) (p : CompareMatchTimer) (state : PCodeState .be)
    (address : Address) : Prop :=
  ∃ r n target, p.hookArchitecturalStep emu state address = .ok r ∧
    r.outcome.action = .branch n target

/-- The step is at an `RTE` and clears a triggered flag. -/
def Returns (order : HashOrder) (emu : Machine) (p : CompareMatchTimer)
    (state : PCodeState .be) (address : Address) : Prop :=
  state.readU32 address = instRte ∧
    ∃ p' i, p.apply order emu (.step state address) = .ok p' ∧
      (p.int i).isTriggered = true ∧ (p'.int i).isTriggered = false

namespace ServiceLemmas

theorem entered_of_branches {state : PCodeState .be} {address : Address}
    (hh : p.handler = new.handler) (h : Branches emu p state address) :
    (p.verdict state address).entered ≠ none := by
  obtain ⟨r, n, target, hr, hb⟩ := h
  rw [(hookArchitecturalStep_spec hh hr).2] at hb
  intro hnone
  simp [outcome, show (p.lines.arbitrate _).entered = none from hnone] at hb

/-- Interrupts stop being in service at an `RTE` only. -/
theorem returns_of_fall {q r : CompareMatchTimer} {e : HookEvent .be}
    (hh : q.handler = new.handler) (h : q.apply order emu e = .ok r)
    (hq : ∃ i, (q.int i).isTriggered = true) (hr : ¬ ∃ i, (r.int i).isTriggered = true) :
    ∃ state address, e = .step state address ∧ Returns order emu q state address := by
  obtain ⟨i, hi⟩ := hq
  have hclear : (r.int i).isTriggered = false := by
    simpa using fun h => hr ⟨i, h⟩
  cases e with
  | step state address =>
    refine ⟨state, address, rfl, ?_, r, i, h, hi, hclear⟩
    rw [apply_step hh h, isTriggered_served] at hclear
    simpa using rte_of_cleared _ _ i (by simpa using hi) hclear
  | read state address size =>
    rw [(apply_access (by simp) h).2, hi] at hclear
    cases hclear
  | write state address size value =>
    rw [(apply_access (by simp) h).2, hi] at hclear
    cases hclear

end ServiceLemmas

open ServiceLemmas

/-- In every run, a step that returns `Branch` starts with no interrupt triggered, and
between two such steps there is one at an `RTE` that clears a triggered flag. -/
theorem no_dispatch_in_service (h : Reaches order emu tr p) :
    (∀ q state address, (q, .step state address) ∈ tr → Branches emu q state address →
      ∀ i, (q.int i).isTriggered = false) ∧
    (∀ tr₁ q state address tr₂ q' state' address' tr₃,
      tr = tr₁ ++ (q, .step state address) :: (tr₂ ++ (q', .step state' address') :: tr₃) →
      Branches emu q state address → Branches emu q' state' address' →
      ∃ r s a, (r, .step s a) ∈ tr₂ ∧ Returns order emu r s a) := by
  have hidle : ∀ q state address, (q, .step state address) ∈ tr → Branches emu q state address →
      ∀ i, (q.int i).isTriggered = false := by
    intro q state address hm hb i
    have hfacts := (entered_facts _ _ (entered_of_branches (Reaches.handler_of_mem h hm) hb)).1
    cases i with
    | cmt0 => exact hfacts.1
    | cmt1 => exact hfacts.2
  refine ⟨hidle, ?_⟩
  rintro tr₁ q state address tr₂ q' state' address' tr₃ rfl hb hb'
  obtain ⟨hq, t, hstep, hrest⟩ := h.at
  obtain ⟨hmid, -⟩ := hrest.at
  -- after the first branch an interrupt is in service, before the second none is
  have hin : ∃ i, (t.int i).isTriggered = true := by
    have hh := Reaches.handler hq
    rw [apply_step hh hstep]
    rcases Bool.or_eq_true _ _ |>.mp (entered_facts _ _ (entered_of_branches hh hb)).2 with h₀ | h₁
    · exact ⟨.cmt0, h₀⟩
    · exact ⟨.cmt1, h₁⟩
  have hout : ¬ ∃ i, (q'.int i).isTriggered = true := by
    rintro ⟨i, hi⟩
    rw [hidle q' state' address' (by simp) hb' i] at hi
    cases hi
  obtain ⟨r, e, r', hm, hr, hfall⟩ :=
    hmid.exists_fall (fun q => ∃ i, (q.int i).isTriggered = true) hin hout
  have hmem : (r, e) ∈ tr₁ ++ (q, .step state address) ::
      (tr₂ ++ (q', .step state' address') :: tr₃) := by
    simp [hm]
  have hh := Reaches.handler_of_mem h hmem
  obtain ⟨s, a, rfl, hret⟩ := returns_of_fall hh hr hfall.1 hfall.2
  exact ⟨r, s, a, hm, hret⟩

/-- Channel 0 matches at the first step, and still does after the return at the second. -/
def twice : List (HookEvent .be) :=
  [poke 0xfffec006 [0, 1], poke 0xfffec002 [0, 0x40], poke addrCmstr [0, 1],
    .step plainState 0x10, .step plainState 0, .step plainState 0x10]

theorem no_dispatch_in_service_twice :
    ∃ r s a, (r, .step s a) ∈ ((sample twice).1.drop 4).take 1 ∧
      Returns .insertion plainMachine r s a :=
  (no_dispatch_in_service (reaches_sample twice)).2 ((sample twice).1.take 3)
    (sample (twice.take 3)).2 plainState 0x10 (((sample twice).1.drop 4).take 1)
    (sample (twice.take 5)).2 plainState 0x10 [] rfl ⟨_, _, _, rfl, rfl⟩ ⟨_, _, _, rfl, rfl⟩

/-! ## What is marked in service has been dispatched -/

/-- Every step of the run that makes an interrupt triggered branches to the address in
its vector, and in no state of the run both are triggered. -/
def Dispatched (emu : Machine) (tr : List (CompareMatchTimer × HookEvent .be))
    (p : CompareMatchTimer) : Prop :=
  (∀ q state address r i, (q, .step state address) ∈ tr →
    q.hookArchitecturalStep emu state address = .ok r →
    (q.int i).isTriggered = false → (r.peripheral.int i).isTriggered = true →
    r.outcome.action = .branch 1 (routine state i)) ∧
  (∀ q e, (q, e) ∈ tr → q.lines.single = true) ∧ p.lines.single = true

/-- At no step of the run a channel wants service while or just when the other does. -/
def CollisionFree (tr : List (CompareMatchTimer × HookEvent .be)) : Prop :=
  ∀ q state address, (q, .step state address) ∈ tr → q.lines.collides = false

namespace ServiceLemmas

theorem single_served (p : CompareMatchTimer) (v : Verdict) :
    (p.served v).lines.single = v.single := rfl

/-- An access leaves it as it is whether both are triggered. -/
theorem single_access {q r : CompareMatchTimer} {e : HookEvent .be}
    (he : ∀ state address, e ≠ .step state address) (h : q.apply order emu e = .ok r) :
    r.lines.single = q.lines.single := by
  have hint := (apply_access he h).2
  have h₀ : r.lines.triggered₀ = q.lines.triggered₀ := hint .cmt0
  have h₁ : r.lines.triggered₁ = q.lines.triggered₁ := hint .cmt1
  rw [Lines.single, Lines.single, h₀, h₁]

/-- Without collisions, at most one interrupt is triggered throughout a run. -/
theorem single_of_collisionFree (h : Reaches order emu tr p) (hc : CollisionFree tr) :
    p.lines.single = true ∧ ∀ q e, (q, e) ∈ tr → q.lines.single = true := by
  refine h.invariant_mem (fun q => q.lines.single = true) rfl fun q e r hm hq hs => ?_
  cases e with
  | step state address =>
    rw [apply_step (Reaches.handler_of_mem h hm) hs, single_served]
    exact (entered_of_triggered _ _ (hc q state address hm) hq).1
  | read state address size => rwa [single_access (by simp) hs]
  | write state address size value => rwa [single_access (by simp) hs]

end ServiceLemmas

/-- For every run: what is marked in service has been dispatched, with at most one
interrupt in service, exactly when no step of the run finds a collision. -/
theorem dispatched_iff (h : Reaches order emu tr p) :
    Dispatched emu tr p ↔ CollisionFree tr := by
  constructor
  · rintro ⟨hbranch, hsingle, hend⟩ q state address hm
    by_contra hc
    rw [Bool.not_eq_false] at hc
    obtain ⟨t, hstep, hboth⟩ :=
      h.next_of_mem (I := fun q => q.lines.single = true) hsingle hend hm
    have hh := Reaches.handler_of_mem h hm
    rcases lost_of_collides _ (state.readU32 address == instRte) hc with hv | ⟨h₀, hv, hnone⟩
    · rw [apply_step hh hstep, single_served] at hboth
      exact Bool.false_ne_true (hv.symm.trans hboth)
    · obtain ⟨r, hr, hp⟩ := exists_of_bind_eq_ok hstep
      obtain ⟨hper, hout⟩ := hookArchitecturalStep_spec hh hr
      have hb := hbranch q state address r .cmt0 hm hr h₀ (by rw [hper]; exact hv)
      simp [hout, outcome, hnone] at hb
  · intro hc
    obtain ⟨hend, hsingle⟩ := single_of_collisionFree h hc
    refine ⟨fun q state address r i hm hr hoff hon => ?_, hsingle, hend⟩
    obtain ⟨hper, hout⟩ := hookArchitecturalStep_spec (Reaches.handler_of_mem h hm) hr
    rw [hper, isTriggered_served] at hon
    have hentered := (entered_of_triggered _ _ (hc q state address hm) (hsingle q _ hm)).2 i
      (by simpa using hoff) hon
    simp [hout, outcome, hentered]

/-- A run of channel 0 alone. -/
theorem dispatched_iff_twice :
    Dispatched plainMachine (sample twice).1 (sample twice).2 ↔ CollisionFree (sample twice).1 :=
  dispatched_iff (reaches_sample twice)

/-- Both timers are started together and match at the same step. -/
def together : List (HookEvent .be) :=
  [poke 0xfffec006 [0, 1], poke 0xfffec00c [0, 1], poke 0xfffec002 [0, 0x40],
    poke 0xfffec008 [0, 0x40], poke addrCmstr [0, 3], .step plainState 0x10]

/-- The handler of channel 0 is entered, and both interrupts are triggered. -/
theorem together_not_dispatched :
    ¬ Dispatched plainMachine (sample together).1 (sample together).2 := by
  rintro ⟨-, -, hend⟩
  exact absurd hend (by decide)

/-! ## Return from interrupt -/

/-- The interrupt of channel `i` is triggered and the other is not. -/
def ServesOnly (p : CompareMatchTimer) (i : Channel) : Prop :=
  (p.int i).isTriggered = true ∧ (p.int i.other).isTriggered = false

/-- Every step of the run at an `RTE` with one interrupt in service ends it. -/
def Released (emu : Machine) (tr : List (CompareMatchTimer × HookEvent .be)) : Prop :=
  ∀ q state address r i, (q, .step state address) ∈ tr → q.ServesOnly i →
    state.readU32 address = instRte → q.hookArchitecturalStep emu state address = .ok r →
    (r.peripheral.int i).isTriggered = false

/-- At every such step, the interrupt is that of channel 0, or a timer is matched. -/
def ReleaseSeen (tr : List (CompareMatchTimer × HookEvent .be)) : Prop :=
  ∀ q state address i, (q, .step state address) ∈ tr → q.ServesOnly i →
    state.readU32 address = instRte →
    i = .cmt0 ∨ (q.timer .cmt0).isDue = true ∨ (q.timer .cmt1).isDue = true

/-- For every run: the interrupt in service is released at every `RTE` exactly when, at
each, it is that of channel 0 or a timer is matched. -/
theorem released_iff (h : Reaches order emu tr p) : Released emu tr ↔ ReleaseSeen tr := by
  have hstep : ∀ q state address r i, (q, .step state address) ∈ tr → q.ServesOnly i →
      state.readU32 address = instRte → q.hookArchitecturalStep emu state address = .ok r →
      ((r.peripheral.int i).isTriggered = false ↔
        i = .cmt0 ∨ (q.timer .cmt0).isDue = true ∨ (q.timer .cmt1).isDue = true) := by
    intro q state address r i hm hs hrte hr
    rw [(hookArchitecturalStep_spec (Reaches.handler_of_mem h hm) hr).1, isTriggered_served, hrte,
      beq_self_eq_true]
    exact cleared_iff q.lines i (by simpa using hs.1) (by simpa using hs.2)
  constructor
  · intro hrel q state address i hm hs hrte
    obtain ⟨_, _, _, _, _, happly, _⟩ := h.mem hm
    obtain ⟨r, hr, _⟩ := exists_of_bind_eq_ok happly
    exact (hstep q state address r i hm hs hrte hr).mp (hrel q state address r i hm hs hrte hr)
  · intro hseen q state address r i hm hs hrte hr
    exact (hstep q state address r i hm hs hrte hr).mpr (hseen q state address i hm hs hrte)

theorem released_iff_twice :
    Released plainMachine (sample twice).1 ↔ ReleaseSeen (sample twice).1 :=
  released_iff (reaches_sample twice)

/-- Channel 1 is entered at the second step. Its handler clears the match flag and
returns. -/
def handlerClears : List (HookEvent .be) :=
  [poke 0xfffec00c [0, 2], poke 0xfffec008 [0, 0x40], poke addrCmstr [0, 2],
    .step plainState 0x10, .step plainState 0x10, poke 0xfffec008 [0, 0x40], .step plainState 0]

/-- The step at the `RTE` takes the first early exit, and interrupt 1 stays triggered. -/
theorem handlerClears_not_released : ¬ Released plainMachine (sample handlerClears).1 := by
  intro h
  have hrelease := h (sample (handlerClears.take 6)).2 plainState 0 _ .cmt1
    (List.mem_of_getElem? (by exact (rfl : (sample handlerClears).1[6]? = _)))
    ⟨by decide, by decide⟩ (by decide) rfl
  exact absurd hrelease (by decide)

end CompareMatchTimer

end FuguexPeripheral.SuperH
