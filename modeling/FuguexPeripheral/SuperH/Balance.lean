import FuguexPeripheral.SuperH.Service

/-!
# Dispatches, returns and collisions

A triggered flag is set when a handler is entered or when two channels collide, and cleared
at the word `instRte`, which is not the `RTE` of the processor. A collision leaves one flag
more set than handlers were entered, and no handler is entered before the last flag is
cleared.

Results:
1. `load_arbitrate`: what a step adds and clears.
2. `balance_of_run`: the flags at the end of a run, from what happened in it.
3. `silent_of_collision`: firmware that comes to that word at most once for each handler is
   not interrupted again.
-/

namespace FuguexPeripheral.SuperH

open ByteStore Backend Fallible Runs

namespace Lines

/-- How many interrupts are triggered. -/
def load (l : Lines) : Nat :=
  l.triggered₀.toNat + l.triggered₁.toNat

/-- The step clears a triggered flag. -/
def clears (l : Lines) (rte : Bool) : Bool :=
  (l.triggered₀ && !(l.arbitrate rte).triggered₀) || (l.triggered₁ && !(l.arbitrate rte).triggered₁)

end Lines

namespace CompareMatchTimer

variable {order : HashOrder} {emu : Machine}
  {tr : List (CompareMatchTimer × HookEvent .be)} {p : CompareMatchTimer}

/-! ## What happens at a step -/

/-- The step returns `Branch`. -/
def isDispatch (emu : Machine) : CompareMatchTimer × HookEvent .be → Bool
  | (q, .step state address) =>
    (q.hookArchitecturalStep emu state address).toOption.any fun r =>
      match r.outcome.action with
      | .branch _ _ => true
      | _ => false
  | _ => false

/-- The step clears a triggered flag. -/
def isReturn (emu : Machine) : CompareMatchTimer × HookEvent .be → Bool
  | (q, .step state address) =>
    (q.hookArchitecturalStep emu state address).toOption.any fun r =>
      [Channel.cmt0, .cmt1].any fun i =>
        (q.int i).isTriggered && !(r.peripheral.int i).isTriggered
  | _ => false

/-- The step finds two channels that want service at once. -/
def isCollision : CompareMatchTimer × HookEvent .be → Bool
  | (q, .step _ _) => q.lines.collides
  | _ => false

/-- The step is at what the code takes for an `RTE`: the four bytes of `instRte`. -/
def isRte : CompareMatchTimer × HookEvent .be → Bool
  | (_, .step state address) => state.readU32 address == instRte
  | _ => false

namespace BalanceLemmas

theorem load_arbitrate (l : Lines) (rte : Bool) :
    (l.clears rte).toNat +
        ((l.arbitrate rte).triggered₀.toNat + (l.arbitrate rte).triggered₁.toNat) =
      l.load + ((l.arbitrate rte).entered.isSome.toNat + l.collides.toNat) := by
  obtain ⟨d₀, d₁, e₀, e₁, t₀, t₁⟩ := l
  revert d₀ d₁ e₀ e₁ t₀ t₁ rte
  decide

theorem rte_of_clears (l : Lines) (rte : Bool) (h : l.clears rte = true) : rte = true := by
  revert h
  obtain ⟨d₀, d₁, e₀, e₁, t₀, t₁⟩ := l
  revert d₀ d₁ e₀ e₁ t₀ t₁ rte
  decide

theorem load_of_entered (l : Lines) (rte : Bool) (h : (l.arbitrate rte).entered.isSome = true) :
    l.load = 0 := by
  revert h
  obtain ⟨d₀, d₁, e₀, e₁, t₀, t₁⟩ := l
  revert d₀ d₁ e₀ e₁ t₀ t₁ rte
  decide

variable {state : PCodeState .be} {address : Address}

theorem isDispatch_step {r : CompareMatchTimer} (hh : p.handler = new.handler)
    (h : p.apply order emu (.step state address) = .ok r) :
    isDispatch emu (p, .step state address) = (p.verdict state address).entered.isSome := by
  obtain ⟨s, hs, -⟩ := exists_of_bind_eq_ok h
  have hout : s.outcome = outcome state (p.verdict state address) :=
    (hookArchitecturalStep_spec hh hs).2
  simp only [isDispatch, hs, Except.toOption, Option.any_some, hout, outcome]
  cases (p.verdict state address).entered <;> rfl

theorem isReturn_step {r : CompareMatchTimer} (hh : p.handler = new.handler)
    (h : p.apply order emu (.step state address) = .ok r) :
    isReturn emu (p, .step state address) =
      p.lines.clears (state.readU32 address == instRte) := by
  obtain ⟨s, hs, -⟩ := exists_of_bind_eq_ok h
  have hper : s.peripheral = p.served (p.verdict state address) :=
    (hookArchitecturalStep_spec hh hs).1
  simp only [isReturn, hs, Except.toOption, Option.any_some, hper, isTriggered_served,
    List.any_cons, List.any_nil, Bool.or_false]
  rfl

theorem sum_toNat {α : Type*} (f : α → Bool) (l : List α) :
    (l.map fun x => (f x).toNat).sum = l.countP f := by
  induction l with
  | nil => rfl
  | cons x l ih => cases hx : f x <;> simp [hx, ih, Nat.add_comm]

/-- Every call spends and gains what it should. -/
theorem load_step {e : HookEvent .be} {r : CompareMatchTimer} (hh : p.handler = new.handler)
    (h : p.apply order emu e = .ok r) :
    (isReturn emu (p, e)).toNat + r.lines.load =
      p.lines.load + ((isDispatch emu (p, e)).toNat + (isCollision (p, e)).toNat) := by
  have haccess : (∀ state address, e ≠ .step state address) → r.lines.load = p.lines.load :=
    fun he => congrArg₂ (·.toNat + ·.toNat) ((apply_access he h).2 .cmt0)
      ((apply_access he h).2 .cmt1)
  cases e with
  | step state address =>
    rw [isDispatch_step hh h, isReturn_step hh h, apply_step hh h]
    exact load_arbitrate p.lines _
  | read state address size =>
    rw [haccess (by simp)]
    simp [isReturn, isDispatch, isCollision]
  | write state address size value =>
    rw [haccess (by simp)]
    simp [isReturn, isDispatch, isCollision]

theorem load_of_run (h : Reaches order emu tr p) :
    tr.countP (isReturn emu) + p.lines.load =
      tr.countP (isDispatch emu) + tr.countP isCollision := by
  have hrun := h.balance (fun q => q.lines.load) (fun x => (isReturn emu x).toNat)
    (fun x => (isDispatch emu x).toNat + (isCollision x).toNat)
    fun q e r hm hs => load_step (Reaches.handler_of_mem h hm) hs
  rw [List.sum_map_add, sum_toNat, sum_toNat, sum_toNat] at hrun
  exact hrun.trans (Nat.zero_add _)

/-- A handler is entered with nothing in service, so the returns are even. -/
theorem returns_of_dispatch {past rest : List (CompareMatchTimer × HookEvent .be)}
    {x : CompareMatchTimer × HookEvent .be} (h : Reaches order emu (past ++ x :: rest) p)
    (hx : isDispatch emu x = true) :
    past.countP (isReturn emu) = past.countP (isDispatch emu) + past.countP isCollision := by
  obtain ⟨q, e⟩ := x
  obtain ⟨hpast, t, hs, -⟩ := h.at
  have hload : q.lines.load = 0 := by
    cases e with
    | step state address =>
      rw [isDispatch_step (Reaches.handler hpast) hs] at hx
      exact load_of_entered _ _ hx
    | read state address size => cases hx
    | write state address size value => cases hx
  have hbalance := load_of_run hpast
  rwa [hload] at hbalance

theorem isRte_of_isReturn (h : Reaches order emu tr p) {x : CompareMatchTimer × HookEvent .be}
    (hm : x ∈ tr) (hx : isReturn emu x = true) : isRte x = true := by
  obtain ⟨q, e⟩ := x
  obtain ⟨_, _, _, _, hpast, hs, _⟩ := h.mem hm
  cases e with
  | step state address =>
    rw [isReturn_step (Reaches.handler hpast) hs] at hx
    exact rte_of_clears _ _ hx
  | read state address size => cases hx
  | write state address size value => cases hx

end BalanceLemmas

open BalanceLemmas

/-- In every run, the returns and the interrupts still triggered are as many as the dispatches
and the collisions. At a dispatch nothing is triggered, so there the returns have made up for
all collisions before. -/
theorem balance_of_run (h : Reaches order emu tr p) :
    (tr.countP (isReturn emu) + (p.interrupt.1.isTriggered.toNat +
        p.interrupt.2.isTriggered.toNat) =
      tr.countP (isDispatch emu) + tr.countP isCollision) ∧
    ∀ past x rest, tr = past ++ x :: rest → isDispatch emu x = true →
      past.countP (isReturn emu) = past.countP (isDispatch emu) + past.countP isCollision := by
  refine ⟨load_of_run h, ?_⟩
  rintro past x rest rfl hx
  exact returns_of_dispatch h hx

/-- The second dispatch, after one return. -/
theorem balance_of_run_twice :
    ((sample twice).1.take 5).countP (isReturn plainMachine) =
      ((sample twice).1.take 5).countP (isDispatch plainMachine) +
        ((sample twice).1.take 5).countP isCollision :=
  (balance_of_run (reaches_sample twice)).2 ((sample twice).1.take 5)
    ((sample (twice.take 5)).2, .step plainState 0x10) [] rfl (by decide)

/-- Firmware that at no time has come to more `instRte` than handlers were entered: after the
first collision no handler is entered again, and an interrupt stays triggered. -/
theorem silent_of_collision (h : Reaches order emu tr p)
    (hrte : ∀ past, past <+: tr → past.countP isRte ≤ past.countP (isDispatch emu)) :
    ∀ past x rest, tr = past ++ x :: rest → isCollision x = true →
      (∀ y ∈ rest, isDispatch emu y = false) ∧ ∃ i, (p.int i).isTriggered = true := by
  have hreturns : ∀ past, past <+: tr →
      past.countP (isReturn emu) ≤ past.countP (isDispatch emu) := by
    rintro past ⟨rest, rfl⟩
    refine le_trans (List.countP_mono_left fun x hm hx => ?_) (hrte past ⟨rest, rfl⟩)
    exact isRte_of_isReturn h (List.mem_append_left _ hm) hx
  rintro past x rest rfl hx
  constructor
  · intro y hy
    rw [← Bool.not_eq_true]
    intro hdispatch
    obtain ⟨mid, later, rfl⟩ := List.append_of_mem hy
    have hsplit : past ++ x :: (mid ++ y :: later) = (past ++ x :: mid) ++ y :: later := by simp
    have heven := returns_of_dispatch (hsplit ▸ h) hdispatch
    have hle := hreturns (past ++ x :: mid) ⟨y :: later, hsplit.symm⟩
    -- the collision at `x` is among those before `y`
    have hcollision : 0 < (past ++ x :: mid).countP isCollision :=
      List.countP_pos_iff.mpr ⟨x, by simp, hx⟩
    omega
  · have hbalance := load_of_run h
    have hle := hreturns _ (List.prefix_refl _)
    have hcollision : 0 < (past ++ x :: rest).countP isCollision :=
      List.countP_pos_iff.mpr ⟨x, by simp, hx⟩
    by_contra hnone
    have hload : p.lines.load = 0 := by
      have hclear : ∀ i, (p.int i).isTriggered = false := fun i => by
        simpa using fun hi => hnone ⟨i, hi⟩
      exact congrArg₂ (·.toNat + ·.toNat) (hclear .cmt0) (hclear .cmt1)
    omega

/-- Both channels match at one step, and the handler of channel 0 returns. -/
def owed : List (HookEvent .be) :=
  together ++ [.step plainState 0, .step plainState 0x10]

theorem silent_of_collision_owed :
    (∀ y ∈ (sample owed).1.drop 6, isDispatch plainMachine y = false) ∧
      ∃ i, ((sample owed).2.int i).isTriggered = true := by
  have hrte : ∀ past ∈ (sample owed).1.inits,
      past.countP isRte ≤ past.countP (isDispatch plainMachine) := by decide
  exact silent_of_collision (reaches_sample owed)
    (fun past hpast => hrte past ((List.mem_inits _ _).mpr hpast)) ((sample owed).1.take 5)
    ((sample (owed.take 5)).2, .step plainState 0x10) ((sample owed).1.drop 6) rfl (by decide)

end CompareMatchTimer

end FuguexPeripheral.SuperH
