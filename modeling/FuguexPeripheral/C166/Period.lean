import FuguexPeripheral.Backend.ClosedForm
import FuguexPeripheral.C166.Registers

/-!
# The period of T6

The overflow of T6 is emulated by a match at `0xffff`, where the count starts over. The value
`0xffff` is never shown, and the period is one short of the `2 ^ 16` of a 16-bit counter.

Results:
1. `count_and_flips`: T6 and the toggle bit after any number of steps.
2. `counts_iff`: how long T6 counts modulo `2 ^ 16`.
-/

namespace FuguexPeripheral.C166

open ByteStore Backend Runs

namespace GeneralPurposeTimer

/-! ## Runs without register writes -/

/-- The call writes a register. -/
def RegisterWrite (conv : AddressConversion) : HookEvent .le → Prop
  | .write _ address _ _ => ∃ addrU32, conv.toU32 address = some addrU32 ∧
    isRegister addrU32.toNat = true
  | _ => False

/-- A run from any state in which no register is written. Reads, and writes elsewhere, are
allowed. -/
abbrev RunsAlone (order : HashOrder) (conv : AddressConversion) (p : GeneralPurposeTimer)
    (tr : List (GeneralPurposeTimer × HookEvent .le)) (q : GeneralPurposeTimer) : Prop :=
  Run (fun p e p' => ¬ RegisterWrite conv e ∧ p.apply order conv e = .ok p') p tr q

def isStep : HookEvent .le → Bool
  | .step _ _ => true
  | _ => false

/-- The number of architectural steps. -/
def steps (tr : List (GeneralPurposeTimer × HookEvent .le)) : Nat :=
  tr.countP fun x => isStep x.2

/-- The call flips the match toggle. -/
def flipsToggle (order : HashOrder) (conv : AddressConversion) (p : GeneralPurposeTimer)
    (e : HookEvent .le) : Bool :=
  match p.apply order conv e with
  | .ok p' => p'.backendCmt6.getMatchToggle != p.backendCmt6.getMatchToggle
  | .error _ => false

/-- The number of flips of the match toggle. -/
def flips (order : HashOrder) (conv : AddressConversion)
    (tr : List (GeneralPurposeTimer × HookEvent .le)) : Nat :=
  tr.countP fun x => flipsToggle order conv x.1 x.2

/-- A read of T6 shows the number of steps modulo `2 ^ 16`, and the toggle has flipped at
every `2 ^ 16` of them. -/
def Counts (order : HashOrder) (conv : AddressConversion)
    (tr : List (GeneralPurposeTimer × HookEvent .le)) (q : GeneralPurposeTimer) : Prop :=
  (∀ state, ∃ state', q.hookMemoryRead order conv state addrT6 = .ok state' ∧
    state'.readMemory addrT6 2 = steps tr % 2 ^ 16) ∧
  flips order conv tr = steps tr / 2 ^ 16

namespace PeriodLemmas

open CompareMatchTimer ClosedFormLemmas

variable {order : HashOrder} {conv : AddressConversion} {p q : GeneralPurposeTimer}
  {e : HookEvent .le} {tr : List (GeneralPurposeTimer × HookEvent .le)}

/-- Without register writes, only a step changes the timer. -/
theorem backendCmt6_apply (he : ¬ RegisterWrite conv e) (h : p.apply order conv e = .ok q) :
    q.backendCmt6 = if isStep e then p.backendCmt6.tick.2 else p.backendCmt6 := by
  cases e with
  | step state address =>
    cases h
    rfl
  | read state address size =>
    obtain ⟨_, _, hq⟩ := Fallible.exists_of_bind_eq_ok h
    cases hq
    rfl
  | write state address size value =>
    obtain ⟨addrU32, haddr, h⟩ := Fallible.exists_of_bind_eq_ok h
    have hreg : ¬ isRegister addrU32.toNat = true := fun hreg =>
      he ⟨addrU32, AddressConversion.addressToU32_eq_ok_iff.mp haddr, hreg⟩
    rw [if_neg hreg] at h
    cases h
    rfl

/-- The toggle flips at a match. -/
theorem matchToggle_tick (t : CompareMatchTimer) :
    (t.tick.2.getMatchToggle != t.getMatchToggle) = t.tick.1 := by
  have htoggle := congrArg getMatchToggle (tick_frame t)
  cases hm : t.tick.1 with
  | false =>
    rw [hm] at htoggle
    rw [htoggle]
    exact bne_self_eq_false _
  | true =>
    rw [hm] at htoggle
    rw [htoggle]
    exact Bool.not_bne_self _

/-- The timer takes one tick for each step, and flips its toggle as often as it matches. -/
theorem run_ticks (h : RunsAlone order conv p tr q) :
    q.backendCmt6 = p.backendCmt6.after (List.replicate (steps tr) .tick) ∧
      flips order conv tr = p.backendCmt6.matchCount (List.replicate (steps tr) .tick) := by
  induction h with
  | nil p => exact ⟨rfl, rfl⟩
  | @cons p r q e tr hstep _ ih =>
    have hr := backendCmt6_apply hstep.1 hstep.2
    obtain ⟨hafter, hflips⟩ := ih
    have hflip : flipsToggle order conv p e =
        (r.backendCmt6.getMatchToggle != p.backendCmt6.getMatchToggle) := by
      rw [flipsToggle, hstep.2]
    have hcons : flips order conv ((p, e) :: tr) =
        flips order conv tr + if flipsToggle order conv p e then 1 else 0 := List.countP_cons
    have hsteps : steps ((p, e) :: tr) = steps tr + if isStep e then 1 else 0 := List.countP_cons
    rw [hcons, hflip, hsteps, hafter, hflips]
    cases he : isStep e with
    | false =>
      rw [he, if_neg Bool.false_ne_true] at hr
      rw [hr, bne_self_eq_false]
      exact ⟨rfl, rfl⟩
    | true =>
      rw [he, if_pos rfl] at hr
      rw [hr, matchToggle_tick, if_pos rfl, List.replicate_succ, matchCount_tick, Nat.add_comm]
      refine ⟨rfl, ?_⟩
      cases p.backendCmt6.tick.1 <;> rfl

/-- An enabled timer stays enabled. -/
theorem length_enabledTicks {t : CompareMatchTimer} (he : t.isEnabled = true) (n : Nat) :
    (t.enabledTicks (List.replicate n .tick)).length = n := by
  induction n generalizing t with
  | zero => rfl
  | succ n ih =>
    have hnext : t.tick.2.isEnabled = true := by
      rw [tick_frame]
      exact he
    rw [List.replicate_succ, enabledTicks_tick _ he, List.length_cons, ih hnext]

end PeriodLemmas

open PeriodLemmas

/-- The period of T6 is `65535`. -/
theorem count_and_flips {order : HashOrder} {conv : AddressConversion} {p q : GeneralPurposeTimer}
    {tr : List (GeneralPurposeTimer × HookEvent .le)} (hp : Registered p)
    (henabled : p.backendCmt6.isEnabled = true) (hzero : p.backendCmt6.currentTick = 0)
    (h : RunsAlone order conv p tr q) :
    Registered q ∧ q.backendCmt6.currentTick.toNat = steps tr % 65535 ∧
      flips order conv tr = steps tr / 65535 := by
  obtain ⟨hafter, hflips⟩ := run_ticks h
  have hcompare : p.backendCmt6.compareAgainst.toNat = 65535 := by
    rw [hp.compare]
    rfl
  have hstart : p.backendCmt6.currentTick.toNat = 0 := by
    rw [hzero]
    rfl
  obtain ⟨hcount, hmatches, -⟩ := CompareMatchTimer.after_reset p.backendCmt6
    (List.replicate (steps tr) .tick) hp.forward hp.reset hcompare (by decide) hstart (by decide)
  rw [length_enabledTicks henabled, Nat.zero_add] at hcount hmatches
  refine ⟨h.invariant Registered (fun _ _ _ hq hstep => hq.apply hstep.2) hp, ?_, ?_⟩
  · rw [hafter]
    exact hcount
  · rw [hflips]
    exact hmatches

/-- From an enabled T6 at zero, T6 counts modulo `2 ^ 16` as long as fewer than `65535` steps
are made, and no longer. -/
theorem counts_iff {order : HashOrder} {conv : AddressConversion} {p q : GeneralPurposeTimer}
    {tr : List (GeneralPurposeTimer × HookEvent .le)} (hp : Registered p)
    (henabled : p.backendCmt6.isEnabled = true) (hzero : p.backendCmt6.currentTick = 0)
    (h : RunsAlone order conv p tr q) : Counts order conv tr q ↔ steps tr < 65535 := by
  obtain ⟨hq, hcount, hflips⟩ := count_and_flips hp henabled hzero h
  have hlt : q.backendCmt6.currentTick.toNat < 65535 := by
    rw [hcount]
    exact Nat.mod_lt _ (by decide)
  have hread := hookMemoryRead_t6 order conv hq (Nat.lt_trans hlt (by decide))
  have hshown : q.backendCmt6.currentTick.toNat % 2 ^ 16 = steps tr % 65535 := by
    rw [Nat.mod_eq_of_lt (Nat.lt_trans hlt (by decide)), hcount]
  constructor
  · rintro ⟨hshows, hflipped⟩
    obtain ⟨state', hok, hword⟩ := hshows ⟨fun _ _ => 0, 0⟩
    obtain ⟨state'', hok', hword', -⟩ := hread ⟨fun _ _ => 0, 0⟩
    rw [hok] at hok'
    cases hok'
    rw [hword', hshown] at hword
    rw [hflips] at hflipped
    -- quotient and remainder by two divisors agree
    omega
  · intro hsteps
    refine ⟨fun state => ?_, ?_⟩
    · obtain ⟨state', hok, hword, -⟩ := hread state
      refine ⟨state', hok, ?_⟩
      rw [hword, hshown]
      omega
    · rw [hflips]
      omega

/-- T6 started at zero. -/
def started : GeneralPurposeTimer :=
  (sample [.write ⟨fun _ _ => 0, 0⟩ addrT6con 1 [0x40]]).2

namespace PeriodLemmas

theorem registered_started : Registered started :=
  (reaches_sample _).registered

/-- A run of any number of steps. -/
theorem exists_run (order : HashOrder) (conv : AddressConversion) (p : GeneralPurposeTimer)
    (n : Nat) :
    ∃ tr q, RunsAlone order conv p tr q ∧ steps tr = n := by
  induction n generalizing p with
  | zero => exact ⟨[], p, .nil p, rfl⟩
  | succ n ih =>
    obtain ⟨tr, q, hrun, hsteps⟩ := ih p.hookArchitecturalStep
    refine ⟨(p, .step ⟨fun _ _ => 0, 0⟩ 0) :: tr, q, .cons ⟨not_false, rfl⟩ hrun, ?_⟩
    rw [← hsteps, steps, List.countP_cons]
    rfl

end PeriodLemmas

/-- Two steps of a started timer. -/
theorem counts_iff_started :
    Counts .insertion .truncating
      [(started, .step ⟨fun _ _ => 0, 0⟩ 0),
        (started.hookArchitecturalStep, .step ⟨fun _ _ => 0, 0⟩ 0)]
      started.hookArchitecturalStep.hookArchitecturalStep :=
  (counts_iff registered_started rfl rfl
    (.cons ⟨id, rfl⟩ (.cons ⟨id, rfl⟩ (.nil _)))).mpr (by decide)

/-- After `65535` steps T6 shows zero. -/
theorem not_counts_full : ¬ ∀ (order : HashOrder) (conv : AddressConversion)
    (p q : GeneralPurposeTimer) (tr : List (GeneralPurposeTimer × HookEvent .le)), Registered p →
      p.backendCmt6.isEnabled = true → p.backendCmt6.currentTick = 0 →
      p.backendCmt6.getMatchToggle = false → RunsAlone order conv p tr q →
        Counts order conv tr q := by
  intro h
  obtain ⟨tr, q, hrun, hsteps⟩ := exists_run .insertion .truncating started 65535
  obtain ⟨-, hflips⟩ := h .insertion .truncating started q tr registered_started rfl rfl rfl hrun
  obtain ⟨-, -, hmatches⟩ := count_and_flips registered_started rfl rfl hrun
  rw [hmatches, hsteps] at hflips
  cases hflips

end GeneralPurposeTimer

end FuguexPeripheral.C166
