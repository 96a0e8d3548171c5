import FuguexPeripheral.Backend.RegisterWrite
import FuguexPeripheral.C166.GeneralPurposeTimer
import FuguexPeripheral.SuperH.Isolation

/-!
# The counters as 16-bit registers

The timers count in a `u128` behind registers of 16 bits. Only the match brings a counter
back, so one that is past its compare value, or set to the top value, goes on counting
where its register cannot show it.

Results:
1. `Clocked.fits_iff`: for any peripheral that ticks its timers and writes 16-bit values,
   the counters stay 16-bit counters exactly when no step finds one running at the top.
2. `counters_fit_iff`: the two peripherals.
-/

namespace FuguexPeripheral

open ByteStore Backend Fallible Runs

namespace Backend.CompareMatchTimer

/-! ## One timer -/

/-- The counter fits into 16 bits, and no register read fails for a count that is too
large. -/
def Fits (t : CompareMatchTimer) : Prop :=
  t.currentTick.toNat ≤ 0xffff ∧
    ∀ (O : Order) (order : HashOrder) (state : PCodeState O) (addr : Address) (val : BitVec 128),
      t.handleRegRead order state addr ≠ .error (.tickTooLarge val)

/-- The timer counts up to a 16-bit value. -/
structure Sixteen (t : CompareMatchTimer) : Prop where
  forward : t.countForward = true
  compare : t.compareAgainst.toNat ≤ 0xffff

/-- The timer is running, at the top value. -/
def AtTop (t : CompareMatchTimer) : Prop :=
  t.isEnabled = true ∧ t.currentTick.toNat = 0xffff

namespace RangeLemmas

theorem tickToU32_ne_error {val : BitVec 128} (h : val.toNat ≤ 0xffff) (e : TimerPanic) :
    tickToU32 val ≠ .error e := by
  unfold tickToU32
  rw [if_pos (by omega)]
  exact nofun

theorem setBitsVal_ne_tickTooLarge (val mask setVal : UInt32) (v : BitVec 128) :
    setBitsVal val mask setVal ≠ .error (.tickTooLarge v) := by
  unfold setBitsVal
  split
  · exact nofun
  · exact nofun

/-- Counts of 16 bits are no obstacle to a read. -/
theorem readBits_ne_tickTooLarge {t : CompareMatchTimer} (hs : t.Sixteen)
    (h : t.currentTick.toNat ≤ 0xffff) (val : UInt32) (entry : UInt32 × FunName)
    (v : BitVec 128) : t.readBits val entry ≠ .error (.tickTooLarge v) := by
  have hcount : ∀ count : BitVec 128, count.toNat ≤ 0xffff →
      (tickToU32 count).bind (setBitsVal val entry.1) ≠ .error (.tickTooLarge v) := by
    intro count hle herr
    rcases error_of_bind_eq_error herr with htick | ⟨_, _, hset⟩
    · exact tickToU32_ne_error hle _ htick
    · exact setBitsVal_ne_tickTooLarge _ _ _ _ hset
  unfold readBits
  dsimp only
  split
  case h_4 => exact hcount _ hs.compare
  case h_5 => exact hcount _ h
  all_goals exact nofun

theorem fits_of_le {t : CompareMatchTimer} (hs : t.Sixteen) (h : t.currentTick.toNat ≤ 0xffff) :
    t.Fits := by
  refine ⟨h, fun O order state addr v hread => ?_⟩
  unfold handleRegRead at hread
  split at hread
  · cases hread
  next m hm =>
    rcases error_of_bind_eq_error hread with hloop | ⟨_, _, hok⟩
    · exact foldlM_ne_error _ (fun val x _ => readBits_ne_tickTooLarge hs h val x v) hloop
    · cases hok

/-! ### Ticks and writes -/

theorem sixteen_tick {t : CompareMatchTimer} (hs : t.Sixteen) : t.tick.2.Sixteen := by
  rw [tick_frame]
  exact ⟨hs.forward, hs.compare⟩

/-- A counter that fits still does after a tick, unless it was running at the top. -/
theorem tick_le_iff {t : CompareMatchTimer} (hs : t.Sixteen) (h : t.currentTick.toNat ≤ 0xffff) :
    t.tick.2.currentTick.toNat ≤ 0xffff ↔ ¬ t.AtTop := by
  cases he : t.isEnabled with
  | false => simp [tick_disabled he, AtTop, he, h]
  | true =>
    obtain ⟨hhit, hcount⟩ := tick_enabled he hs.forward (by omega)
    have hcompare := hs.compare
    rw [hcount, AtTop, he]
    clear hcount
    cases hm : t.tick.1 with
    | false =>
      simp only [Bool.false_and, Bool.false_eq_true, if_false, true_and]
      omega
    | true =>
      rw [hm, eq_comm, decide_eq_true_eq] at hhit
      cases t.resetOnMatch with
      | false =>
        simp only [Bool.and_false, Bool.false_eq_true, if_false, true_and]
        omega
      | true =>
        simp only [Bool.and_self, if_true, true_and]
        omega

theorem writtenCount_le {v : UInt32} (h : v.toNat < 2 ^ 16) (mask : UInt32) :
    (writtenCount v mask).toNat ≤ 0xffff := by
  rw [RegisterWriteLemmas.toNat_writtenCount]
  split
  · exact Nat.zero_le _
  · exact Nat.le_of_lt_succ h

end RangeLemmas

open RangeLemmas

/-! ## Peripherals of timers -/

/-- What an access with 16-bit values may make of a timer. -/
structure Rewritten (t t' : CompareMatchTimer) : Prop where
  forward : t'.countForward = t.countForward
  compare : t'.compareAgainst = t.compareAgainst ∨ t'.compareAgainst.toNat ≤ 0xffff
  count : t'.currentTick = t.currentTick ∨ t'.currentTick.toNat ≤ 0xffff

theorem Rewritten.refl (t : CompareMatchTimer) : Rewritten t t :=
  ⟨rfl, .inl rfl, .inl rfl⟩

theorem Rewritten.sixteen {t t' : CompareMatchTimer} (h : Rewritten t t') (hs : t.Sixteen) :
    t'.Sixteen :=
  ⟨h.forward.trans hs.forward, h.compare.elim (fun he => he ▸ hs.compare) id⟩

section Clocked

variable {σ : Type*} {O : Order} {step : σ → HookEvent O → σ → Prop}
  {timers : σ → List CompareMatchTimer} {I : σ → Prop} {ok : HookEvent O → Prop}

/-- A peripheral that ticks its timers at a step and writes 16-bit values to them at the
accesses that are `ok`. -/
structure Clocked (step : σ → HookEvent O → σ → Prop) (timers : σ → List CompareMatchTimer)
    (I : σ → Prop) (ok : HookEvent O → Prop) : Prop where
  keep : ∀ q e r, I q → step q e r → I r
  tick : ∀ q state address r, I q → step q (.step state address) r →
    timers r = (timers q).map fun t => t.tick.2
  access : ∀ q e r, I q → ok e → (∀ state address, e ≠ .step state address) → step q e r →
    ∀ t' ∈ timers r, ∃ t ∈ timers q, Rewritten t t'

/-- Every counter fits, in every state of the run. -/
def CountersFit (timers : σ → List CompareMatchTimer) (tr : List (σ × HookEvent O)) (p : σ) :
    Prop :=
  (∀ q e, (q, e) ∈ tr → ∀ t ∈ timers q, t.Fits) ∧ ∀ t ∈ timers p, t.Fits

/-- No step of the run finds a timer running at the top value. -/
def NoOverrun (timers : σ → List CompareMatchTimer) (tr : List (σ × HookEvent O)) : Prop :=
  ∀ q state address, (q, .step state address) ∈ tr → ∀ t ∈ timers q, ¬ t.AtTop

/-- Where a timer after a step comes from. -/
theorem Clocked.origin (hc : Clocked step timers I ok) {q r : σ} {e : HookEvent O} (hq : I q)
    (hok : ok e) (hstep : step q e r) {t' : CompareMatchTimer} (ht' : t' ∈ timers r) :
    ∃ t ∈ timers q, Rewritten t t' ∨ ((∃ state address, e = .step state address) ∧
      t' = t.tick.2) := by
  cases e with
  | step state address =>
    rw [hc.tick q state address r hq hstep] at ht'
    obtain ⟨t, ht, rfl⟩ := List.mem_map.mp ht'
    exact ⟨t, ht, .inr ⟨⟨state, address, rfl⟩, rfl⟩⟩
  | read state address size =>
    obtain ⟨t, ht, hrew⟩ := hc.access q _ r hq hok (by simp) hstep t' ht'
    exact ⟨t, ht, .inl hrew⟩
  | write state address size value =>
    obtain ⟨t, ht, hrew⟩ := hc.access q _ r hq hok (by simp) hstep t' ht'
    exact ⟨t, ht, .inl hrew⟩

/-- A call keeps 16-bit timers. -/
theorem Clocked.sixteen (hc : Clocked step timers I ok) {q r : σ} {e : HookEvent O} (hq : I q)
    (hok : ok e) (hstep : step q e r) (hs : ∀ t ∈ timers q, t.Sixteen) :
    ∀ t' ∈ timers r, t'.Sixteen := by
  intro t' ht'
  obtain ⟨t, ht, hrew | ⟨-, rfl⟩⟩ := hc.origin hq hok hstep ht'
  · exact hrew.sixteen (hs t ht)
  · exact sixteen_tick (hs t ht)

/-- A call that finds no timer running at the top keeps the counts in 16 bits. -/
theorem Clocked.count_le (hc : Clocked step timers I ok) {q r : σ} {e : HookEvent O} (hq : I q)
    (hok : ok e) (hstep : step q e r) (hs : ∀ t ∈ timers q, t.Sixteen)
    (hle : ∀ t ∈ timers q, t.currentTick.toNat ≤ 0xffff)
    (hno : (∃ state address, e = .step state address) → ∀ t ∈ timers q, ¬ t.AtTop) :
    ∀ t' ∈ timers r, t'.currentTick.toNat ≤ 0xffff := by
  intro t' ht'
  obtain ⟨t, ht, hrew | ⟨he, rfl⟩⟩ := hc.origin hq hok hstep ht'
  · rcases hrew.count with hcount | hcount
    · rw [hcount]
      exact hle t ht
    · exact hcount
  · exact (tick_le_iff (hs t ht) (hle t ht)).mpr (hno he t ht)

/-- The counters fit throughout a run exactly when no step of it finds a timer running at
the top value. -/
theorem Clocked.fits_iff (hc : Clocked step timers I ok) {s p : σ} {tr : List (σ × HookEvent O)}
    (h : Run step s tr p) (hI : I s)
    (hs : ∀ t ∈ timers s, t.Sixteen ∧ t.currentTick.toNat ≤ 0xffff)
    (hok : ∀ q e, (q, e) ∈ tr → ok e) :
    CountersFit timers tr p ↔ NoOverrun timers tr := by
  have hsixteen := h.invariant_mem (fun q => I q ∧ ∀ t ∈ timers q, t.Sixteen)
    ⟨hI, fun t ht => (hs t ht).1⟩ fun q e r hm hq hstep =>
      ⟨hc.keep q e r hq.1 hstep, hc.sixteen hq.1 (hok q e hm) hstep hq.2⟩
  constructor
  · rintro ⟨hall, hend⟩ q state address hm t ht
    obtain ⟨hq, hsix⟩ := hsixteen.2 q _ hm
    obtain ⟨r, hstep, hr⟩ := h.next_of_mem hall hend hm
    rw [hc.tick q state address r hq hstep] at hr
    exact (tick_le_iff (hsix t ht) (hall q _ hm t ht).1).mp (hr _ (List.mem_map_of_mem ht)).1
  · intro hno
    have hcount := h.invariant_mem (fun q => ∀ t ∈ timers q, t.currentTick.toNat ≤ 0xffff)
      (fun t ht => (hs t ht).2) fun q e r hm hle hstep => by
        obtain ⟨hq, hsix⟩ := hsixteen.2 q e hm
        refine hc.count_le hq (hok q e hm) hstep hsix hle ?_
        rintro ⟨state, address, rfl⟩
        exact hno q state address hm
    exact ⟨fun q e hm t ht => fits_of_le ((hsixteen.2 q e hm).2 t ht) (hcount.2 q e hm t ht),
      fun t ht => fits_of_le (hsixteen.1.2 t ht) (hcount.1 t ht)⟩

end Clocked

end Backend.CompareMatchTimer

open Backend.CompareMatchTimer RangeLemmas

/-! ## The C166 timer -/

namespace C166.GeneralPurposeTimer

def timers (p : GeneralPurposeTimer) : List Backend.CompareMatchTimer :=
  [p.backendCmt6]

theorem regWriteMap_of_access {order : HashOrder} {conv : AddressConversion}
    {p p' : GeneralPurposeTimer} {e : HookEvent .le} (he : ∀ state address, e ≠ .step state address)
    (hmap : p.backendCmt6.regWriteMap = newTimer.regWriteMap) (h : p.apply order conv e = .ok p') :
    p'.backendCmt6.regWriteMap = p.backendCmt6.regWriteMap := by
  rcases apply_access he hmap h with h | ⟨on, toggle, h⟩ | ⟨v, hv, h⟩
  · rw [h]
  · rw [h]
    rfl
  · rw [h]
    rfl

theorem clocked (order : HashOrder) (conv : AddressConversion) :
    Clocked (fun p e p' => p.apply order conv e = .ok p') timers
      (fun p => p.backendCmt6.regWriteMap = newTimer.regWriteMap) (fun _ => True) where
  keep := by
    intro q e r hq hstep
    cases e with
    | step state address =>
      cases hstep
      rw [hookArchitecturalStep, tick_frame]
      exact hq
    | read state address size => exact (regWriteMap_of_access (by simp) hq hstep).trans hq
    | write state address size value => exact (regWriteMap_of_access (by simp) hq hstep).trans hq
  tick := by
    intro q state address r _ hstep
    cases hstep
    rfl
  access := by
    intro q e r hq _ he hstep t' ht'
    rw [List.mem_singleton.mp ht']
    refine ⟨_, List.mem_singleton_self _, ?_⟩
    rcases apply_access he hq hstep with h | ⟨on, toggle, h⟩ | ⟨v, hv, h⟩
    · rw [h]
      exact .refl _
    · rw [h]
      exact ⟨rfl, .inl rfl, .inl rfl⟩
    · rw [h]
      exact ⟨rfl, .inl rfl, .inr (writtenCount_le hv _)⟩

end C166.GeneralPurposeTimer

/-! ## The SuperH timers -/

namespace SuperH.CompareMatchTimer

def timers (p : CompareMatchTimer) : List Backend.CompareMatchTimer :=
  [p.timer .cmt0, p.timer .cmt1]

/-- A write of at most two bytes. -/
def Narrow : HookEvent .be → Prop
  | .write _ _ _ value => value.length ≤ 2
  | _ => True

theorem rewritten_of_access {order : HashOrder} {emu : Machine} {q r : CompareMatchTimer}
    {e : HookEvent .be} (hq : Wired q) (hnarrow : Narrow e)
    (he : ∀ state address, e ≠ .step state address) (h : q.apply order emu e = .ok r)
    (i : Channel) : Rewritten (q.timer i) (r.timer i) := by
  rw [(hq.apply h).2 i]
  cases e with
  | step state address => exact absurd rfl (he state address)
  | read state address size => exact .refl _
  | write state address size value =>
    have hlt := PCodeState.toNat_ofNat_decode_lt .be hnarrow
    simp only [command, writeCommand]
    split_ifs
    · exact ⟨rfl, .inl rfl, .inl rfl⟩
    · exact ⟨rfl, .inl rfl, .inl rfl⟩
    · exact ⟨rfl, .inl rfl, .inr (writtenCount_le hlt _)⟩
    · exact ⟨rfl, .inr (writtenCount_le hlt _), .inl rfl⟩
    · exact .refl _

theorem clocked (order : HashOrder) (emu : Machine) :
    Clocked (fun p e p' => p.apply order emu e = .ok p') timers Wired Narrow where
  keep := fun _ _ _ hq hstep => (hq.apply hstep).1
  tick := by
    intro q state address r hq hstep
    have htimer := (hq.apply hstep).2
    simp only [timers, htimer]
    rfl
  access := by
    intro q e r hq hnarrow he hstep t' ht'
    simp only [timers, List.mem_cons, List.not_mem_nil, or_false] at ht'
    rcases ht' with rfl | rfl
    · exact ⟨_, List.mem_cons_self, rewritten_of_access hq hnarrow he hstep .cmt0⟩
    · exact ⟨_, List.mem_cons_of_mem _ List.mem_cons_self,
        rewritten_of_access hq hnarrow he hstep .cmt1⟩

end SuperH.CompareMatchTimer

/-! ## Both peripherals -/

/-- For every run of either peripheral, with writes of at most two bytes: every counter
stays within 16 bits, and no register read fails for it, exactly when no step of the run
finds a timer running at `0xffff`. -/
theorem counters_fit_iff (order : HashOrder) :
    (∀ (conv : AddressConversion)
      (tr : List (C166.GeneralPurposeTimer × HookEvent .le)) (p : C166.GeneralPurposeTimer),
      C166.GeneralPurposeTimer.Reaches order conv tr p →
      (CountersFit C166.GeneralPurposeTimer.timers tr p ↔
        NoOverrun C166.GeneralPurposeTimer.timers tr)) ∧
    (∀ (emu : SuperH.Machine)
      (tr : List (SuperH.CompareMatchTimer × HookEvent .be)) (p : SuperH.CompareMatchTimer),
      SuperH.CompareMatchTimer.Reaches order emu tr p →
      (∀ q e, (q, e) ∈ tr → SuperH.CompareMatchTimer.Narrow e) →
      (CountersFit SuperH.CompareMatchTimer.timers tr p ↔
        NoOverrun SuperH.CompareMatchTimer.timers tr)) := by
  constructor
  · intro conv tr p h
    refine (C166.GeneralPurposeTimer.clocked order conv).fits_iff h rfl (fun t ht => ?_)
      fun _ _ _ => trivial
    rw [List.mem_singleton.mp ht]
    exact ⟨⟨rfl, by decide⟩, by decide⟩
  · intro emu tr p h hnarrow
    refine (SuperH.CompareMatchTimer.clocked order emu).fits_iff h
      SuperH.CompareMatchTimer.wired_new (fun t ht => ?_) hnarrow
    simp only [SuperH.CompareMatchTimer.timers, List.mem_cons, List.not_mem_nil, or_false] at ht
    rcases ht with rfl | rfl
    · exact ⟨⟨rfl, by decide⟩, by decide⟩
    · exact ⟨⟨rfl, by decide⟩, by decide⟩

/-- Channel 0 of the SuperH timer is started. -/
theorem counters_fit_iff_start :
    CountersFit SuperH.CompareMatchTimer.timers
        (SuperH.CompareMatchTimer.sample [SuperH.CompareMatchTimer.poke 0xfffec000 [0, 1],
          .step SuperH.CompareMatchTimer.plainState 0]).1
        (SuperH.CompareMatchTimer.sample [SuperH.CompareMatchTimer.poke 0xfffec000 [0, 1],
          .step SuperH.CompareMatchTimer.plainState 0]).2 ↔
      NoOverrun SuperH.CompareMatchTimer.timers
        (SuperH.CompareMatchTimer.sample [SuperH.CompareMatchTimer.poke 0xfffec000 [0, 1],
          .step SuperH.CompareMatchTimer.plainState 0]).1 :=
  (counters_fit_iff _).2 _ _ _ (SuperH.CompareMatchTimer.reaches_sample _) (by
    intro q e hm
    rcases List.mem_pair.mp (mem_of_mem_tracePartial hm) with rfl | rfl
    · exact Nat.le_refl 2
    · exact trivial)

/-- T6 is set to its top value and started. -/
def startAtTop : List (HookEvent .le) :=
  [.write ⟨fun _ _ => 0, 0⟩ 0xfe48 2 [0xff, 0xff], .write ⟨fun _ _ => 0, 0⟩ 0xff48 1 [0x40],
    .step ⟨fun _ _ => 0, 0⟩ 0]

/-- The counter goes on to `0x10000`. -/
theorem startAtTop_overruns :
    ¬ CountersFit C166.GeneralPurposeTimer.timers (C166.GeneralPurposeTimer.sample startAtTop).1
      (C166.GeneralPurposeTimer.sample startAtTop).2 := by
  rintro ⟨-, hend⟩
  exact absurd (hend _ List.mem_cons_self).1 (by decide)

end FuguexPeripheral
