import FuguexPeripheral.Backend.Operations
import FuguexPeripheral.Backend.RegisterRead

/-!
# The flags for overflow and underflow

A match counting forward is an overflow, and one counting backward an underflow. The timer
has a flag for each, a getter for both together and setters for the software, and no tick
ever sets a flag: a match is recorded only where the flag was set before it.

Results:
1. `tick_flags`, `apply_flagOverflow`: ticks leave the flags alone, and the overflow flag
   goes only with an operation that clears flags.
2. `readsOne_iff`: a register bit behind the common getter shows the overflow flag.
3. `recorded_iff`: when the matches of a run are recorded.
-/

namespace FuguexPeripheral.Backend

open ByteStore Masks Runs

namespace CompareMatchTimer

/-- The software clears a flag: with one of its setters, or by writing a register that
`set_flag_overunderflow` is behind. -/
def Clears (t : CompareMatchTimer) : Op → Prop
  | .setFlagOverflow val => val = false
  | .setFlagUnderflow val => val = false
  | .setFlagUnderoverflow val => val = false
  | .handleRegWrite addr _ =>
    ∃ m, t.regWriteMap addr = some m ∧ .setFlagOverunderflow ∈ m.map Prod.snd
  | _ => False

/-- Whatever the registers of the timer are, a bit that is mapped to
`get_flag_overunderflow` and to nothing else reads 1. -/
def ReadsOne (t : CompareMatchTimer) : Prop :=
  ∀ (registers : Address → Option MaskMap) (O : Order) (order : HashOrder) (state : PCodeState O)
    (addr : Address) (m : MaskMap) (mask : UInt32) (i : Nat) (r : UInt32 × PCodeState O),
    registers addr = some m → (mask, .getFlagOverunderflow) ∈ m → bit mask i = true →
      (∀ entry ∈ m, bit entry.1 i = true → entry = (mask, .getFlagOverunderflow)) →
        { t with regReadMap := registers }.handleRegRead order state addr = .ok r →
          bit r.1 i = true

/-- The match of a tick in `q` sets the flag for the direction of the count. -/
def SetsFlag (q : CompareMatchTimer) : Prop :=
  (q.countForward = true → q.tick.2.flagOverflow = true) ∧
    (q.countForward = false → q.tick.2.flagUnderflow = true)

/-- Every match of a run sets the flag for its direction, and from then on a register bit
for both flags reads 1, until the software clears flags. -/
def Recorded (order : HashOrder) (tr : List (CompareMatchTimer × Op)) : Prop :=
  ∀ before q after rest t, tr = before ++ (q, .tick) :: (after ++ rest) → q.tick.1 = true →
    Operated order q.tick.2 after t →
      SetsFlag q ∧ ((∀ s op, (s, op) ∈ after → ¬ s.Clears op) → t.ReadsOne)

/-- The tick of a match finds the flags as it should leave them: the overflow flag, which is
all the common getter looks at, and backward the underflow flag. -/
def FlagsBefore (q : CompareMatchTimer) : Prop :=
  q.isEnabled = true → q.nextTick = q.compareAgainst →
    q.flagOverflow = true ∧ (q.countForward = false → q.flagUnderflow = true)

namespace FlagsLemmas

variable {order : HashOrder} {t t' : CompareMatchTimer}

/-- A tick returns true for an enabled timer whose next count is compared against. -/
theorem tick_fst_iff (t : CompareMatchTimer) :
    t.tick.1 = true ↔ t.isEnabled = true ∧ t.nextTick = t.compareAgainst := by
  unfold tick isEnabled
  cases t.counterStart with
  | false => simp
  | true =>
    rw [if_neg (by simp)]
    dsimp only
    split
    next h => exact ⟨fun _ => ⟨rfl, h⟩, fun _ => rfl⟩
    next h => exact ⟨fun hm => absurd hm Bool.false_ne_true, fun hm => absurd hm.2 h⟩

end FlagsLemmas

open FlagsLemmas

/-- No tick touches the flags. -/
theorem tick_flags (t : CompareMatchTimer) :
    t.tick.2.flagOverflow = t.flagOverflow ∧ t.tick.2.flagUnderflow = t.flagUnderflow := by
  rw [tick_frame]
  exact ⟨rfl, rfl⟩

/-- The overflow flag stays set until the software clears flags. -/
theorem apply_flagOverflow {order : HashOrder} {t t' : CompareMatchTimer} {op : Op}
    (h : t.apply order op = .ok t') (hclear : ¬ t.Clears op) (hset : t.flagOverflow = true) :
    t'.flagOverflow = true := by
  cases op with
  | setFlagOverflow val | setFlagUnderoverflow val =>
    cases h
    exact Bool.not_eq_false val ▸ hclear
  | handleRegWrite addr v =>
    cases hm : t.regWriteMap addr with
    | none =>
      rw [apply, handleRegWrite, hm] at h
      cases h
    | some m =>
      obtain ⟨-, rfl⟩ := (handleRegWrite_eq_ok_iff hm order v t').mp h
      have hnot : .setFlagOverunderflow ∉ (order.arrange addr m).map Prod.snd := by
        rw [((order.perm addr m).map Prod.snd).mem_iff]
        exact fun hmem => hclear ⟨m, hm, hmem⟩
      exact ((RegisterWriteLemmas.keeps_foldl_assigned v _ t).flagOverflow hnot).trans hset
  | tick =>
    cases h
    exact (tick_flags t).1.trans hset
  | _ =>
    cases h
    exact hset

/-- The common getter is the overflow flag, so a register shows that flag for both. -/
theorem readsOne_iff (t : CompareMatchTimer) : t.ReadsOne ↔ t.flagOverflow = true := by
  constructor
  · intro h
    have hread := h (fun _ => some [(2, .getFlagOverunderflow)]) .le .insertion
      ⟨fun _ _ => 0, 0⟩ 0 _ 2 1 _ rfl List.mem_cons_self (by decide)
      (fun entry he _ => List.mem_singleton.mp he) rfl
    cases hf : t.flagOverflow with
    | true => rfl
    | false =>
      change bit (setBitsBool 0 2 (t.flagOverflow || t.flagOverflow)) 1 = true at hread
      rw [hf] at hread
      exact absurd hread (by decide)
  · intro hf registers O order state addr m mask i r hm hmem hi honly hread
    obtain ⟨-, hr, -⟩ := (handleRegRead_eq_ok_iff (t := { t with regReadMap := registers }) hm
      order state r).mp hread
    rw [hr]
    have hbits : fieldBits { t with regReadMap := registers } (mask, .getFlagOverunderflow) =
        mask := by
      change (if (t.flagOverflow || t.flagOverflow) then mask else 0) = mask
      rw [hf]
      rfl
    have hmem' : (mask, .getFlagOverunderflow) ∈ order.arrange addr m :=
      (order.perm addr m).mem_iff.mpr hmem
    refine bit_patches_eq ?_ (.inr ⟨(mask, mask), ?_, hi⟩)
    · intro field hfield hfi
      obtain ⟨entry, hentry, rfl⟩ := List.mem_map.mp hfield
      rw [honly entry ((order.perm addr m).mem_iff.mp hentry) hfi, hbits]
      exact hi
    · refine List.mem_map.mpr ⟨_, hmem', ?_⟩
      rw [hbits]

/-- A run records its matches when, and only when, each finds the flags set. -/
theorem recorded_iff {order : HashOrder} {tr : List (CompareMatchTimer × Op)}
    {t : CompareMatchTimer} (h : Operated order default tr t) :
    Recorded order tr ↔ ∀ q, (q, .tick) ∈ tr → q.FlagsBefore := by
  constructor
  · intro hrec q hq he hn
    obtain ⟨before, after, rfl⟩ := List.append_of_mem hq
    obtain ⟨⟨-, hback⟩, hone⟩ := hrec before q [] after q.tick.2 rfl
      ((tick_fst_iff q).mpr ⟨he, hn⟩) (.nil _)
    have hover := (readsOne_iff _).mp (hone fun _ _ hm => absurd hm List.not_mem_nil)
    rw [(tick_flags q).1] at hover
    refine ⟨hover, fun hf => ?_⟩
    rw [← (tick_flags q).2]
    exact hback hf
  · intro hbefore before q after rest t htr hmatch hrun
    have hq : (q, .tick) ∈ tr := htr ▸ List.mem_append_right _ List.mem_cons_self
    obtain ⟨he, hn⟩ := (tick_fst_iff q).mp hmatch
    obtain ⟨hover, hunder⟩ := hbefore q hq he hn
    obtain ⟨hkeep, hkeep'⟩ := tick_flags q
    refine ⟨⟨fun _ => hkeep.trans hover, fun hf => hkeep'.trans (hunder hf)⟩, fun hclear => ?_⟩
    rw [readsOne_iff]
    refine (hrun.invariant_mem (fun s => s.flagOverflow = true) (hkeep.trans hover) ?_).1
    exact fun s op s' hm hs hstep => apply_flagOverflow hstep (hclear s op hm) hs

/-- The run of a timer whose flags are set before its match, forward and backward. -/
def matching : List Op :=
  [.setFlagUnderoverflow true, .setCompareAgainst 1, .setEnable true, .tick,
    .setCountForward false, .setCurrentTick 2, .tick]

theorem recorded_iff_matching : Recorded .insertion (operate matching).1 := by
  refine (recorded_iff (operated_operate matching)).mpr fun q hq => ?_
  simp [operate, tracePartial, matching, apply] at hq
  rcases hq with rfl | rfl
  · exact fun _ _ => ⟨rfl, fun _ => rfl⟩
  · exact fun _ _ => ⟨rfl, fun _ => rfl⟩

/-- The first match of a timer leaves no flag. -/
theorem not_recorded_first_match : ¬ ∀ (order : HashOrder) (tr : List (CompareMatchTimer × Op))
    (t : CompareMatchTimer), Operated order default tr t → Recorded order tr := by
  intro h
  let ops : List Op := [.setCompareAgainst 1, .setEnable true, .tick]
  let q := ((default : CompareMatchTimer).setCompareAgainst 1).setEnable true
  obtain ⟨⟨hover, -⟩, -⟩ := h .insertion (operate ops).1 _ (operated_operate ops)
    [(default, .setCompareAgainst 1), ((default : CompareMatchTimer).setCompareAgainst 1,
      .setEnable true)] q [] [] q.tick.2 rfl rfl (.nil _)
  exact absurd (hover rfl) (by decide)

end CompareMatchTimer

end FuguexPeripheral.Backend
