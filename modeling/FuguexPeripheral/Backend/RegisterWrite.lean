import FuguexPeripheral.Backend.CompareMatchTimer
import FuguexPeripheral.Fallible

/-!
# What a register write sets

A write goes through the entries of the register's map, in an order that is left open. An
entry is accepted or refused on its own account, and sets a field that no other function
sets.

The tables for set and for clear bits do not list the same functions: the flags for
overflow and underflow can be cleared, and setting one of their bits panics.

Results:
1. `writeBits_eq`: an accepted entry assigns its field.
2. `handleRegWrite_eq_ok_iff`: a write returns when every entry is accepted.
3. `handleRegWrite_perm`: the order of the entries does not matter.
4. `foldl_assigned`: what a write leaves, field by field. The last mask of a function wins.
5. `handleRegWrite_panics_iff_iff`: when two values are both refused or both accepted.
-/

namespace FuguexPeripheral.Backend

open Fallible

/-- The functions that a register write knows. -/
def FunName.isSetter : FunName → Bool
  | .setEnable | .setInterruptEnabled | .setCompareAgainst | .clearMatchedFlag
  | .setCurrentTick | .setCountForward | .setMatchToggle | .setFlagOverunderflow => true
  | _ => false

namespace CompareMatchTimer

/-- The entry is in the table for set bits or in the one for clear bits, whichever applies.
The table for set bits lacks `set_flag_overunderflow`. -/
def accepts (writeVal : UInt32) (entry : UInt32 × FunName) : Bool :=
  entry.2.isSetter && (entry.2 != .setFlagOverunderflow || writeVal &&& entry.1 == 0)

/-- The timer after an accepted entry. -/
def assigned (writeVal : UInt32) (t : CompareMatchTimer) (entry : UInt32 × FunName) :
    CompareMatchTimer :=
  match entry.2 with
  | .setEnable => t.setEnable (decide (writeVal &&& entry.1 ≠ 0))
  | .setInterruptEnabled => t.setInterruptEnabled (decide (writeVal &&& entry.1 ≠ 0))
  | .setCompareAgainst => t.setCompareAgainst (writtenCount writeVal entry.1)
  | .clearMatchedFlag => { t with matched := t.matched && decide (writeVal &&& entry.1 ≠ 0) }
  | .setCurrentTick => t.setCurrentTick (writtenCount writeVal entry.1)
  | .setCountForward => t.setCountForward (decide (writeVal &&& entry.1 ≠ 0))
  | .setMatchToggle => t.setMatchToggle (decide (writeVal &&& entry.1 ≠ 0))
  | .setFlagOverunderflow => t.setFlagUnderoverflow false
  | _ => t

theorem writeBits_eq (v : UInt32) (t : CompareMatchTimer) (entry : UInt32 × FunName) :
    writeBits v t entry =
      if accepts v entry then .ok (assigned v t entry) else .error (.notSupported entry.2) := by
  obtain ⟨mask, funName⟩ := entry
  cases funName with
  | setEnable => exact writeBits_setEnable v mask t
  | setInterruptEnabled => exact writeBits_setInterruptEnabled v mask t
  | setCompareAgainst => exact writeBits_setCompareAgainst v mask t
  | clearMatchedFlag => exact writeBits_clearMatchedFlag v mask t
  | setCurrentTick => exact writeBits_setCurrentTick v mask t
  | setMatchToggle => exact writeBits_setMatchToggle v mask t
  | setCountForward =>
    by_cases h : v &&& mask = 0 <;> simp [writeBits, accepts, assigned, FunName.isSetter, h]
  | setFlagOverunderflow =>
    by_cases h : v &&& mask = 0 <;> simp [writeBits, accepts, assigned, FunName.isSetter, h]
  | _ => by_cases h : v &&& mask = 0 <;> simp [writeBits, accepts, FunName.isSetter, h]

namespace RegisterWriteLemmas

variable {v : UInt32} {t : CompareMatchTimer}

theorem writeBits_isOk_iff (v : UInt32) (entry : UInt32 × FunName) (t : CompareMatchTimer) :
    (∃ t', writeBits v t entry = .ok t') ↔ accepts v entry = true := by
  rw [writeBits_eq]
  cases accepts v entry <;> simp

theorem foldlM_writeBits (l : MaskMap) (t : CompareMatchTimer)
    (h : ∀ entry ∈ l, accepts v entry = true) :
    l.foldlM (writeBits v) t = .ok (l.foldl (assigned v) t) := by
  refine foldlM_eq_ok t fun entry hentry t => ?_
  rw [writeBits_eq, if_pos (h entry hentry)]

end RegisterWriteLemmas

open RegisterWriteLemmas

/-- A write returns when every entry of the map is accepted. -/
theorem handleRegWrite_eq_ok_iff {t : CompareMatchTimer} {addr : Address} {m : MaskMap}
    (hm : t.regWriteMap addr = some m) (order : HashOrder) (v : UInt32) (t' : CompareMatchTimer) :
    t.handleRegWrite order addr v = .ok t' ↔
      (∀ entry ∈ m, accepts v entry = true) ∧ t' = (order.arrange addr m).foldl (assigned v) t := by
  have hmem : ∀ entry, entry ∈ order.arrange addr m ↔ entry ∈ m := fun entry =>
    (order.perm addr m).mem_iff
  rw [handleRegWrite, hm]
  dsimp only
  constructor
  · intro h
    have hok := (foldlM_isOk_iff _ (writeBits_isOk_iff v)).mp ⟨t', h⟩
    rw [foldlM_writeBits _ _ hok] at h
    cases h
    exact ⟨fun entry hentry => hok entry ((hmem entry).mpr hentry), rfl⟩
  · rintro ⟨hok, rfl⟩
    exact foldlM_writeBits _ _ fun entry hentry => hok entry ((hmem entry).mp hentry)

theorem handleRegWrite_eq_error_iff {t : CompareMatchTimer} {addr : Address} {m : MaskMap}
    (hm : t.regWriteMap addr = some m) (order : HashOrder) (v : UInt32) :
    (∃ e, t.handleRegWrite order addr v = .error e) ↔ ∃ entry ∈ m, accepts v entry = false := by
  rw [← not_exists_ok_iff]
  simp only [handleRegWrite_eq_ok_iff hm]
  simp

/-! ## The order of the entries -/

/-- The fields that no function of the map sets are the same. No register sets whether the
count is reset on a match, or the maps. -/
structure Keeps (m : MaskMap) (t t' : CompareMatchTimer) : Prop where
  counterStart : .setEnable ∉ m.map Prod.snd → t'.counterStart = t.counterStart
  currentTick : .setCurrentTick ∉ m.map Prod.snd → t'.currentTick = t.currentTick
  compareAgainst : .setCompareAgainst ∉ m.map Prod.snd → t'.compareAgainst = t.compareAgainst
  countForward : .setCountForward ∉ m.map Prod.snd → t'.countForward = t.countForward
  flagOverflow : .setFlagOverunderflow ∉ m.map Prod.snd → t'.flagOverflow = t.flagOverflow
  flagUnderflow : .setFlagOverunderflow ∉ m.map Prod.snd → t'.flagUnderflow = t.flagUnderflow
  matched : .clearMatchedFlag ∉ m.map Prod.snd → t'.matched = t.matched
  resetOnMatch : t'.resetOnMatch = t.resetOnMatch
  interruptEnabled :
    .setInterruptEnabled ∉ m.map Prod.snd → t'.interruptEnabled = t.interruptEnabled
  matchToggle : .setMatchToggle ∉ m.map Prod.snd → t'.matchToggle = t.matchToggle
  regReadMap : t'.regReadMap = t.regReadMap
  regWriteMap : t'.regWriteMap = t.regWriteMap

namespace RegisterWriteLemmas

/-- Different functions set different fields. -/
theorem assigned_comm (v : UInt32) (t : CompareMatchTimer) {e f : UInt32 × FunName}
    (h : e.2 ≠ f.2) : assigned v (assigned v t e) f = assigned v (assigned v t f) e := by
  obtain ⟨mask, funName⟩ := e
  obtain ⟨mask', funName'⟩ := f
  cases funName <;> cases funName' <;> first | rfl | exact absurd rfl h

theorem foldl_assigned_perm (v : UInt32) (t : CompareMatchTimer) {l l' : MaskMap}
    (hperm : l.Perm l') (hfun : (l.map Prod.snd).Nodup) :
    l.foldl (assigned v) t = l'.foldl (assigned v) t := by
  refine hperm.foldl_eq' (fun e he f hf t => ?_) t
  by_cases hef : e = f
  · rw [hef]
  · exact assigned_comm v t fun h => hef (List.inj_on_of_nodup_map hfun he hf h)

/-- A field stays as it is when each entry leaves it alone. -/
theorem foldl_assigned_field {α : Type} (get : CompareMatchTimer → α) {l : MaskMap}
    (h : ∀ t, ∀ entry ∈ l, get (assigned v t entry) = get t) (t : CompareMatchTimer) :
    get (l.foldl (assigned v) t) = get t := by
  induction l generalizing t with
  | nil => rfl
  | cons entry l ih =>
    rw [List.foldl_cons, ih (fun t e he => h t e (List.mem_cons_of_mem entry he))]
    exact h t entry List.mem_cons_self

/-- A field stays as it is when its function is not in the map. -/
theorem foldl_assigned_field_of_not_mem {α : Type} (get : CompareMatchTimer → α)
    (funName : FunName) (v : UInt32)
    (h : ∀ t entry, entry.2 ≠ funName → get (assigned v t entry) = get t) {l : MaskMap}
    (hl : funName ∉ l.map Prod.snd) (t : CompareMatchTimer) :
    get (l.foldl (assigned v) t) = get t := by
  refine foldl_assigned_field get (fun t entry hentry => h t entry ?_) t
  rintro rfl
  exact hl (List.mem_map_of_mem hentry)

/-- Each function sets its own field. -/
theorem keeps_foldl_assigned (v : UInt32) (l : MaskMap) (t : CompareMatchTimer) :
    Keeps l t (l.foldl (assigned v) t) := by
  constructor
  case resetOnMatch =>
    exact foldl_assigned_field (·.resetOnMatch) (fun t ⟨_, g⟩ _ => by cases g <;> rfl) t
  case regReadMap =>
    exact foldl_assigned_field (·.regReadMap) (fun t ⟨_, g⟩ _ => by cases g <;> rfl) t
  case regWriteMap =>
    exact foldl_assigned_field (·.regWriteMap) (fun t ⟨_, g⟩ _ => by cases g <;> rfl) t
  all_goals
    intro hl
    refine foldl_assigned_field_of_not_mem _ _ v (fun t ⟨mask, g⟩ hne => ?_) hl t
    cases g <;> first | rfl | exact absurd rfl hne

end RegisterWriteLemmas

theorem Keeps.of_perm {l m : MaskMap} {t t' : CompareMatchTimer} (hperm : l.Perm m)
    (h : Keeps l t t') : Keeps m t t' := by
  have hmem : ∀ funName, funName ∈ l.map Prod.snd ↔ funName ∈ m.map Prod.snd := fun _ =>
    (hperm.map Prod.snd).mem_iff
  obtain ⟨h₁, h₂, h₃, h₄, h₅, h₆, h₇, h₈, h₉, h₁₀, h₁₁, h₁₂⟩ := h
  rw [hmem] at h₁ h₂ h₃ h₄ h₅ h₆ h₇ h₉ h₁₀
  exact ⟨h₁, h₂, h₃, h₄, h₅, h₆, h₇, h₈, h₉, h₁₀, h₁₁, h₁₂⟩

/-- Two orders of visiting a map in which no function is under two masks: both panic, or
both end in the same timer, with the fields kept that no function of the map sets. -/
theorem handleRegWrite_perm (t : CompareMatchTimer) (addr : Address) (v : UInt32) {m : MaskMap}
    (hm : t.regWriteMap addr = some m) (hfun : (m.map Prod.snd).Nodup)
    (order order' : HashOrder) :
    (∃ e e', t.handleRegWrite order addr v = .error e ∧
        t.handleRegWrite order' addr v = .error e') ∨
      ∃ t', t.handleRegWrite order addr v = .ok t' ∧ t.handleRegWrite order' addr v = .ok t' ∧
        Keeps m t t' := by
  have hperm := order.perm addr m
  by_cases hok : ∀ entry ∈ m, accepts v entry = true
  · refine .inr ⟨(order.arrange addr m).foldl (assigned v) t, ?_, ?_, ?_⟩
    · exact (handleRegWrite_eq_ok_iff hm order v _).mpr ⟨hok, rfl⟩
    · refine (handleRegWrite_eq_ok_iff hm order' v _).mpr ⟨hok, ?_⟩
      refine foldl_assigned_perm v t (hperm.trans (order'.perm addr m).symm) ?_
      exact (hperm.map Prod.snd).nodup_iff.mpr hfun
    · exact (keeps_foldl_assigned v _ t).of_perm hperm
  · have hbad : ∃ entry ∈ m, accepts v entry = false := by simpa using hok
    obtain ⟨e, he⟩ := (handleRegWrite_eq_error_iff hm order v).mpr hbad
    obtain ⟨e', he'⟩ := (handleRegWrite_eq_error_iff hm order' v).mpr hbad
    exact .inl ⟨e, e', he, he'⟩

/-- A timer with a control register: the enable bit, and the clear bits of two flags. -/
def control : CompareMatchTimer :=
  (default : CompareMatchTimer)
    |>.mapFunctionAddrWrite 0x10 0x01 .setEnable
    |>.mapFunctionAddrWrite 0x10 0x02 .clearMatchedFlag
    |>.mapFunctionAddrWrite 0x10 0x04 .setFlagOverunderflow

theorem handleRegWrite_perm_control :
    (∃ e e', control.handleRegWrite .insertion 0x10 1 = .error e ∧
        control.handleRegWrite .reversed 0x10 1 = .error e') ∨
      ∃ t', control.handleRegWrite .insertion 0x10 1 = .ok t' ∧
        control.handleRegWrite .reversed 0x10 1 = .ok t' ∧
        Keeps [(0x01, .setEnable), (0x02, .clearMatchedFlag), (0x04, .setFlagOverunderflow)]
          control t' :=
  handleRegWrite_perm control 0x10 1 rfl (by decide) .insertion .reversed

/-! ## What a write leaves -/

/-- The last mask that a list of entries has for a function. -/
def lastMask (l : MaskMap) (funName : FunName) : Option UInt32 :=
  ((l.filter fun entry => entry.2 == funName).map Prod.fst).getLast?

/-- The timer after a write goes through some entries. -/
def afterWrite (v : UInt32) (l : MaskMap) (t : CompareMatchTimer) : CompareMatchTimer :=
  { t with
    counterStart := (lastMask l .setEnable).elim t.counterStart (decide <| v &&& · ≠ 0)
    currentTick := (lastMask l .setCurrentTick).elim t.currentTick (writtenCount v)
    compareAgainst := (lastMask l .setCompareAgainst).elim t.compareAgainst (writtenCount v)
    countForward := (lastMask l .setCountForward).elim t.countForward (decide <| v &&& · ≠ 0)
    flagOverflow := (lastMask l .setFlagOverunderflow).elim t.flagOverflow fun _ => false
    flagUnderflow := (lastMask l .setFlagOverunderflow).elim t.flagUnderflow fun _ => false
    matched := t.matched && l.all fun entry =>
      decide (entry.2 = .clearMatchedFlag → v &&& entry.1 ≠ 0)
    interruptEnabled :=
      (lastMask l .setInterruptEnabled).elim t.interruptEnabled (decide <| v &&& · ≠ 0)
    matchToggle := (lastMask l .setMatchToggle).elim t.matchToggle (decide <| v &&& · ≠ 0) }

namespace RegisterWriteLemmas

theorem lastMask_append (l : MaskMap) (entry : UInt32 × FunName) (funName : FunName) :
    lastMask (l ++ [entry]) funName =
      if entry.2 = funName then some entry.1 else lastMask l funName := by
  unfold lastMask
  rw [List.filter_append]
  by_cases h : entry.2 = funName <;> simp [h]

theorem lastMask_isSome {l : MaskMap} {funName : FunName} (h : funName ∈ l.map Prod.snd) :
    ∃ mask, lastMask l funName = some mask := by
  obtain ⟨entry, hentry, rfl⟩ := List.mem_map.mp h
  have hmem : entry.1 ∈ (l.filter fun e => e.2 == entry.2).map Prod.fst :=
    List.mem_map_of_mem (List.mem_filter.mpr ⟨hentry, beq_self_eq_true _⟩)
  exact ⟨_, List.getLast?_eq_some_getLast (List.ne_nil_of_mem hmem)⟩

theorem lastMask_eq_none {l : MaskMap} {funName : FunName} (h : funName ∉ l.map Prod.snd) :
    lastMask l funName = none := by
  have hnil : l.filter (fun entry => entry.2 == funName) = [] := by
    rw [List.filter_eq_nil_iff]
    intro entry hentry heq
    exact h (eq_of_beq heq ▸ List.mem_map_of_mem hentry)
  rw [lastMask, hnil]
  rfl

theorem toNat_writtenCount (v mask : UInt32) :
    (writtenCount v mask).toNat = if v &&& mask = 0 then 0 else v.toNat := by
  have hlt : v.toNat < 2 ^ 128 := Nat.lt_trans v.toNat_lt (by decide)
  by_cases h : v &&& mask = 0
  · simp [writtenCount, h]
  · simpa [writtenCount, toTick, h] using hlt

end RegisterWriteLemmas

/-- Each field is left as the last entry for it has it. -/
theorem foldl_assigned (v : UInt32) (l : MaskMap) (t : CompareMatchTimer) :
    l.foldl (assigned v) t = afterWrite v l t := by
  induction l using List.reverseRecOn with
  | nil => simp [afterWrite, lastMask]
  | append_singleton l entry ih =>
    rw [List.foldl_append, ih]
    obtain ⟨mask, funName⟩ := entry
    cases funName <;>
      simp [afterWrite, assigned, lastMask_append, setEnable, setInterruptEnabled,
        setCompareAgainst, setCurrentTick, setCountForward, setMatchToggle, setFlagUnderoverflow,
        Bool.and_assoc]

/-! ## What decides a panic -/

/-- Two values have the same fate where the map has a function that no write knows, or
where they agree on whether a bit of `set_flag_overunderflow` is set. -/
theorem handleRegWrite_panics_iff_iff (t : CompareMatchTimer) (addr : Address) {m : MaskMap}
    (hm : t.regWriteMap addr = some m) (order : HashOrder) (v₁ v₂ : UInt32) :
    ((∃ e, t.handleRegWrite order addr v₁ = .error e) ↔
        ∃ e, t.handleRegWrite order addr v₂ = .error e) ↔
      (∃ entry ∈ m, entry.2.isSetter = false) ∨
        ((∃ mask, (mask, .setFlagOverunderflow) ∈ m ∧ v₁ &&& mask ≠ 0) ↔
          ∃ mask, (mask, .setFlagOverunderflow) ∈ m ∧ v₂ &&& mask ≠ 0) := by
  have hrefused : ∀ v, (∃ entry ∈ m, accepts v entry = false) ↔
      (∃ entry ∈ m, entry.2.isSetter = false) ∨
        ∃ mask, (mask, .setFlagOverunderflow) ∈ m ∧ v &&& mask ≠ 0 := by
    intro v
    constructor
    · rintro ⟨⟨mask, funName⟩, hmem, h⟩
      simp only [accepts, Bool.and_eq_false_iff, Bool.or_eq_false_iff, bne_eq_false_iff_eq,
        beq_eq_false_iff_ne] at h
      rcases h with h | ⟨rfl, h⟩
      · exact .inl ⟨_, hmem, h⟩
      · exact .inr ⟨mask, hmem, h⟩
    · rintro (⟨entry, hmem, h⟩ | ⟨mask, hmem, h⟩)
      · exact ⟨entry, hmem, by simp [accepts, h]⟩
      · exact ⟨_, hmem, by simp [accepts, h]⟩
  rw [handleRegWrite_eq_error_iff hm, handleRegWrite_eq_error_iff hm, hrefused, hrefused]
  by_cases h : ∃ entry ∈ m, entry.2.isSetter = false
  · simp [h]
  · simp [h]

theorem handleRegWrite_panics_iff_iff_control :
    ((∃ e, control.handleRegWrite .insertion 0x10 0x06 = .error e) ↔
        ∃ e, control.handleRegWrite .insertion 0x10 0x05 = .error e) :=
  (handleRegWrite_panics_iff_iff control 0x10 rfl .insertion 0x06 0x05).mpr
    (.inr ⟨fun _ => ⟨0x04, by decide, by decide⟩, fun _ => ⟨0x04, by decide, by decide⟩⟩)

/-- The flags for overflow and underflow are cleared by a zero, and a one panics. -/
theorem handleRegWrite_panics_of_set : ¬ ∀ (t : CompareMatchTimer) (addr : Address) (m : MaskMap)
    (order : HashOrder) (v₁ v₂ : UInt32), t.regWriteMap addr = some m →
      ((∃ e, t.handleRegWrite order addr v₁ = .error e) ↔
        ∃ e, t.handleRegWrite order addr v₂ = .error e) := by
  intro h
  obtain ⟨e, he⟩ := (h control 0x10 _ .insertion 0x04 0x01 rfl).mp ⟨_, rfl⟩
  cases he

end CompareMatchTimer

end FuguexPeripheral.Backend
