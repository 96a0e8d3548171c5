import FuguexPeripheral.Backend.ReadBack
import FuguexPeripheral.SuperH.Isolation

/-!
# The SuperH registers

The timers of the two channels share CMSTR and have three registers each. What a reachable
state has in common with a new one is in `Registered`, and a read of a register puts the
fields of the channels that have it there into the word in memory.

Results:
1. `regReadMap_newTimer`: the registers of a channel.
2. `Reaches.registered`: the registers stay as `new` maps them.
3. `hookMemoryRead_eq_ok`, `hookMemoryRead_isOk_iff`: what a read does, and when it returns.
-/

namespace FuguexPeripheral.SuperH

open ByteStore Backend Fallible Masks

namespace CompareMatchTimer

/-! ## Mapped addresses -/

/-- The registers that the timer of a channel shows. -/
theorem regReadMap_newTimer (i : Channel) (a : Address) :
    (newTimer i).regReadMap a =
      if a = addrCmstr then some [(i.startMask, .isEnabled)]
      else if a = i.addrCmcsr then some [(0x40, .isInterruptEnabled), (0x80, .isMatched)]
      else if a = i.addrCmcnt then some [(0xffff, .getCurrentTick)]
      else if a = i.addrCmcor then some [(0xffff, .getCompareAgainst)]
      else none := by
  unfold newTimer
  simp only [Backend.CompareMatchTimer.mapFunctionAddrRead,
    Backend.CompareMatchTimer.mapFunctionAddrWrite, Function.update_apply]
  cases i with
  | cmt0 => split_ifs <;> simp_all [addrCmstr, Channel.addrCmcsr, Channel.addrCmcnt,
      Channel.addrCmcor] <;> rfl
  | cmt1 => split_ifs <;> simp_all [addrCmstr, Channel.addrCmcsr, Channel.addrCmcnt,
      Channel.addrCmcor] <;> rfl

/-- The address has a register of the channel. -/
def Maps (i : Channel) (a : Address) : Prop :=
  a = addrCmstr ∨ a = i.addrCmcsr ∨ a = i.addrCmcnt ∨ a = i.addrCmcor

instance (i : Channel) (a : Address) : Decidable (Maps i a) :=
  inferInstanceAs (Decidable (_ ∨ _ ∨ _ ∨ _))

/-- The address has a register: CMSTR, or CMCSR, CMCNT or CMCOR of a channel. -/
def Mapped (a : Address) : Prop :=
  Maps .cmt0 a ∨ Maps .cmt1 a

/-- The peripheral as `new` builds it and calls leave it: the range, the read maps and the
write maps are those of `new`, and the compare values come from registers of at most four
bytes. Any counts and flags will do. -/
structure Registered (p : CompareMatchTimer) : Prop where
  range : p.addressRange = new.addressRange
  reads : ∀ i, (p.timer i).regReadMap = (newTimer i).regReadMap
  writes : ∀ i, (p.timer i).regWriteMap = (newTimer i).regWriteMap
  compare : ∀ i, (p.timer i).compareAgainst.toNat < 2 ^ 32

namespace RegistersLemmas

variable {order : HashOrder} {emu : Machine} {p : CompareMatchTimer} {i : Channel}
  {a : Address}

theorem obey_frame (t : Backend.CompareMatchTimer) (c : Command) :
    (obey t c).regReadMap = t.regReadMap ∧
      ((obey t c).compareAgainst = t.compareAgainst ∨
        (obey t c).compareAgainst.toNat < 2 ^ 32) := by
  cases c with
  | tick =>
    rw [obey, Backend.CompareMatchTimer.tick_frame]
    exact ⟨rfl, .inl rfl⟩
  | compare v =>
    refine ⟨rfl, .inr ?_⟩
    change (Backend.CompareMatchTimer.writtenCount v _).toNat < 2 ^ 32
    rw [Backend.CompareMatchTimer.RegisterWriteLemmas.toNat_writtenCount]
    split
    · decide
    · exact v.toNat_lt
  | _ => exact ⟨rfl, .inl rfl⟩

theorem foldl_obey_frame (cs : List Command) {t : Backend.CompareMatchTimer}
    (h : t.compareAgainst.toNat < 2 ^ 32) :
    (cs.foldl obey t).regReadMap = t.regReadMap ∧
      (cs.foldl obey t).compareAgainst.toNat < 2 ^ 32 := by
  induction cs generalizing t with
  | nil => exact ⟨rfl, h⟩
  | cons c cs ih =>
    obtain ⟨hmap, hcompare⟩ := obey_frame t c
    obtain ⟨hmap', hcompare'⟩ := ih (t := obey t c)
      (hcompare.elim (fun heq => heq ▸ h) id)
    exact ⟨hmap'.trans hmap, hcompare'⟩

end RegistersLemmas

/-- Every reachable state has the registers of `new`. -/
theorem Reaches.registered {order : HashOrder} {emu : Machine}
    {tr : List (CompareMatchTimer × HookEvent .be)} {p : CompareMatchTimer}
    (h : Reaches order emu tr p) : Registered p where
  range := (Reaches.wired h).range
  reads i := by
    rw [timer_eq_obey i h]
    exact (RegistersLemmas.foldl_obey_frame _ (by cases i <;> decide)).1
  writes := (Reaches.wired h).maps
  compare i := by
    rw [timer_eq_obey i h]
    exact (RegistersLemmas.foldl_obey_frame _ (by cases i <;> decide)).2

/-! ## Reads -/

/-- The fields that the timer of a channel has at an address, each with its mask. -/
def channelFields (p : CompareMatchTimer) (i : Channel) (a : Address) :
    List (UInt32 × UInt32) :=
  if a = addrCmstr then [(i.startMask, if (p.timer i).isEnabled then i.startMask else 0)]
  else if a = i.addrCmcsr then
    [(0x40, if (p.timer i).isInterruptEnabled then 0x40 else 0),
      (0x80, if (p.timer i).isMatched then 0x80 else 0)]
  else if a = i.addrCmcnt then [(0xffff, UInt32.ofNat (p.timer i).getCurrentTick.toNat)]
  else if a = i.addrCmcor then [(0xffff, UInt32.ofNat (p.timer i).getCompareAgainst.toNat)]
  else []

/-- The fields mapped at an address. CMSTR has one for each channel. -/
def fieldsAt (p : CompareMatchTimer) (a : Address) : List (UInt32 × UInt32) :=
  p.channelFields .cmt0 a ++ p.channelFields .cmt1 a

/-- The count of the channel fits in a word, where it is read. -/
def CountFits (p : CompareMatchTimer) (i : Channel) (a : Address) : Prop :=
  a = i.addrCmcnt → (p.timer i).getCurrentTick.toNat < 2 ^ 32

namespace RegistersLemmas

variable {order : HashOrder} {p : CompareMatchTimer} {i : Channel} {a : Address}
  {state state' : PCodeState .be}

open Backend.CompareMatchTimer ReadBackLemmas

/-- The four registers of a channel. -/
theorem map_cases {m : MaskMap} (h : (newTimer i).regReadMap a = some m) :
    (a = addrCmstr ∧ m = [(i.startMask, .isEnabled)]) ∨
      (a = i.addrCmcsr ∧ m = [(0x40, .isInterruptEnabled), (0x80, .isMatched)]) ∨
      (a = i.addrCmcnt ∧ m = [(0xffff, Count.currentTick.getter)]) ∨
      (a = i.addrCmcor ∧ m = [(0xffff, Count.compareAgainst.getter)]) := by
  rw [regReadMap_newTimer] at h
  split_ifs at h with h₀ h₁ h₂ h₃
  · exact .inl ⟨h₀, (Option.some.inj h).symm⟩
  · exact .inr (.inl ⟨h₁, (Option.some.inj h).symm⟩)
  · exact .inr (.inr (.inl ⟨h₂, (Option.some.inj h).symm⟩))
  · exact .inr (.inr (.inr ⟨h₃, (Option.some.inj h).symm⟩))

/-- Only a count that does not fit keeps a register from being read. -/
theorem readable_iff_countFits {m : MaskMap} (hp : Registered p)
    (hm : (newTimer i).regReadMap a = some m) :
    (∀ entry ∈ m, (p.timer i).Readable entry) ↔ p.CountFits i a := by
  unfold CountFits
  rcases map_cases hm with ⟨rfl, rfl⟩ | ⟨rfl, rfl⟩ | ⟨rfl, rfl⟩ | ⟨rfl, rfl⟩
  · have hne : addrCmstr ≠ i.addrCmcnt := by cases i <;> decide
    refine ⟨fun _ heq => absurd heq hne, fun _ entry he => readable_flag ?_⟩
    rw [List.mem_singleton.mp he]
    rfl
  · have hne : i.addrCmcsr ≠ i.addrCmcnt := by cases i <;> decide
    refine ⟨fun _ heq => absurd heq hne, fun _ entry he => readable_flag ?_⟩
    rcases List.mem_pair.mp he with rfl | rfl
    · rfl
    · rfl
  · rw [List.forall_mem_singleton, readable_halfWord_iff]
    exact ⟨fun h _ => h, fun h => h rfl⟩
  · have hne : i.addrCmcor ≠ i.addrCmcnt := by cases i <;> decide
    rw [List.forall_mem_singleton, readable_halfWord_iff]
    exact ⟨fun _ heq => absurd heq hne, fun _ => hp.compare i⟩

theorem fields_eq_channelFields {m : MaskMap} (hp : Registered p)
    (hm : (newTimer i).regReadMap a = some m) (hfits : p.CountFits i a) :
    (p.timer i).fields m = p.channelFields i a := by
  rcases map_cases hm with ⟨rfl, rfl⟩ | ⟨rfl, rfl⟩ | ⟨rfl, rfl⟩ | ⟨rfl, rfl⟩
  · cases i <;> rfl
  · cases i <;> rfl
  · have hcount : p.channelFields i i.addrCmcnt =
        [(0xffff, UInt32.ofNat (p.timer i).getCurrentTick.toNat)] := by
      cases i <;> rfl
    rw [hcount, fields, List.map_singleton, fieldBits_halfWord .currentTick (hfits rfl)]
    rfl
  · have hcount : p.channelFields i i.addrCmcor =
        [(0xffff, UInt32.ofNat (p.timer i).getCompareAgainst.toNat)] := by
      cases i <;> rfl
    rw [hcount, fields, List.map_singleton, fieldBits_halfWord .compareAgainst (hp.compare i)]
    rfl

/-- A register map of a channel has its four addresses. -/
theorem exists_map_iff {α : Type} (w x y z : α) :
    (∃ m, (if a = addrCmstr then some w else if a = i.addrCmcsr then some x
      else if a = i.addrCmcnt then some y else if a = i.addrCmcor then some z else none) =
        some m) ↔ Maps i a := by
  unfold Maps
  constructor
  · rintro ⟨m, hm⟩
    split_ifs at hm with h₀ h₁ h₂ h₃
    · exact .inl h₀
    · exact .inr (.inl h₁)
    · exact .inr (.inr (.inl h₂))
    · exact .inr (.inr (.inr h₃))
  · rintro (rfl | rfl | rfl | rfl) <;> cases i <;> exact ⟨_, rfl⟩

theorem exists_readMap_iff : (∃ m, (newTimer i).regReadMap a = some m) ↔ Maps i a := by
  rw [regReadMap_newTimer]
  exact exists_map_iff _ _ _ _

theorem exists_writeMap_iff : (∃ m, (newTimer i).regWriteMap a = some m) ↔ Maps i a := by
  rw [regWriteMap_newTimer]
  exact exists_map_iff _ _ _ _

theorem channelFields_of_not_maps (h : ¬ Maps i a) : p.channelFields i a = [] := by
  simp only [Maps, not_or] at h
  obtain ⟨h₀, h₁, h₂, h₃⟩ := h
  rw [channelFields, if_neg h₀, if_neg h₁, if_neg h₂, if_neg h₃]

theorem window_of_maps (h : Maps i a) : i.window a = true := by
  rcases h with rfl | rfl | rfl | rfl <;> cases i <;> decide

theorem inRange_of_maps (hp : Registered p) (h : Maps i a) : p.inRange a = true := by
  rw [inRange, hp.range]
  rcases h with rfl | rfl | rfl | rfl <;> cases i <;> decide

/-- A channel is read where its window has a register that can be read. -/
theorem readChannel_isOk_iff (order : HashOrder) (i : Channel) (state : PCodeState .be)
    (a : Address) (hp : Registered p) :
    (∃ state', p.readChannel order i state a = .ok state') ↔
      (i.window a = true → Maps i a ∧ p.CountFits i a) := by
  unfold readChannel
  cases hw : i.window a with
  | false => exact ⟨fun _ => nofun, fun _ => ⟨state, rfl⟩⟩
  | true =>
    rw [if_pos rfl]
    have hread : (∃ r, (p.timer i).handleRegRead order state a = .ok r) ↔
        Maps i a ∧ p.CountFits i a := by
      rw [← exists_readMap_iff]
      cases hm : (newTimer i).regReadMap a with
      | none =>
        rw [handleRegRead, hp.reads i, hm]
        simp
      | some m =>
        rw [handleRegRead_isOk_iff ((hp.reads i).symm ▸ hm), readable_iff_countFits hp hm]
        simp
    refine (bind_isOk_iff.trans ?_).trans (hread.trans ⟨fun h _ => h, fun h => h rfl⟩)
    exact exists_congr fun r => and_iff_left ⟨_, rfl⟩

/-- The fields of the channel are put into the word at the address. -/
theorem readChannel_eq_ok (hp : Registered p) (h : p.readChannel order i state a = .ok state') :
    ∃ fs, fs.Perm (p.channelFields i a) ∧
      state' = state.writeU32 a (patches fs (state.readU32 a)) := by
  unfold readChannel at h
  split at h
  next =>
    obtain ⟨r, hr, hs⟩ := exists_of_bind_eq_ok h
    cases hs
    cases hm : (p.timer i).regReadMap a with
    | none =>
      rw [handleRegRead, hm] at hr
      cases hr
    | some m =>
      have hm' := hp.reads i ▸ hm
      obtain ⟨hread, hW, hstate⟩ := (handleRegRead_eq_ok_iff hm order state r).mp hr
      have hfits := (readable_iff_countFits hp hm').mp hread
      refine ⟨(p.timer i).fields (order.arrange a m), ?_, by rw [hstate, hW]⟩
      rw [← fields_eq_channelFields hp hm' hfits]
      exact (order.perm a m).map _
  next hw =>
    cases h
    refine ⟨[], ?_, (PCodeState.writeU32_readU32 state a).symm⟩
    rw [channelFields_of_not_maps fun hmaps => hw (window_of_maps hmaps)]

end RegistersLemmas

open RegistersLemmas

/-- A read puts the fields mapped at the address into the word there. -/
theorem hookMemoryRead_eq_ok {order : HashOrder} {emu : Machine} {p : CompareMatchTimer}
    {state state' : PCodeState .be} {a : Address} (hp : Registered p)
    (h : p.hookMemoryRead order emu state a = .ok state') :
    ∃ fs, fs.Perm (p.fieldsAt a) ∧ state' = state.writeU32 a (patches fs (state.readU32 a)) := by
  cases hrange : p.inRange a with
  | true =>
    rw [hookMemoryRead_of_inRange hp.range hrange] at h
    obtain ⟨mid, hmid, h⟩ := exists_of_bind_eq_ok h
    obtain ⟨fs, hfs, rfl⟩ := readChannel_eq_ok hp hmid
    obtain ⟨gs, hgs, rfl⟩ := readChannel_eq_ok hp h
    refine ⟨fs ++ gs, hfs.append hgs, ?_⟩
    rw [PCodeState.readU32_writeU32, PCodeState.writeU32_writeU32, patches_append]
  | false =>
    obtain ⟨_, _, h⟩ := exists_of_bind_eq_ok h
    rw [hrange] at h
    cases h
    have hnil : ∀ i, p.channelFields i a = [] := fun i =>
      channelFields_of_not_maps fun hmaps =>
        Bool.eq_false_iff.mp hrange (inRange_of_maps hp hmaps)
    refine ⟨[], ?_, (PCodeState.writeU32_readU32 state a).symm⟩
    rw [fieldsAt, hnil, hnil]
    exact .refl _

/-- A read returns where every channel that looks at the address has a register there, and
can read it. -/
theorem hookMemoryRead_isOk_iff (order : HashOrder) (emu : Machine)
    {p : CompareMatchTimer} (state : PCodeState .be) {a : Address} (hp : Registered p)
    (ha : p.inRange a = true) :
    (∃ state', p.hookMemoryRead order emu state a = .ok state') ↔
      ∀ i : Channel, i.window a = true → Maps i a ∧ p.CountFits i a := by
  rw [hookMemoryRead_of_inRange hp.range ha, bind_isOk_iff]
  constructor
  · rintro ⟨mid, hmid, h⟩ i
    cases i with
    | cmt0 => exact (readChannel_isOk_iff order _ state a hp).mp ⟨mid, hmid⟩
    | cmt1 => exact (readChannel_isOk_iff order _ mid a hp).mp h
  · intro h
    obtain ⟨mid, hmid⟩ := (readChannel_isOk_iff order _ state a hp).mpr (h .cmt0)
    exact ⟨mid, hmid, (readChannel_isOk_iff order _ mid a hp).mpr (h .cmt1)⟩

end CompareMatchTimer

end FuguexPeripheral.SuperH
