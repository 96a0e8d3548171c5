import FuguexPeripheral.Backend.RegisterRead
import FuguexPeripheral.Backend.RegisterWrite

/-!
# A count read back from its register

A register shows a count under a mask, moved to the start of the mask. A write takes it
from there without moving it back: the count is the whole value written, or zero when no
masked bit is.

Results:
1. `readsBack_iff`: when a count that was written is read back, for any two maps.
2. `readsBack_alone_iff`: the same for a register with nothing else in it.
-/

namespace FuguexPeripheral.Backend

open ByteStore Fallible Masks

/-- The counts that a register can hold. -/
inductive Count
  | currentTick
  | compareAgainst
  deriving DecidableEq, Repr

namespace Count

def setter : Count → FunName
  | currentTick => .setCurrentTick
  | compareAgainst => .setCompareAgainst

def getter : Count → FunName
  | currentTick => .getCurrentTick
  | compareAgainst => .getCompareAgainst

/-- What the timer holds. -/
def value (t : CompareMatchTimer) : Count → BitVec 128
  | currentTick => t.getCurrentTick
  | compareAgainst => t.getCompareAgainst

end Count

/-- The functions that read a flag. -/
def FunName.isFlag : FunName → Bool
  | .isEnabled | .isInterruptEnabled | .isMatched | .getCountForwardFlag | .getFlagOverflow
  | .getFlagUnderflow | .getFlagOverunderflow | .getMatchToggle => true
  | _ => false

namespace CompareMatchTimer

open RegisterReadLemmas RegisterWriteLemmas

/-! ## One count -/

/-- The write stores the masked bits, moved to bit 0, and the next read shows them where
they were. -/
def ReadsBack {O : Order} (order : HashOrder) (t : CompareMatchTimer) (state : PCodeState O)
    (addr : Address) (count : Count) (mask : UInt32) (s : Nat) (v : UInt32) : Prop :=
  ∃ t', t.handleRegWrite order addr v = .ok t' ∧
    (count.value t').toNat = ((v &&& mask) >>> UInt32.ofNat s).toNat ∧
    ∃ r, t'.handleRegRead order state addr = .ok r ∧ r.1 &&& mask = v &&& mask

/-- The entry can be read once the entries `wm` have been written: it is a flag, or a count
that fits, under a mask whose start is found. -/
def ReadableAfter (wm : MaskMap) (t : CompareMatchTimer) (entry : UInt32 × FunName) : Prop :=
  entry.2.isFlag = true ∨
    ∃ count : Count, entry.2 = count.getter ∧ (getMaskStartBit entry.1).isSome = true ∧
      (count.setter ∈ wm.map Prod.snd ∨ (count.value t).toNat < 2 ^ 32)

/-- The condition on the two maps, the timer before the write and the value. -/
structure ReadBackCondition (order : HashOrder) (t : CompareMatchTimer) (addr : Address)
    (wm rm : MaskMap) (count : Count) (mask : UInt32) (s : Nat) (v : UInt32) : Prop where
  /-- The write knows every function of its map. -/
  accepted : ∀ entry ∈ wm, accepts v entry = true
  /-- The mask that decides the count, the last one it has, sees bits of the value only when
  the value is a field at bit 0, and the value has masked bits only when it does. -/
  stored : ∀ last ∈ lastMask (order.arrange addr wm) count.setter,
    if v &&& last = 0 then v &&& mask = 0 else s = 0 ∧ v &&& mask = v
  /-- The read does not panic. -/
  readable : ∀ entry ∈ rm, ReadableAfter wm t entry
  /-- The entries read after the count leave its bits alone. -/
  kept : ∃ before after, order.arrange addr rm = before ++ (mask, count.getter) :: after ∧
    patches ((afterWrite v (order.arrange addr wm) t).fields after) v &&& mask = v &&& mask

namespace ReadBackLemmas

variable {t : CompareMatchTimer}

theorem value_afterWrite (count : Count) (v : UInt32) (l : MaskMap) (t : CompareMatchTimer) :
    count.value (afterWrite v l t) =
      (lastMask l count.setter).elim (count.value t) (writtenCount v) := by
  cases count <;> rfl

/-- The count that is written is the masked bits. -/
theorem toNat_writtenCount_eq_iff {mask : UInt32} {s : Nat} (hlow : Lowest mask s)
    (v last : UInt32) :
    (writtenCount v last).toNat = ((v &&& mask) >>> UInt32.ofNat s).toNat ↔
      if v &&& last = 0 then v &&& mask = 0 else s = 0 ∧ v &&& mask = v := by
  rw [toNat_writtenCount]
  by_cases h : v &&& last = 0
  · rw [if_pos h, if_pos h, ← hlow.shiftRight_eq_zero_iff v]
    exact ⟨fun h0 => UInt32.toNat.inj h0.symm, fun h0 => by rw [h0]; rfl⟩
  · have hv : v ≠ 0 := by
      rintro rfl
      exact h UInt32.zero_and
    rw [if_neg h, if_neg h, ← hlow.shiftRight_eq_self_iff hv, eq_comm]
    exact ⟨fun h => UInt32.toNat.inj h, fun h => congrArg UInt32.toNat h⟩

theorem isSome_flag (t : CompareMatchTimer) (funName : FunName) :
    (t.flag funName).isSome = funName.isFlag := by
  cases funName <;> rfl

theorem count_getter (t : CompareMatchTimer) (count : Count) :
    t.count count.getter = some (count.value t) := by
  cases count <;> rfl

theorem exists_getter_of_count {funName : FunName} {val : BitVec 128}
    (h : t.count funName = some val) : ∃ count : Count, funName = count.getter := by
  cases funName with
  | getCurrentTick => exact ⟨.currentTick, rfl⟩
  | getCompareAgainst => exact ⟨.compareAgainst, rfl⟩
  | _ => cases h

theorem tickToU32_isOk_iff (val : BitVec 128) :
    (∃ x, tickToU32 val = .ok x) ↔ val.toNat < 2 ^ 32 := by
  unfold tickToU32
  split
  next h => exact ⟨fun _ => h, fun _ => ⟨_, rfl⟩⟩
  next h =>
    refine ⟨?_, fun hlt => absurd hlt h⟩
    rintro ⟨_, hx⟩
    cases hx

theorem countBits_isOk_iff (mask : UInt32) (val : BitVec 128) :
    (∃ bits, countBits mask val = .ok bits) ↔
      (getMaskStartBit mask).isSome = true ∧ val.toNat < 2 ^ 32 := by
  rw [← tickToU32_isOk_iff]
  constructor
  · rintro ⟨bits, h⟩
    obtain ⟨x, hx, h⟩ := exists_of_bind_eq_ok h
    refine ⟨?_, x, hx⟩
    cases hstart : getMaskStartBit mask with
    | some start => rfl
    | none =>
      rw [hstart] at h
      cases h
  · rintro ⟨hstart, x, hx⟩
    obtain ⟨start, hstart⟩ := Option.isSome_iff_exists.mp hstart
    refine ⟨x <<< UInt32.ofNat start.1, ?_⟩
    rw [countBits, hx, hstart]
    rfl

/-- Flags can always be read, and counts that fit under a mask whose start is found. -/
theorem readable_iff (t : CompareMatchTimer) (entry : UInt32 × FunName) :
    t.Readable entry ↔ entry.2.isFlag = true ∨
      ∃ count : Count, entry.2 = count.getter ∧ (getMaskStartBit entry.1).isSome = true ∧
        (count.value t).toNat < 2 ^ 32 := by
  constructor
  · rintro ⟨bits, h⟩
    cases hflag : t.flag entry.2 with
    | some set =>
      refine .inl ?_
      rw [← isSome_flag t, hflag]
      rfl
    | none =>
      cases hcount : t.count entry.2 with
      | none =>
        rw [field, hflag, hcount] at h
        cases h
      | some val =>
        rw [field_of_count hcount] at h
        obtain ⟨count, hgetter⟩ := exists_getter_of_count hcount
        rw [hgetter, count_getter] at hcount
        cases hcount
        exact .inr ⟨count, hgetter, (countBits_isOk_iff _ _).mp ⟨bits, h⟩⟩
  · rintro (hflag | ⟨count, hgetter, h⟩)
    · rw [← isSome_flag t] at hflag
      obtain ⟨set, hset⟩ := Option.isSome_iff_exists.mp hflag
      exact ⟨_, field_of_flag hset⟩
    · obtain ⟨bits, hbits⟩ := (countBits_isOk_iff _ _).mpr h
      have hcount := count_getter t count
      rw [← hgetter] at hcount
      exact ⟨bits, (field_of_count hcount).trans hbits⟩

theorem readable_flag {entry : UInt32 × FunName}
    (h : entry.2.isFlag = true) : t.Readable entry :=
  (readable_iff t entry).mpr (.inl h)

/-- A count that has the low half of a word can be read when it fits in a word. -/
theorem readable_halfWord_iff (count : Count) :
    t.Readable (0xffff, count.getter) ↔ (count.value t).toNat < 2 ^ 32 := by
  have hstart : (getMaskStartBit 0xffff).isSome = true := by decide
  rw [readable_iff]
  constructor
  · rintro (hflag | ⟨count', heq, -, hlt⟩)
    · cases count <;> cases hflag
    · cases count <;> cases count' <;> first | exact hlt | cases heq
  · intro hlt
    exact .inr ⟨count, rfl, hstart, hlt⟩

theorem fieldBits_halfWord (count : Count)
    (h : (count.value t).toNat < 2 ^ 32) :
    t.fieldBits (0xffff, count.getter) = UInt32.ofNat (count.value t).toNat := by
  have hzero : Lowest 0xffff 0 := ⟨by decide, nofun⟩
  rw [fieldBits_of_count ((readable_halfWord_iff count).mpr h)
    (count_getter t count) hzero]
  exact UInt32.shiftLeft_zero

/-- A count that is written fits in a word. -/
theorem value_afterWrite_lt_iff (count : Count) (v : UInt32) {l wm : MaskMap}
    (hperm : l.Perm wm) (t : CompareMatchTimer) :
    (count.value (afterWrite v l t)).toNat < 2 ^ 32 ↔
      count.setter ∈ wm.map Prod.snd ∨ (count.value t).toNat < 2 ^ 32 := by
  rw [value_afterWrite, ← (hperm.map Prod.snd).mem_iff]
  by_cases hset : count.setter ∈ l.map Prod.snd
  · obtain ⟨last, hlast⟩ := lastMask_isSome hset
    rw [hlast, Option.elim_some, toNat_writtenCount]
    refine ⟨fun _ => .inl hset, fun _ => ?_⟩
    split
    · decide
    · exact v.toNat_lt
  · rw [lastMask_eq_none hset, Option.elim_none]
    exact ⟨.inr, fun h => h.resolve_left hset⟩

theorem readableAfter_iff (v : UInt32) {l wm : MaskMap} (hperm : l.Perm wm)
    (t : CompareMatchTimer) (entry : UInt32 × FunName) :
    (afterWrite v l t).Readable entry ↔ ReadableAfter wm t entry := by
  rw [readable_iff, ReadableAfter]
  simp only [value_afterWrite_lt_iff _ v hperm]

/-- The count shows the masked bits of the value that was written. -/
theorem fieldBits_of_value {count : Count} {mask v : UInt32} {s : Nat} (hlow : Lowest mask s)
    (hread : t.Readable (mask, count.getter))
    (hvalue : (count.value t).toNat = ((v &&& mask) >>> UInt32.ofNat s).toNat) :
    t.fieldBits (mask, count.getter) = v &&& mask := by
  rw [fieldBits_of_count hread (count_getter t count) hlow, hvalue, UInt32.ofNat_toNat,
    hlow.shiftLeft_shiftRight]

/-- What a read shows under the mask of the count is left to the entries after it. -/
theorem patches_and_eq_iff {count : Count} {mask v : UInt32} {s : Nat} (hlow : Lowest mask s)
    (hread : t.Readable (mask, count.getter))
    (hvalue : (count.value t).toNat = ((v &&& mask) >>> UInt32.ofNat s).toNat)
    (before after : MaskMap) (x : UInt32) :
    patches (t.fields (before ++ (mask, count.getter) :: after)) x &&& mask = v &&& mask ↔
      patches (t.fields after) v &&& mask = v &&& mask := by
  have hown : t.fieldBits (mask, count.getter) &&& mask = v &&& mask := by
    rw [fieldBits_of_value hlow hread hvalue, UInt32.and_assoc, UInt32.and_self]
  rw [fields, List.map_append, List.map_cons, patches_append_and _ _ x hown]
  rfl

end ReadBackLemmas

open ReadBackLemmas

/-- When a count that was written is read back, for any maps, timer and value. -/
theorem readsBack_iff {O : Order} (order : HashOrder) (t : CompareMatchTimer)
    (state : PCodeState O) (addr : Address) {wm rm : MaskMap} (hw : t.regWriteMap addr = some wm)
    (hr : t.regReadMap addr = some rm) (count : Count) {mask : UInt32} {s n : Nat}
    (hmask : Contiguous mask s n) (hset : (mask, count.setter) ∈ wm)
    (hget : (mask, count.getter) ∈ rm) (v : UInt32) :
    ReadsBack order t state addr count mask s v ↔
      ReadBackCondition order t addr wm rm count mask s v := by
  have hperm := order.perm addr wm
  have hlow := hmask.lowest
  have hset' : count.setter ∈ (order.arrange addr wm).map Prod.snd :=
    List.mem_map.mpr ⟨_, hperm.mem_iff.mpr hset, rfl⟩
  obtain ⟨last, hlast⟩ := lastMask_isSome hset'
  have hvalue : (count.value (afterWrite v (order.arrange addr wm) t)).toNat =
      ((v &&& mask) >>> UInt32.ofNat s).toNat ↔
        if v &&& last = 0 then v &&& mask = 0 else s = 0 ∧ v &&& mask = v := by
    rw [value_afterWrite, hlast, Option.elim_some, toNat_writtenCount_eq_iff hlow]
  have hreadable := readableAfter_iff v hperm t
  have hr' : (afterWrite v (order.arrange addr wm) t).regReadMap addr = some rm := hr
  constructor
  · rintro ⟨t', hwrite, hstored, r, hread, hshown⟩
    obtain ⟨haccepted, rfl⟩ := (handleRegWrite_eq_ok_iff hw order v t').mp hwrite
    rw [foldl_assigned] at hstored hread
    obtain ⟨hall, hW, -⟩ := (handleRegRead_eq_ok_iff hr' order state r).mp hread
    obtain ⟨before, after, harrange⟩ :=
      List.append_of_mem ((order.perm addr rm).mem_iff.mpr hget)
    rw [hW, harrange, patches_and_eq_iff hlow (hall _ hget) hstored] at hshown
    refine ⟨haccepted, fun L hL => ?_, fun entry he => (hreadable entry).mp (hall entry he),
      before, after, harrange, hshown⟩
    rw [hlast] at hL
    cases hL
    exact hvalue.mp hstored
  · rintro ⟨haccepted, hstored, hall, before, after, harrange, hkept⟩
    have hvalue' := hvalue.mpr (hstored last hlast)
    have hall' : ∀ entry ∈ rm, (afterWrite v (order.arrange addr wm) t).Readable entry :=
      fun entry he => (hreadable entry).mpr (hall entry he)
    have hwrite : t.handleRegWrite order addr v =
        .ok (afterWrite v (order.arrange addr wm) t) := by
      rw [← foldl_assigned]
      exact (handleRegWrite_eq_ok_iff hw order v _).mpr ⟨haccepted, rfl⟩
    have hread := fun W hW =>
      (handleRegRead_eq_ok_iff hr' order state (W, state.writeU32 addr W)).mpr ⟨hall', hW, rfl⟩
    have hshown := (patches_and_eq_iff hlow (hall' _ hget) hvalue' before after
      (state.readU32 addr)).mpr hkept
    rw [← harrange] at hshown
    exact ⟨_, hwrite, hvalue', _, hread _ rfl, hshown⟩

/-- A timer with its count behind one mask of a register. -/
def countRegister (mask : UInt32) : CompareMatchTimer :=
  (default : CompareMatchTimer)
    |>.mapFunctionAddrRead 0x10 mask .getCurrentTick
    |>.mapFunctionAddrWrite 0x10 mask .setCurrentTick

namespace ReadBackLemmas

theorem lowestRun_of_contiguous {mask : UInt32} {s n : Nat} (h : Contiguous mask s n) :
    LowestRun mask s n where
  lt := h.lt
  below := h.lowest.2
  ones j hs hn := by
    rw [h.bit_eq]
    exact decide_eq_true ⟨hs, hn⟩
  ends := by
    rw [h.bit_eq]
    exact decide_eq_false fun hn => Nat.lt_irrefl n hn.2

theorem isSome_getMaskStartBit {mask : UInt32} {s n : Nat} (h : Contiguous mask s n) :
    (getMaskStartBit mask).isSome = true ↔ n < 32 ∧ n ≠ 1 := by
  rw [getMaskStartBit_run (lowestRun_of_contiguous h)]
  split
  next hn => exact ⟨fun _ => hn, fun _ => rfl⟩
  next hn => exact ⟨fun h => absurd h (by decide), fun h => absurd h hn⟩

end ReadBackLemmas

/-- A register with nothing else in it reads its count back where the mask is neither bit 0
alone nor reaches the top bit, and the value has no masked bits, or is a field at bit 0. -/
theorem readsBack_alone_iff {O : Order} (order : HashOrder) (t : CompareMatchTimer)
    (state : PCodeState O) (addr : Address) (count : Count) {mask : UInt32} {s n : Nat}
    (hw : t.regWriteMap addr = some [(mask, count.setter)])
    (hr : t.regReadMap addr = some [(mask, count.getter)]) (hmask : Contiguous mask s n)
    (v : UInt32) :
    ReadsBack order t state addr count mask s v ↔
      (n < 32 ∧ n ≠ 1) ∧ (v &&& mask = 0 ∨ s = 0 ∧ v &&& mask = v) := by
  have harrange : ∀ entry, order.arrange addr [entry] = [entry] := fun entry =>
    List.perm_singleton.mp (order.perm addr [entry])
  have hlast : lastMask [(mask, count.setter)] count.setter = some mask := by
    simp [lastMask]
  rw [readsBack_iff order t state addr hw hr count hmask (List.mem_singleton.mpr rfl)
    (List.mem_singleton.mpr rfl), ← isSome_getMaskStartBit hmask]
  constructor
  · rintro ⟨-, hstored, hread, -⟩
    refine ⟨?_, ?_⟩
    · rcases hread _ (List.mem_singleton.mpr rfl) with hflag | ⟨_, -, hstart, -⟩
      · cases count <;> cases hflag
      · exact hstart
    · have h := hstored mask (by rw [harrange, hlast]; rfl)
      split at h
      next h0 => exact .inl h0
      next => exact .inr h
  · rintro ⟨hstart, hv⟩
    refine ⟨?_, ?_, ?_, [], [], harrange _, rfl⟩
    · intro entry he
      rw [List.mem_singleton.mp he]
      cases count <;> rfl
    · intro last h
      rw [harrange, hlast] at h
      cases h
      split
      next h0 => exact h0
      next h0 => exact hv.resolve_left h0
    · intro entry he
      rw [List.mem_singleton.mp he]
      exact .inr ⟨count, rfl, hstart, .inl (List.mem_singleton.mpr rfl)⟩

theorem readsBack_iff_countRegister :
    ReadsBack .insertion (countRegister 0xffff) (⟨fun _ _ => 0xff, 0⟩ : PCodeState .be) 0x10
      .currentTick 0xffff 0 0x1234 :=
  (readsBack_iff .insertion (countRegister 0xffff) _ 0x10 rfl rfl .currentTick
    (.of_bits (n := 16) (by decide) (by decide) (by decide)) (by decide) (by decide) 0x1234).mpr
    { accepted := by decide
      stored := fun last hlast => by
        have heq : last = 0xffff := (Option.some.inj hlast).symm
        subst heq
        decide
      readable := fun entry he => by
        rw [List.mem_singleton.mp he]
        exact .inr ⟨.currentTick, rfl, by decide, .inl (by decide)⟩
      kept := ⟨[], [], rfl, rfl⟩ }

/-- A count in the second byte takes the value without moving it. -/
theorem not_readsBack_shifted : ¬ ∀ (O : Order) (order : HashOrder) (t : CompareMatchTimer)
    (state : PCodeState O) (addr : Address) (wm rm : MaskMap) (count : Count) (mask : UInt32)
    (s n : Nat) (v : UInt32), t.regWriteMap addr = some wm → t.regReadMap addr = some rm →
      Contiguous mask s n → (mask, count.setter) ∈ wm → (mask, count.getter) ∈ rm →
        ReadsBack order t state addr count mask s v := by
  intro h
  have hmask : Contiguous 0xff00 8 16 := .of_bits (by decide) (by decide) (by decide)
  obtain ⟨t', hwrite, hstored, -⟩ := h .be .insertion (countRegister 0xff00) ⟨fun _ _ => 0, 0⟩ 0x10
    _ _ .currentTick 0xff00 8 16 0x1200 rfl rfl hmask (by decide) (by decide)
  cases hwrite
  exact absurd hstored (by decide)

end CompareMatchTimer

end FuguexPeripheral.Backend
