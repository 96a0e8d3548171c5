import FuguexPeripheral.SuperH.Registers

/-!
# Which accesses are served

The address range, the windows of the two channels and the register maps describe the same
13 addresses. A channel whose window has the address looks it up in its maps, and panics
where there is no register: at the odd addresses, but for 0xfffec007, which lies between the
windows.

Results:
1. `windows_iff`: where every channel that looks at an address has a register there.
2. `hookMemoryWrite_isOk_iff`: which writes return.
3. `access_served_iff`: which accesses in the range return.
-/

namespace FuguexPeripheral.SuperH

open ByteStore Backend Fallible

namespace CompareMatchTimer

open RegistersLemmas

instance (a : Address) : Decidable (Mapped a) :=
  inferInstanceAs (Decidable (_ ∨ _))

/-- The windows and the registers agree at the seven registers and between the windows. -/
theorem windows_iff {a : Address} (hlo : 0xfffec000 ≤ a) (hhi : a ≤ 0xfffec00c) :
    (∀ i : Channel, i.window a = true → Maps i a) ↔ Mapped a ∨ a = 0xfffec007 := by
  have hchannels : (∀ i : Channel, i.window a = true → Maps i a) ↔
      (Channel.cmt0.window a = true → Maps .cmt0 a) ∧
        (Channel.cmt1.window a = true → Maps .cmt1 a) := by
    constructor
    · exact fun h => ⟨h .cmt0, h .cmt1⟩
    · rintro ⟨h₀, h₁⟩ (_ | _)
      · exact h₀
      · exact h₁
  rw [hchannels]
  interval_cases a <;> decide

namespace ServedLemmas

variable {order : HashOrder} {p p' : CompareMatchTimer} {i : Channel} {a : Address} {v : UInt32}

open Backend.CompareMatchTimer

/-- Every function behind a register is one that a write knows. -/
theorem accepts_of_map {m : MaskMap} (hm : (newTimer i).regWriteMap a = some m) (v : UInt32) :
    ∀ entry ∈ m, accepts v entry = true := by
  rw [regWriteMap_newTimer] at hm
  split_ifs at hm <;> cases hm <;> simp [accepts, FunName.isSetter]

theorem writeChannel_isOk_iff (order : HashOrder) (a : Address) (v : UInt32)
    (hmap : (p.timer i).regWriteMap = (newTimer i).regWriteMap) :
    (∃ p', p.writeChannel order i a v = .ok p') ↔ (i.window a = true → Maps i a) := by
  unfold writeChannel
  cases hw : i.window a with
  | false => exact ⟨fun _ => nofun, fun _ => ⟨p, rfl⟩⟩
  | true =>
    rw [if_pos rfl]
    have hwrite : (∃ t, (p.timer i).handleRegWrite order a v = .ok t) ↔ Maps i a := by
      rw [← exists_writeMap_iff]
      cases hm : (newTimer i).regWriteMap a with
      | none =>
        rw [handleRegWrite, hmap, hm]
        simp
      | some m =>
        have hok := handleRegWrite_eq_ok_iff (hmap.symm ▸ hm) order v
        exact ⟨fun _ => ⟨m, rfl⟩, fun _ => ⟨_, (hok _).mpr ⟨accepts_of_map hm v, rfl⟩⟩⟩
    refine (bind_isOk_iff.trans ?_).trans (hwrite.trans ⟨fun h _ => h, fun h => h rfl⟩)
    exact exists_congr fun t => and_iff_left ⟨_, rfl⟩

/-- A write through one channel leaves the timer of the other alone. -/
theorem timer_cmt1_writeChannel (h : p.writeChannel order .cmt0 a v = .ok p') :
    p'.timer .cmt1 = p.timer .cmt1 := by
  unfold writeChannel at h
  split at h
  next =>
    obtain ⟨t, _, hset⟩ := exists_of_bind_eq_ok h
    cases hset
    rfl
  next =>
    cases h
    rfl

end ServedLemmas

open ServedLemmas

/-- A write of one, two or four bytes returns where every channel that looks at the address
has a register there. -/
theorem hookMemoryWrite_isOk_iff (order : HashOrder) (emu : Machine)
    {p : CompareMatchTimer} {a : Address} {value : List UInt8} (hp : Registered p)
    (ha : p.inRange a = true) (hlen : value.length = 1 ∨ value.length = 2 ∨ value.length = 4) :
    (∃ p', p.hookMemoryWrite order emu a value = .ok p') ↔
      ∀ i : Channel, i.window a = true → Maps i a := by
  have hwrite : p.hookMemoryWrite order emu a value =
      (p.writeChannel order .cmt0 a (UInt32.ofNat (decode .be value))).bind fun q =>
        q.writeChannel order .cmt1 a (UInt32.ofNat (decode .be value)) := by
    rw [hookMemoryWrite_of_inRange hp.range ha, writeValue, if_pos hlen]
    rfl
  have hmap : ∀ q, p.writeChannel order .cmt0 a (UInt32.ofNat (decode .be value)) = .ok q →
      (q.timer .cmt1).regWriteMap = (newTimer .cmt1).regWriteMap := fun q hq => by
    rw [timer_cmt1_writeChannel hq, hp.writes]
  rw [hwrite, bind_isOk_iff]
  constructor
  · rintro ⟨q, hq, h⟩ i
    cases i with
    | cmt0 => exact (writeChannel_isOk_iff order a _ (hp.writes .cmt0)).mp ⟨q, hq⟩
    | cmt1 => exact (writeChannel_isOk_iff order a _ (hmap q hq)).mp h
  · intro h
    obtain ⟨q, hq⟩ := (writeChannel_isOk_iff order a _ (hp.writes .cmt0)).mpr (h .cmt0)
    exact ⟨q, hq, (writeChannel_isOk_iff order a _ (hmap q hq)).mpr (h .cmt1)⟩

/-- In every reachable state, an access in the range returns at the seven registers and at
0xfffec007, where a read of a counter also needs the count to fit in a word. -/
theorem access_served_iff {order : HashOrder} {emu : Machine}
    {tr : List (CompareMatchTimer × HookEvent .be)} {p : CompareMatchTimer}
    (h : Reaches order emu tr p) {a : Address} (hlo : 0xfffec000 ≤ a) (hhi : a ≤ 0xfffec00c)
    (order' : HashOrder) (state : PCodeState .be) {value : List UInt8}
    (hlen : value.length = 1 ∨ value.length = 2 ∨ value.length = 4) :
    ((∃ state', p.hookMemoryRead order' emu state a = .ok state') ↔
        (Mapped a ∨ a = 0xfffec007) ∧
          ∀ i : Channel, a = i.addrCmcnt → (p.timer i).getCurrentTick.toNat < 2 ^ 32) ∧
      ((∃ p', p.hookMemoryWrite order' emu a value = .ok p') ↔ Mapped a ∨ a = 0xfffec007) := by
  have hp : Registered p := Reaches.registered h
  have ha : p.inRange a = true := by
    rw [inRange, hp.range, Bool.and_eq_true, decide_eq_true_eq, decide_eq_true_eq]
    exact ⟨hlo, hhi⟩
  rw [hookMemoryRead_isOk_iff order' emu state hp ha,
    hookMemoryWrite_isOk_iff order' emu hp ha hlen, windows_iff hlo hhi, ← windows_iff hlo hhi]
  refine ⟨?_, Iff.rfl⟩
  constructor
  · intro hall
    refine ⟨fun i hw => (hall i hw).1, fun i hi => (hall i ?_).2 hi⟩
    exact window_of_maps (.inr (.inr (.inl hi)))
  · rintro ⟨hmaps, hfits⟩ i hw
    exact ⟨hmaps i hw, hfits i⟩

theorem access_served_iff_cmcnt :
    (∃ state', new.hookMemoryRead .insertion plainMachine plainState 0xfffec004 = .ok state') ∧
      ∃ p', new.hookMemoryWrite .insertion plainMachine 0xfffec004 [0x12] = .ok p' := by
  have h := access_served_iff (reaches_sample []) (show 0xfffec000 ≤ 0xfffec004 by decide)
    (by decide) .insertion plainState (show [(0x12 : UInt8)].length = 1 ∨ _ from .inl rfl)
  exact ⟨h.1.mpr ⟨.inl (by decide), fun i _ => by cases i <;> decide⟩,
    h.2.mpr (.inl (by decide))⟩

/-- A byte access to the low half of CMSTR finds no register. -/
theorem not_served_low_byte : ¬ ∀ (order : HashOrder) (emu : Machine)
    (tr : List (CompareMatchTimer × HookEvent .be)) (p : CompareMatchTimer) (a : Address)
    (state : PCodeState .be) (value : List UInt8), Reaches order emu tr p →
      0xfffec000 ≤ a → a ≤ 0xfffec00c →
        value.length = 1 ∨ value.length = 2 ∨ value.length = 4 →
          (∃ state', p.hookMemoryRead order emu state a = .ok state') ∧
            ∃ p', p.hookMemoryWrite order emu a value = .ok p' := by
  intro h
  obtain ⟨⟨state', hread⟩, -⟩ := h .insertion plainMachine _ _ 0xfffec001 plainState [0]
    (reaches_sample []) (by decide) (by decide) (.inl rfl)
  cases hread

end CompareMatchTimer

end FuguexPeripheral.SuperH
