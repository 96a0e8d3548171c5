import FuguexPeripheral.Backend.ReadBack
import FuguexPeripheral.C166.GeneralPurposeTimer

/-!
# The C166 registers

T6 and T6CON are 16-bit registers in a little-endian memory. The backend reads, patches and
writes four bytes; its masks are in the low half of them, which is the register.

A write of one byte is widened with zeros and then goes to every field of the register, so
that it clears the bits of the high byte as well.

Results:
1. `Reaches.registered`: the registers stay as `new` maps them.
2. `readU32_bit`, `changedOnly_of_composed`: what fields of the low half make of memory.
3. `registers_round_trip`: what the two registers read, and what they read after a write.
4. `byteWrite_iff`: when a write of one byte leaves the other byte of the register alone.
-/

namespace FuguexPeripheral.C166

open ByteStore Backend Fallible Masks

namespace GeneralPurposeTimer

/-! ## Reachable states -/

theorem regReadMap_newTimer (a : Address) :
    newTimer.regReadMap a =
      if a = addrT6con then some [(0x40, .isEnabled), (0x400, .getMatchToggle)]
      else if a = addrT6 then some [(0xffff, .getCurrentTick)]
      else none := by
  unfold newTimer
  simp only [CompareMatchTimer.mapFunctionAddrRead, CompareMatchTimer.mapFunctionAddrWrite,
    CompareMatchTimer.setCompareAgainst, Function.update_apply]
  split_ifs <;> simp_all [addrT6con, addrT6] <;> rfl

/-- The peripheral as `new` builds it and calls leave it: the register maps, and how the
timer counts. Any count and any flags will do. -/
structure Registered (p : GeneralPurposeTimer) : Prop where
  reads : p.backendCmt6.regReadMap = newTimer.regReadMap
  writes : p.backendCmt6.regWriteMap = newTimer.regWriteMap
  compare : p.backendCmt6.compareAgainst = 0xffff
  forward : p.backendCmt6.countForward = true
  reset : p.backendCmt6.resetOnMatch = true

theorem registered_new : Registered new :=
  ⟨rfl, rfl, rfl, rfl, rfl⟩

theorem Registered.step {p : GeneralPurposeTimer} (hp : Registered p) :
    Registered p.hookArchitecturalStep := by
  unfold hookArchitecturalStep
  constructor
  all_goals
    dsimp only
    rw [CompareMatchTimer.tick_frame]
  exacts [hp.reads, hp.writes, hp.compare, hp.forward, hp.reset]

theorem Registered.apply {order : HashOrder} {conv : AddressConversion}
    {p p' : GeneralPurposeTimer} {e : HookEvent .le} (hp : Registered p)
    (h : p.apply order conv e = .ok p') : Registered p' := by
  have haccess : (∀ state address, e ≠ .step state address) → Registered p' := by
    intro he
    rcases apply_access he hp.writes h with heq | ⟨on, toggle, heq⟩ | ⟨v, -, heq⟩
    all_goals
      constructor
      all_goals rw [heq]
      exacts [hp.reads, hp.writes, hp.compare, hp.forward, hp.reset]
  cases e with
  | step state address =>
    cases h
    exact hp.step
  | read state address size => exact haccess nofun
  | write state address size value => exact haccess nofun

/-- Every reachable state has the registers of `new`. -/
theorem Reaches.registered {order : HashOrder} {conv : AddressConversion}
    {tr : List (GeneralPurposeTimer × HookEvent .le)} {p : GeneralPurposeTimer}
    (h : Reaches order conv tr p) : Registered p :=
  h.invariant Registered (fun _ _ _ hq hstep => hq.apply hstep) registered_new

/-! ## Half words -/

namespace RegistersLemmas

variable {state state' : PCodeState .le} {a : Address}

theorem readMemory_four (state : PCodeState .le) (a : Address) :
    state.readMemory a 4 = 2 ^ 16 * state.readMemory (a + 2) 2 + state.readMemory a 2 := by
  have h := decode_le_append (state.memory.read a 2) (state.memory.read (a + 2) 2)
  rw [← Store.read_add, Store.length_read] at h
  exact h.trans (Nat.add_comm _ _)

/-- The low half of a word is the half word at its address, the high half the next one. -/
theorem readU32_bit (state : PCodeState .le) (a : Address) (i : Nat) :
    bit (state.readU32 a) i =
      if i < 16 then (state.readMemory a 2).testBit i
      else (state.readMemory (a + 2) 2).testBit (i - 16) := by
  rw [bit_eq_testBit, PCodeState.toNat_readU32, readMemory_four]
  exact Nat.testBit_two_pow_mul_add _ (state.readMemory_lt a 2) i

theorem testBit_writeU32 (state : PCodeState .le) (a : Address) (W : UInt32) {i : Nat}
    (hi : i < 16) : ((state.writeU32 a W).readMemory a 2).testBit i = bit W i := by
  have h := readU32_bit (state.writeU32 a W) a i
  rw [if_pos hi, PCodeState.readU32_writeU32] at h
  exact h.symm

/-- Fields of the low half change the half word at the address and nothing else. -/
theorem changedOnly_of_composed {fs : List (UInt32 × UInt32)} {W : UInt32}
    (hlow : ∀ f ∈ fs, ∀ i, 16 ≤ i → bit f.1 i = false)
    (hW : Composed fs (state.readU32 a) W) : state.ChangedOnly (state.writeU32 a W) a 2 := by
  refine PCodeState.ChangedOnly.narrow (n := 2) (k := 2) ?_ ?_
  · exact PCodeState.changedOnly_write state a 4 W.toNat
  · refine Nat.eq_of_testBit_eq fun i => ?_
    by_cases hi : i < 16
    · have h := readU32_bit (state.writeU32 a W) a (i + 16)
      have h' := readU32_bit state a (i + 16)
      rw [if_neg (Nat.not_lt.mpr (Nat.le_add_left 16 i)), Nat.add_sub_cancel] at h h'
      rw [← h, ← h', PCodeState.readU32_writeU32]
      exact hW.bit_of_not_mem (by omega) fun f hf => hlow f hf _ (Nat.le_add_left 16 i)
    · have hle : 2 ^ 16 ≤ 2 ^ i := Nat.pow_le_pow_right (by decide) (Nat.not_lt.mp hi)
      have hzero : ∀ s : PCodeState .le, (s.readMemory (a + 2) 2).testBit i = false := fun s =>
        Nat.testBit_lt_two_pow (Nat.lt_of_lt_of_le (s.readMemory_lt (a + 2) 2) hle)
      rw [hzero, hzero]

end RegistersLemmas

open RegistersLemmas

/-! ## Reads -/

namespace RegistersLemmas

open CompareMatchTimer ReadBackLemmas

variable {p : GeneralPurposeTimer} {a : Address} {m : MaskMap}

theorem bit_flag {mask : UInt32} {i : Nat} (h : bit mask i = true) (set : Bool) :
    bit (if set then mask else 0) i = set := by
  cases set with
  | false => exact bit_zero i
  | true => exact h

theorem isRegister_of_map (h : newTimer.regReadMap a = some m) :
    isRegister a = true ∧ a < 2 ^ 32 := by
  rw [regReadMap_newTimer] at h
  split_ifs at h with h₀ h₁
  · rw [h₀]
    decide
  · rw [h₁]
    decide

/-- A read of a register puts its fields into the word in memory. -/
theorem hookMemoryRead_register (hp : Registered p) (hm : newTimer.regReadMap a = some m)
    (hdisj : m.Pairwise fun e f => e.1 &&& f.1 = 0)
    (hread : ∀ entry ∈ m, p.backendCmt6.Readable entry) (order : HashOrder)
    (conv : AddressConversion) (state : PCodeState .le) :
    ∃ W, p.hookMemoryRead order conv state a = .ok (state.writeU32 a W) ∧
      Composed (p.backendCmt6.fields m) (state.readU32 a) W := by
  obtain ⟨hreg, hlt⟩ := isRegister_of_map hm
  rw [← hp.reads] at hm
  obtain ⟨W, hW, hcomposed⟩ := handleRegRead_composed hm hdisj hread order state
  refine ⟨W, ?_, hcomposed⟩
  rw [hookMemoryRead_of_lt hlt, if_pos hreg, hW]
  rfl

end RegistersLemmas

open CompareMatchTimer ReadBackLemmas

/-- T6 shows the low 16 bits of the count. -/
theorem hookMemoryRead_t6 (order : HashOrder) (conv : AddressConversion) {p : GeneralPurposeTimer}
    (hp : Registered p) (hfits : p.backendCmt6.currentTick.toNat < 2 ^ 32)
    (state : PCodeState .le) :
    ∃ state', p.hookMemoryRead order conv state addrT6 = .ok state' ∧
      state'.readMemory addrT6 2 = p.backendCmt6.currentTick.toNat % 2 ^ 16 ∧
      state.ChangedOnly state' addrT6 2 := by
  have hmap : newTimer.regReadMap addrT6 = some [(0xffff, Count.currentTick.getter)] := by
    rw [regReadMap_newTimer, if_neg (by decide), if_pos rfl]
    rfl
  have hread := (readable_halfWord_iff .currentTick).mpr hfits
  obtain ⟨W, hok, hW⟩ := hookMemoryRead_register hp hmap (List.pairwise_singleton _ _)
    (List.forall_mem_singleton.mpr hread) order conv state
  have hhalf : Contiguous 0xffff 0 16 := .of_bits (by decide) (by decide) (by decide)
  rw [fields, List.map_singleton, fieldBits_halfWord .currentTick hfits] at hW
  refine ⟨_, hok, Nat.eq_of_testBit_eq fun i => ?_, changedOnly_of_composed ?_ hW⟩
  · rw [Nat.testBit_mod_two_pow]
    by_cases hi : i < 16
    · have hbit := hW.bit_of_mem List.mem_cons_self (i := i)
        (by rw [hhalf.bit_eq]; exact decide_eq_true ⟨Nat.zero_le i, hi⟩)
      have hnat : (UInt32.ofNat p.backendCmt6.currentTick.toNat).toNat =
          p.backendCmt6.currentTick.toNat := by
        rw [UInt32.toNat_ofNat']
        exact Nat.mod_eq_of_lt hfits
      rw [testBit_writeU32 _ _ _ hi, hbit, decide_eq_true hi, Bool.true_and, ← hnat]
      rfl
    · have hle : 2 ^ 16 ≤ 2 ^ i := Nat.pow_le_pow_right (by decide) (Nat.not_lt.mp hi)
      rw [decide_eq_false hi, Bool.false_and]
      exact Nat.testBit_lt_two_pow (Nat.lt_of_lt_of_le (PCodeState.readMemory_lt _ _ _) hle)
  · intro f hf i hi
    rw [List.mem_singleton.mp hf, hhalf.bit_eq]
    exact decide_eq_false fun h => absurd h.2 (Nat.not_lt.mpr hi)

/-- T6CON shows the enable flag in bit 6 and the match toggle in bit 10. -/
theorem hookMemoryRead_t6con (order : HashOrder) (conv : AddressConversion)
    {p : GeneralPurposeTimer} (hp : Registered p) (state : PCodeState .le) :
    ∃ state', p.hookMemoryRead order conv state addrT6con = .ok state' ∧
      (∀ i, i < 16 → (state'.readMemory addrT6con 2).testBit i =
        if i = 6 then p.backendCmt6.isEnabled
        else if i = 10 then p.backendCmt6.getMatchToggle
        else (state.readMemory addrT6con 2).testBit i) ∧
      state.ChangedOnly state' addrT6con 2 := by
  have hmap : newTimer.regReadMap addrT6con =
      some [(0x40, .isEnabled), (0x400, .getMatchToggle)] := by
    rw [regReadMap_newTimer, if_pos rfl]
  have henable : Contiguous 0x40 6 7 := .of_bits (by decide) (by decide) (by decide)
  have htoggle : Contiguous 0x400 10 11 := .of_bits (by decide) (by decide) (by decide)
  obtain ⟨W, hok, hW⟩ := hookMemoryRead_register hp hmap (by decide)
    (fun entry he => readable_flag (by rcases List.mem_pair.mp he with rfl | rfl <;> rfl))
    order conv state
  have hfields : p.backendCmt6.fields [(0x40, .isEnabled), (0x400, .getMatchToggle)] =
      [(0x40, if p.backendCmt6.isEnabled then 0x40 else 0),
        (0x400, if p.backendCmt6.getMatchToggle then 0x400 else 0)] := rfl
  rw [hfields] at hW
  have hother : ∀ f ∈ [((0x40 : UInt32), if p.backendCmt6.isEnabled then (0x40 : UInt32) else 0),
      (0x400, if p.backendCmt6.getMatchToggle then 0x400 else 0)],
      ∀ i, i ≠ 6 → i ≠ 10 → bit f.1 i = false := by
    intro f hf i h6 h10
    rcases List.mem_pair.mp hf with rfl | rfl
    · rw [henable.bit_eq]
      exact decide_eq_false (by omega)
    · rw [htoggle.bit_eq]
      exact decide_eq_false (by omega)
  refine ⟨_, hok, fun i hi => ?_, changedOnly_of_composed ?_ hW⟩
  · rw [testBit_writeU32 _ _ _ hi]
    by_cases h6 : i = 6
    · rw [if_pos h6, h6, hW.bit_of_mem List.mem_cons_self (henable.lowest.1), bit_flag]
      exact henable.lowest.1
    · by_cases h10 : i = 10
      · rw [if_neg h6, if_pos h10, h10, hW.bit_of_mem (List.mem_cons_of_mem _ List.mem_cons_self)
          htoggle.lowest.1, bit_flag]
        exact htoggle.lowest.1
      · have hbit := hW.bit_of_not_mem (i := i) (by omega) fun f hf => hother f hf i h6 h10
        rw [if_neg h6, if_neg h10, hbit, readU32_bit, if_pos hi]
  · exact fun f hf i hi => hother f hf i (by omega) (by omega)

/-! ## Writes -/

namespace RegistersLemmas

variable {order : HashOrder} {conv : AddressConversion} {p : GeneralPurposeTimer}
  {value : List UInt8}

theorem decode_short_lt (hlen : value.length = 1 ∨ value.length = 2) :
    decode .le value < 2 ^ 16 := by
  refine Nat.lt_of_lt_of_le (decode_lt .le value) (Nat.pow_le_pow_right (by decide) ?_)
  omega

/-- The value of a short write has the bits of its bytes. -/
theorem toNat_short (hlen : value.length = 1 ∨ value.length = 2) :
    (UInt32.ofNat (decode .le value)).toNat = decode .le value := by
  rw [UInt32.toNat_ofNat']
  exact Nat.mod_eq_of_lt (Nat.lt_trans (decode_short_lt hlen) (by decide))

theorem decide_and_bit {v mask : UInt32} {i : Nat} (hi : i < 32)
    (hmask : mask = 1 <<< UInt32.ofNat i) : decide (v &&& mask ≠ 0) = v.toNat.testBit i := by
  rw [← bit_eq_testBit, ← and_one_shift_ne_zero v hi, hmask]
  by_cases h : v &&& 1 <<< UInt32.ofNat i = 0 <;> simp [h]

/-- A write of at most two bytes takes the whole value for the count. -/
theorem toNat_writtenCount_short {v : UInt32} (h : v.toNat < 2 ^ 16) :
    (writtenCount v 0xffff).toNat = v.toNat := by
  rw [RegisterWriteLemmas.toNat_writtenCount]
  split
  next hzero =>
    have hlow : (v &&& 0xffff).toNat = v.toNat % 2 ^ 16 := toNat_and_low v rfl
    have hmod : v.toNat % 2 ^ 16 = 0 := by
      rw [← hlow]
      exact congrArg UInt32.toNat hzero
    rw [← hmod, Nat.mod_eq_of_lt h]
  next => rfl

theorem hookMemoryWrite_register {a : Address} {t : CompareMatchTimer} (hreg : isRegister a = true)
    (hlt : a < 2 ^ 32) (hlen : value.length = 1 ∨ value.length = 2)
    (hwrite : p.backendCmt6.handleRegWrite order a (UInt32.ofNat (decode .le value)) = .ok t) :
    p.hookMemoryWrite order conv a value =
      .ok ⟨t, p.interrupt.setEnable t.isInterruptEnabled⟩ := by
  rw [hookMemoryWrite_of_lt hlt, if_pos hreg, writeValue, if_pos hlen]
  change (p.backendCmt6.handleRegWrite order a _).bind _ = _
  rw [hwrite]
  rfl

/-- Reads leave the timer alone. -/
theorem apply_read {state state' : PCodeState .le} {a : Address}
    (h : p.hookMemoryRead order conv state a = .ok state') (size : Nat) :
    p.apply order conv (.read state a size) = .ok p := by
  change (p.hookMemoryRead order conv state a).bind _ = _
  rw [h]
  rfl

end RegistersLemmas

/-- A write of one or two bytes to T6 sets the count to their value. -/
theorem hookMemoryWrite_t6 (order : HashOrder) (conv : AddressConversion) {p : GeneralPurposeTimer}
    (hp : Registered p) (value : List UInt8) (hlen : value.length = 1 ∨ value.length = 2) :
    ∃ p' count, p.hookMemoryWrite order conv addrT6 value = .ok p' ∧
      p'.backendCmt6 = p.backendCmt6.setCurrentTick count ∧
      count.toNat = decode .le value := by
  have hwrite := @handleRegWrite_t6 order _ hp.writes (UInt32.ofNat (decode .le value))
  refine ⟨_, _, hookMemoryWrite_register rfl (by decide) hlen hwrite, rfl, ?_⟩
  rw [toNat_writtenCount_short, toNat_short hlen]
  rw [toNat_short hlen]
  exact decode_short_lt hlen

/-- A write of one or two bytes to T6CON sets the enable flag and the match toggle to bits 6
and 10 of their value. -/
theorem hookMemoryWrite_t6con (order : HashOrder) (conv : AddressConversion)
    {p : GeneralPurposeTimer} (hp : Registered p) (value : List UInt8)
    (hlen : value.length = 1 ∨ value.length = 2) :
    ∃ p', p.hookMemoryWrite order conv addrT6con value = .ok p' ∧
      p'.backendCmt6 = (p.backendCmt6.setEnable ((decode .le value).testBit 6)).setMatchToggle
        ((decode .le value).testBit 10) := by
  have hwrite := @handleRegWrite_t6con order _ hp.writes (UInt32.ofNat (decode .le value))
  rw [decide_and_bit (i := 6) (by decide) (by decide),
    decide_and_bit (i := 10) (by decide) (by decide), toNat_short hlen] at hwrite
  exact ⟨_, hookMemoryWrite_register rfl (by decide) hlen hwrite, rfl⟩

/-! ## Round trips -/

namespace RegistersLemmas

variable {p : GeneralPurposeTimer}

/-- A 16-bit write to T6 is read back. -/
theorem written_t6 (order : HashOrder) (conv : AddressConversion) (hp : Registered p) {V : Nat}
    (hV : V < 2 ^ 16) (state : PCodeState .le) : ∃ p' state',
      p.hookMemoryWrite order conv addrT6 (encode .le 2 V) = .ok p' ∧
        p'.hookMemoryRead order conv state addrT6 = .ok state' ∧
        state'.readMemory addrT6 2 = V := by
  obtain ⟨p', count, hwrite, htimer, hcount⟩ :=
    hookMemoryWrite_t6 order conv hp (encode .le 2 V) (.inr (length_encode _ _ _))
  have hp' : Registered p' := hp.apply (e := .write state addrT6 2 _) hwrite
  rw [decode_encode, Nat.mod_eq_of_lt hV] at hcount
  have htick : p'.backendCmt6.currentTick.toNat = V := by rw [htimer, ← hcount]; rfl
  obtain ⟨state', hread, hword, -⟩ := hookMemoryRead_t6 order conv hp'
    (by rw [htick]; exact Nat.lt_trans hV (by decide)) state
  rw [htick, Nat.mod_eq_of_lt hV] at hword
  exact ⟨p', state', hwrite, hread, hword⟩

/-- The two bits of a 16-bit write to T6CON are read back. -/
theorem written_t6con (order : HashOrder) (conv : AddressConversion) (hp : Registered p)
    {V : Nat} (hV : V < 2 ^ 16) (state : PCodeState .le) : ∃ p' state',
      p.hookMemoryWrite order conv addrT6con (encode .le 2 V) = .ok p' ∧
        p'.hookMemoryRead order conv state addrT6con = .ok state' ∧
        (state'.readMemory addrT6con 2).testBit 6 = V.testBit 6 ∧
        (state'.readMemory addrT6con 2).testBit 10 = V.testBit 10 := by
  obtain ⟨p', hwrite, htimer⟩ :=
    hookMemoryWrite_t6con order conv hp (encode .le 2 V) (.inr (length_encode _ _ _))
  have hp' : Registered p' := hp.apply (e := .write state addrT6con 2 _) hwrite
  rw [decode_encode, Nat.mod_eq_of_lt hV] at htimer
  obtain ⟨state', hread, hbits, -⟩ := hookMemoryRead_t6con order conv hp' state
  refine ⟨p', state', hwrite, hread, ?_, ?_⟩
  · rw [hbits 6 (by decide), if_pos rfl, htimer]
    rfl
  · rw [hbits 10 (by decide), if_neg (by decide), if_pos rfl, htimer]
    rfl

/-- No other address is served. -/
theorem hooks_elsewhere (order : HashOrder) (conv : AddressConversion) (p : GeneralPurposeTimer)
    {a : Address} (ha : a < 2 ^ 32) (h6 : a ≠ addrT6) (h6con : a ≠ addrT6con) :
    (∀ state, p.hookMemoryRead order conv state a = .ok state) ∧
      ∀ value, p.hookMemoryWrite order conv a value = .ok p := by
  have hreg : isRegister a = false := by simp [isRegister, h6, h6con]
  refine ⟨fun state => ?_, fun value => ?_⟩
  · rw [hookMemoryRead_of_lt ha, hreg]
    rfl
  · rw [hookMemoryWrite_of_lt ha, hreg]
    rfl

end RegistersLemmas

/-- The two registers. T6 reads the low 16 bits of a count that fits in a word, T6CON the
enable flag and the match toggle between bits of memory; a read changes the two bytes of the
register only. What a 16-bit write puts into a register is read back. No other address is
served. -/
theorem registers_round_trip (order : HashOrder) (conv : AddressConversion)
    {p : GeneralPurposeTimer} (hp : Registered p) :
    (p.backendCmt6.currentTick.toNat < 2 ^ 32 → ∀ state, ∃ state',
      p.hookMemoryRead order conv state addrT6 = .ok state' ∧
        state'.readMemory addrT6 2 = p.backendCmt6.currentTick.toNat % 2 ^ 16 ∧
        state.ChangedOnly state' addrT6 2 ∧
        ∀ size, p.apply order conv (.read state addrT6 size) = .ok p) ∧
    (∀ state, ∃ state', p.hookMemoryRead order conv state addrT6con = .ok state' ∧
      (∀ i, i < 16 → (state'.readMemory addrT6con 2).testBit i =
        if i = 6 then p.backendCmt6.isEnabled
        else if i = 10 then p.backendCmt6.getMatchToggle
        else (state.readMemory addrT6con 2).testBit i) ∧
      state.ChangedOnly state' addrT6con 2 ∧
      ∀ size, p.apply order conv (.read state addrT6con size) = .ok p) ∧
    (∀ V, V < 2 ^ 16 → ∀ state, ∃ p' state',
      p.hookMemoryWrite order conv addrT6 (encode .le 2 V) = .ok p' ∧
        p'.hookMemoryRead order conv state addrT6 = .ok state' ∧
        state'.readMemory addrT6 2 = V) ∧
    (∀ V, V < 2 ^ 16 → ∀ state, ∃ p' state',
      p.hookMemoryWrite order conv addrT6con (encode .le 2 V) = .ok p' ∧
        p'.hookMemoryRead order conv state addrT6con = .ok state' ∧
        (state'.readMemory addrT6con 2).testBit 6 = V.testBit 6 ∧
        (state'.readMemory addrT6con 2).testBit 10 = V.testBit 10) ∧
    ∀ a, a < 2 ^ 32 → a ≠ addrT6 → a ≠ addrT6con →
      (∀ state, p.hookMemoryRead order conv state a = .ok state) ∧
        ∀ value, p.hookMemoryWrite order conv a value = .ok p := by
  refine ⟨fun hfits state => ?_, fun state => ?_, ?_, ?_, ?_⟩
  · obtain ⟨state', hread, hword, hchanged⟩ := hookMemoryRead_t6 order conv hp hfits state
    exact ⟨state', hread, hword, hchanged, apply_read hread⟩
  · obtain ⟨state', hread, hword, hchanged⟩ := hookMemoryRead_t6con order conv hp state
    exact ⟨state', hread, hword, hchanged, apply_read hread⟩
  · exact fun V hV => written_t6 order conv hp hV
  · exact fun V hV => written_t6con order conv hp hV
  · exact fun a => hooks_elsewhere order conv p

/-- A new timer whose T6CON is read over a memory of ones, and then written. -/
theorem registers_round_trip_new :
    (∃ state',
      new.hookMemoryRead .insertion .truncating ⟨fun _ _ => 0xff, 0⟩ addrT6 = .ok state' ∧
      state'.readMemory addrT6 2 = 0) ∧
    ∃ p' state',
      new.hookMemoryWrite .insertion .truncating addrT6con (encode .le 2 0x440) = .ok p' ∧
      p'.hookMemoryRead .insertion .truncating ⟨fun _ _ => 0, 0⟩ addrT6con = .ok state' ∧
      (state'.readMemory addrT6con 2).testBit 10 = true := by
  obtain ⟨hread, -, -, hwrite, -⟩ := registers_round_trip .insertion .truncating registered_new
  constructor
  · obtain ⟨state', hok, hword, -⟩ := hread (by decide) ⟨fun _ _ => 0xff, 0⟩
    exact ⟨state', hok, hword⟩
  · obtain ⟨p', state', hw, hr, -, hbit⟩ := hwrite 0x440 (by decide) ⟨fun _ _ => 0, 0⟩
    exact ⟨p', state', hw, hr, hbit⟩

/-! ## Writes of one byte -/

/-- The bits that a register has: the count in T6, the enable flag and the match toggle in
T6CON. -/
def registerBit (p : GeneralPurposeTimer) (a : Address) (i : Nat) : Bool :=
  if a = addrT6 then p.backendCmt6.currentTick.toNat.testBit i
  else if i = 6 then p.backendCmt6.isEnabled
  else if i = 10 then p.backendCmt6.getMatchToggle
  else false

/-- The register has a bit there. -/
def HasBit (a : Address) (i : Nat) : Prop :=
  a = addrT6 ∧ i < 16 ∨ a = addrT6con ∧ (i = 6 ∨ i = 10)

/-- The byte is written to the low half of the register at `a`: the bits 0 to 7 that the
register has are those of the byte, and every other bit of the two registers is as before. -/
def WritesLowByte (order : HashOrder) (conv : AddressConversion) (p : GeneralPurposeTimer)
    (a : Address) (b : UInt8) : Prop :=
  ∃ p', p.hookMemoryWrite order conv a [b] = .ok p' ∧
    ∀ a' i, HasBit a' i → p'.registerBit a' i =
      if a' = a ∧ i < 8 then b.toNat.testBit i else p.registerBit a' i

namespace RegistersLemmas

theorem decode_singleton (b : UInt8) : decode .le [b] = b.toNat := by
  simp [decode, decodeLE]

/-- A write of one byte gives all bits of the register those of the byte, widened. -/
theorem hookMemoryWrite_byte (order : HashOrder) (conv : AddressConversion)
    {p : GeneralPurposeTimer} (hp : Registered p) {a : Address}
    (ha : a = addrT6 ∨ a = addrT6con) (b : UInt8) :
    ∃ p', p.hookMemoryWrite order conv a [b] = .ok p' ∧ ∀ a' i, HasBit a' i →
      p'.registerBit a' i = if a' = a then b.toNat.testBit i else p.registerBit a' i := by
  have hne : addrT6con ≠ addrT6 := by decide
  rcases ha with rfl | rfl
  · obtain ⟨p', count, hwrite, htimer, hcount⟩ :=
      hookMemoryWrite_t6 order conv hp [b] (.inl rfl)
    rw [decode_singleton] at hcount
    refine ⟨p', hwrite, fun a' i hbit => ?_⟩
    rcases hbit with ⟨rfl, -⟩ | ⟨rfl, -⟩
    · rw [registerBit, if_pos rfl, if_pos rfl, htimer, ← hcount]
      rfl
    · rw [registerBit, registerBit, if_neg hne, if_neg hne, if_neg hne, htimer]
      rfl
  · obtain ⟨p', hwrite, htimer⟩ :=
      hookMemoryWrite_t6con order conv hp [b] (.inl rfl)
    rw [decode_singleton] at htimer
    refine ⟨p', hwrite, fun a' i hbit => ?_⟩
    rcases hbit with ⟨rfl, -⟩ | ⟨rfl, rfl | rfl⟩
    · rw [registerBit, registerBit, if_pos rfl, if_pos rfl, if_neg hne.symm, htimer]
      rfl
    · rw [registerBit, if_neg hne, if_pos rfl, if_pos rfl, htimer]
      rfl
    · rw [registerBit, if_neg hne, if_neg (by decide), if_pos rfl, if_pos rfl, htimer]
      rfl

/-- The high byte of a widened byte is zero. -/
theorem testBit_byte (b : UInt8) {i : Nat} (hi : 8 ≤ i) : b.toNat.testBit i = false :=
  Nat.testBit_lt_two_pow (Nat.lt_of_lt_of_le b.toNat_lt (Nat.pow_le_pow_right (by decide) hi))

theorem hasBit_of_registerBit {p : GeneralPurposeTimer} {a : Address} {i : Nat}
    (ha : a = addrT6 ∨ a = addrT6con) (hi : i < 16) (h : p.registerBit a i = true) :
    HasBit a i := by
  rcases ha with rfl | rfl
  · exact .inl ⟨rfl, hi⟩
  · rw [registerBit, if_neg (by decide)] at h
    split_ifs at h with h6 h10
    · exact .inr ⟨rfl, .inl h6⟩
    · exact .inr ⟨rfl, .inr h10⟩

end RegistersLemmas

/-- A write of one byte leaves the other bits of the registers alone exactly where the high
byte of the register is zero. -/
theorem byteWrite_iff (order : HashOrder) (conv : AddressConversion) {p : GeneralPurposeTimer}
    (hp : Registered p) {a : Address} (ha : a = addrT6 ∨ a = addrT6con) (b : UInt8) :
    p.WritesLowByte order conv a b ↔ ∀ i, 8 ≤ i → i < 16 → p.registerBit a i = false := by
  obtain ⟨p', hwrite, hbits⟩ := hookMemoryWrite_byte order conv hp ha b
  constructor
  · rintro ⟨p'', hwrite', hkeep⟩ i h8 h16
    rw [hwrite] at hwrite'
    cases hwrite'
    by_contra hset
    rw [Bool.not_eq_false] at hset
    have hbit := hasBit_of_registerBit ha h16 hset
    have hsame := hkeep a i hbit
    rw [hbits a i hbit, if_pos rfl, testBit_byte b h8, if_neg fun h => absurd h.2 (by omega),
      hset] at hsame
    cases hsame
  · intro hzero
    refine ⟨p', hwrite, fun a' i hbit => ?_⟩
    rw [hbits a' i hbit]
    by_cases ha' : a' = a
    · by_cases h8 : i < 8
      · rw [if_pos ha', if_pos ⟨ha', h8⟩]
      · have h16 : i < 16 := by
          rcases hbit with ⟨-, h⟩ | ⟨-, h⟩
          · exact h
          · omega
        rw [if_pos ha', if_neg fun h => h8 h.2, ha', hzero i (Nat.not_lt.mp h8) h16]
        exact testBit_byte b (Nat.not_lt.mp h8)
    · rw [if_neg ha', if_neg fun h => ha' h.1]

/-- The low byte of T6CON is written while the toggle is clear. -/
theorem byteWrite_iff_new : new.WritesLowByte .insertion .truncating addrT6con 0x40 :=
  (byteWrite_iff .insertion .truncating registered_new (.inr rfl) 0x40).mpr fun i h8 h16 => by
    interval_cases i <;> rfl

/-- A byte written to T6 takes the high byte of the count away. -/
theorem not_byteWrite_t6 : ¬ ∀ (order : HashOrder) (conv : AddressConversion)
    (p : GeneralPurposeTimer) (a : Address) (b : UInt8), Registered p →
      (a = addrT6 ∨ a = addrT6con) → p.WritesLowByte order conv a b := by
  intro h
  have hreach := reaches_sample [.write ⟨fun _ _ => 0, 0⟩ addrT6 2 [0x34, 0x12]]
  obtain ⟨p', hwrite, hkeep⟩ := h .insertion .truncating _ addrT6 0x56 hreach.registered (.inl rfl)
  have hbit := hkeep addrT6 9 (.inl ⟨rfl, by decide⟩)
  cases hwrite
  exact absurd hbit (by decide)

end GeneralPurposeTimer

end FuguexPeripheral.C166
