import FuguexPeripheral.SuperH.Registers

/-!
# Reads of 16-bit registers

A read of a register patches the word at its address. The register is the high half of that
word and the backend's masks are in the low half, which is the next register: the addressed
register stays as it is, and the next one gets its fields.

Results:
1. `readU32_halves`: the two half words in a word.
2. `halfWord_writeU32_patches`: what a read makes of the two half words.
3. `hookMemoryRead_halfWords`, `hookMemoryRead_halfWord_iff`: when the addressed register has
   its fields afterwards and nothing else has changed.
-/

namespace FuguexPeripheral.SuperH

open ByteStore Backend Masks

/-! ## Half words -/

/-- The big-endian number in the two bytes at `a`. -/
def halfWord (state : PCodeState .be) (a : Address) : UInt32 :=
  UInt32.ofNat (state.readMemory a 2)

namespace WordLemmas

variable {state state' : PCodeState .be} {a : Address}

theorem readMemory_four (state : PCodeState .be) (a : Address) :
    state.readMemory a 4 = state.readMemory (a + 2) 2 + 2 ^ 16 * state.readMemory a 2 := by
  have h := decode_be_append (state.memory.read a 2) (state.memory.read (a + 2) 2)
  rw [← Store.read_add, Store.length_read] at h
  exact h

theorem toNat_halfWord (state : PCodeState .be) (a : Address) :
    (halfWord state a).toNat = state.readMemory a 2 := by
  rw [halfWord, UInt32.toNat_ofNat']
  exact Nat.mod_eq_of_lt (Nat.lt_trans (state.readMemory_lt a 2) (by decide))

/-- The word at an address has the half word there on top of the next one. -/
theorem readU32_halves (state : PCodeState .be) (a : Address) :
    halfWord state a = state.readU32 a >>> 16 ∧
      halfWord state (a + 2) = state.readU32 a &&& 0xffff := by
  have hhigh := state.readMemory_lt a 2
  have hlow := state.readMemory_lt (a + 2) 2
  have hword : (state.readU32 a).toNat =
      state.readMemory (a + 2) 2 + 2 ^ 16 * state.readMemory a 2 := by
    rw [PCodeState.toNat_readU32, readMemory_four]
  constructor
  · apply UInt32.toNat.inj
    rw [toNat_halfWord, UInt32.toNat_shiftRight, hword]
    change _ = _ >>> 16
    rw [Nat.shiftRight_eq_div_pow]
    omega
  · apply UInt32.toNat.inj
    rw [toNat_halfWord, toNat_and_low (k := 16) _ rfl, hword]
    omega

theorem halfWord_eq_iff :
    halfWord state' a = halfWord state a ↔ state'.readMemory a 2 = state.readMemory a 2 := by
  constructor
  · intro h
    rw [← toNat_halfWord, ← toNat_halfWord, h]
  · intro h
    rw [halfWord, halfWord, h]

end WordLemmas

open WordLemmas

namespace CompareMatchTimer

open RegistersLemmas

namespace HalfWordsLemmas

variable {p : CompareMatchTimer} {i : Channel} {a : Address}

/-- The masks that the timer of a channel has at an address. -/
def channelMasks (i : Channel) (a : Address) : List UInt32 :=
  if a = addrCmstr then [i.startMask]
  else if a = i.addrCmcsr then [0x40, 0x80]
  else if a = i.addrCmcnt then [0xffff]
  else if a = i.addrCmcor then [0xffff]
  else []

theorem map_fst_channelFields (p : CompareMatchTimer) (i : Channel) (a : Address) :
    (p.channelFields i a).map Prod.fst = channelMasks i a := by
  simp only [channelFields, channelMasks, apply_ite (List.map Prod.fst), List.map_cons,
    List.map_nil]

theorem map_fst_fieldsAt (p : CompareMatchTimer) (a : Address) :
    (p.fieldsAt a).map Prod.fst = channelMasks .cmt0 a ++ channelMasks .cmt1 a := by
  rw [fieldsAt, List.map_append, map_fst_channelFields, map_fst_channelFields]

/-- The masks at an address do not meet, and lie in the low half of a word. -/
theorem masks_fieldsAt (p : CompareMatchTimer) (ha : Mapped a) :
    ((p.fieldsAt a).Pairwise fun f g => f.1 &&& g.1 = 0) ∧
      ∀ f ∈ p.fieldsAt a, f.1 &&& 0xffff = f.1 := by
  have hmasks : ((p.fieldsAt a).map Prod.fst).Pairwise (fun m n => m &&& n = 0) ∧
      ((p.fieldsAt a).map Prod.fst).all (fun m => m &&& 0xffff == m) = true := by
    rw [map_fst_fieldsAt]
    rcases ha with (rfl | rfl | rfl | rfl) | (rfl | rfl | rfl | rfl) <;> decide
  refine ⟨List.pairwise_map.mp hmasks.1, fun f hf => ?_⟩
  exact eq_of_beq (List.all_eq_true.mp hmasks.2 f.1 (List.mem_map_of_mem hf))

theorem maps_of_window (ha : Mapped a) (hw : i.window a = true) : Maps i a := by
  rcases ha with (rfl | rfl | rfl | rfl) | (rfl | rfl | rfl | rfl) <;> cases i <;>
    first | exact absurd hw (by decide) | decide

/-- Fields of the low half leave the high half alone, and are put into the low half. -/
theorem halfWord_writeU32_patches {fs : List (UInt32 × UInt32)}
    (hlow : ∀ f ∈ fs, f.1 &&& 0xffff = f.1) (state : PCodeState .be) (a : Address) :
    halfWord (state.writeU32 a (patches fs (state.readU32 a))) a = halfWord state a ∧
      halfWord (state.writeU32 a (patches fs (state.readU32 a))) (a + 2) =
        patches fs (halfWord state (a + 2)) := by
  obtain ⟨hhigh, hnext⟩ := readU32_halves state a
  obtain ⟨hhigh', hnext'⟩ := readU32_halves
    (state.writeU32 a (patches fs (state.readU32 a))) a
  rw [PCodeState.readU32_writeU32] at hhigh' hnext'
  constructor
  · have hhalf : Contiguous 0xffff 0 16 := .of_bits (by decide) (by decide) (by decide)
    rw [hhigh', hhigh]
    refine ext_bit fun i _ => ?_
    change bit (_ >>> UInt32.ofNat 16) i = bit (_ >>> UInt32.ofNat 16) i
    rw [bit_shiftRight _ (by decide), bit_shiftRight _ (by decide), bit_patches_of_not_mem]
    intro f hf
    rw [← hlow f hf, bit_and, hhalf.bit_eq, decide_eq_false (by omega), Bool.and_false]
  · rw [hnext', hnext, patches_and_of_within hlow]

end HalfWordsLemmas

open HalfWordsLemmas

/-- What a read of a register does to its half word and to the next one. -/
theorem hookMemoryRead_halfWords {order : HashOrder} {emu : Machine} {p : CompareMatchTimer}
    {state state' : PCodeState .be} {a : Address} (hp : Registered p) (ha : Mapped a)
    (h : p.hookMemoryRead order emu state a = .ok state') :
    halfWord state' a = halfWord state a ∧
      (halfWord state' (a + 2) = halfWord state (a + 2) ↔
        ∀ f ∈ p.fieldsAt a, halfWord state (a + 2) &&& f.1 = f.2 &&& f.1) ∧
      state.ChangedOnly state' a 4 := by
  obtain ⟨hdisj, hlow⟩ := masks_fieldsAt p ha
  obtain ⟨fs, hperm, rfl⟩ := hookMemoryRead_eq_ok hp h
  obtain ⟨hhigh, hnext⟩ := halfWord_writeU32_patches
    (fun f hf => hlow f (hperm.mem_iff.mp hf)) state a
  have hdisj' : fs.Pairwise fun f g => f.1 &&& g.1 = 0 :=
    (hperm.pairwise_iff fun h => by rwa [UInt32.and_comm]).mpr hdisj
  refine ⟨hhigh, ?_, PCodeState.changedOnly_write _ _ _ _⟩
  rw [hnext, patches_eq_self_iff _ hdisj']
  exact forall_congr' fun f => by rw [hperm.mem_iff]

/-- A read of a register returns when the counters fit. -/
theorem exists_hookMemoryRead (order : HashOrder) (emu : Machine) {p : CompareMatchTimer}
    (hp : Registered p) (hfits : ∀ i, (p.timer i).getCurrentTick.toNat ≤ 0xffff)
    (state : PCodeState .be) {a : Address} (ha : Mapped a) :
    ∃ state', p.hookMemoryRead order emu state a = .ok state' := by
  have hrange : p.inRange a = true := ha.elim (inRange_of_maps hp) (inRange_of_maps hp)
  refine (hookMemoryRead_isOk_iff order emu state hp hrange).mpr fun i hw => ?_
  exact ⟨maps_of_window ha hw, fun _ => Nat.lt_of_le_of_lt (hfits i) (by decide)⟩

/-- A read of a register leaves its 16-bit word with the fields mapped there, and nothing
else changed, exactly where that word and the next one have those fields already. -/
theorem hookMemoryRead_halfWord_iff (order : HashOrder) (emu : Machine)
    {p : CompareMatchTimer} (hp : Registered p)
    (hfits : ∀ i, (p.timer i).getCurrentTick.toNat ≤ 0xffff) (state : PCodeState .be)
    {a : Address} (ha : Mapped a) :
    (∃ state', p.hookMemoryRead order emu state a = .ok state' ∧
        Composed (p.fieldsAt a) (halfWord state a) (halfWord state' a) ∧
        state.ChangedOnly state' a 2) ↔
      ∀ f ∈ p.fieldsAt a, halfWord state a &&& f.1 = f.2 &&& f.1 ∧
        halfWord state (a + 2) &&& f.1 = f.2 &&& f.1 := by
  constructor
  · rintro ⟨state', h, hcomposed, hchanged⟩ f hf
    obtain ⟨hhigh, hnext, -⟩ := hookMemoryRead_halfWords hp ha h
    have hsame : halfWord state' (a + 2) = halfWord state (a + 2) :=
      halfWord_eq_iff.mpr (PCodeState.readMemory_congr fun x hx _ => hchanged.memory x (.inr hx))
    refine ⟨?_, hnext.mp hsame f hf⟩
    rw [← hhigh]
    exact hcomposed.inside f hf
  · intro hcarried
    obtain ⟨state', h⟩ := exists_hookMemoryRead order emu hp hfits state ha
    obtain ⟨hhigh, hnext, hchanged⟩ := hookMemoryRead_halfWords hp ha h
    have hsame : halfWord state' (a + 2) = halfWord state (a + 2) :=
      hnext.mpr fun f hf => (hcarried f hf).2
    refine ⟨state', h, ?_, PCodeState.ChangedOnly.narrow hchanged (halfWord_eq_iff.mp hsame)⟩
    rw [hhigh]
    exact ⟨rfl, fun f hf => (hcarried f hf).1⟩

theorem hookMemoryRead_halfWord_iff_new :
    ∃ state', new.hookMemoryRead .insertion plainMachine ⟨fun _ _ => 0, 0⟩ 0xfffec004 =
        .ok state' ∧
      Composed (new.fieldsAt 0xfffec004) (halfWord ⟨fun _ _ => 0, 0⟩ 0xfffec004)
        (halfWord state' 0xfffec004) ∧
      PCodeState.ChangedOnly ⟨fun _ _ => 0, 0⟩ state' 0xfffec004 2 := by
  have hnew : Registered new := (reaches_sample []).registered
  refine (hookMemoryRead_halfWord_iff .insertion plainMachine hnew ?_ ⟨fun _ _ => 0, 0⟩
    (.inl (.inr (.inr (.inl rfl))))).mpr ?_
  · intro i
    cases i <;> decide
  · intro f hf
    have heq : f = (0xffff, 0) := List.mem_singleton.mp hf
    subst heq
    exact ⟨by decide, by decide⟩

/-- Once channel 0 is started, a read of CMSTR does not show its bit. -/
theorem not_halfWord_started : ¬ ∀ (order : HashOrder) (emu : Machine)
    (p : CompareMatchTimer) (state : PCodeState .be) (a : Address), Registered p →
      (∀ i, (p.timer i).getCurrentTick.toNat ≤ 0xffff) → Mapped a →
        ∃ state', p.hookMemoryRead order emu state a = .ok state' ∧
          Composed (p.fieldsAt a) (halfWord state a) (halfWord state' a) ∧
          state.ChangedOnly state' a 2 := by
  intro h
  obtain ⟨state', hread, hcomposed, -⟩ := h .insertion plainMachine
    (sample [poke addrCmstr [0, 1]]).2 ⟨fun _ _ => 0, 0⟩ addrCmstr (reaches_sample _).registered
    (fun i => by cases i <;> decide) (.inl (.inl rfl))
  cases hread
  exact absurd (hcomposed.inside (1, 1) List.mem_cons_self) (by decide)

end CompareMatchTimer

end FuguexPeripheral.SuperH
