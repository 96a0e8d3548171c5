import FuguexPeripheral.Backend.CompareMatchTimer
import FuguexPeripheral.Fallible
import FuguexPeripheral.Masks

/-!
# What a register reads

A read patches the word in memory, entry by entry, in an order that is left open. Each
entry puts its own bits under its mask, so where the masks are disjoint the word has one
value whatever the order.

Results:
1. `getMaskStartBit_run`: where a mask starts, and which masks are refused.
2. `readBits_eq`: an entry patches the bits of its `field` into the word.
3. `handleRegRead_composes`: the word of a read, exactly.
-/

namespace FuguexPeripheral.Backend

open ByteStore Fallible Masks

/-! ## The start of a mask -/

/-- The lowest run of ones of a mask has the bits from `s` on and ends before `n`. -/
structure LowestRun (mask : UInt32) (s n : Nat) : Prop where
  lt : s < n
  below : ∀ j, j < s → bit mask j = false
  ones : ∀ j, s ≤ j → j < n → bit mask j = true
  ends : bit mask n = false

theorem LowestRun.lowest {mask : UInt32} {s n : Nat} (h : LowestRun mask s n) : Lowest mask s :=
  ⟨h.ones s (Nat.le_refl s) h.lt, h.below⟩

theorem LowestRun.le {mask : UInt32} {s n : Nat} (h : LowestRun mask s n) : n ≤ 32 := by
  by_contra hn
  have hpos : n - 1 < n := Nat.sub_one_lt_of_lt h.lt
  have hbit := h.ones (n - 1) (Nat.le_sub_one_of_lt h.lt) hpos
  rw [bit_of_le mask (Nat.le_sub_one_of_lt (Nat.not_le.mp hn))] at hbit
  cases hbit

theorem exists_lowestRun {mask : UInt32} (h : mask ≠ 0) : ∃ s n, LowestRun mask s n := by
  have hone : ∃ i, bit mask i = true := by
    by_contra hnone
    refine h (ext_bit fun i _ => ?_)
    rw [bit_zero, Bool.eq_false_iff]
    exact fun hi => hnone ⟨i, hi⟩
  classical
  have hzero : ∃ d, bit mask (Nat.find hone + d) = false :=
    ⟨32, bit_of_le mask (Nat.le_add_left _ _)⟩
  have hbelow : ∀ j, j < Nat.find hone → bit mask j = false := fun j hj =>
    Bool.eq_false_iff.mpr (Nat.find_min hone hj)
  refine ⟨Nat.find hone, Nat.find hone + Nat.find hzero, ?_, hbelow, ?_, Nat.find_spec hzero⟩
  · refine Nat.lt_add_of_pos_right (Nat.pos_of_ne_zero fun h0 => ?_)
    have hs := Nat.find_spec hzero
    rw [h0, Nat.add_zero, Nat.find_spec hone] at hs
    cases hs
  · intro j hj hlt
    have hmin := Nat.find_min hzero (Nat.sub_lt_left_of_lt_add hj hlt)
    rwa [Nat.add_sub_cancel' hj, Bool.not_eq_false] at hmin

namespace CompareMatchTimer

namespace RegisterReadLemmas

/-- Nothing is found in bits that are not set. -/
theorem scanMask_unset {mask : UInt32} {bits : List Nat} (rest : List Nat)
    (h : ∀ i ∈ bits, i < 32 ∧ bit mask i = false) :
    scanMask mask (bits ++ rest) (-1, -1) = scanMask mask rest (-1, -1) := by
  induction bits with
  | nil => rfl
  | cons i bits ih =>
    obtain ⟨hi, hbit⟩ := h i List.mem_cons_self
    rw [List.cons_append, scanMask]
    simp only [and_one_shift_ne_zero mask hi, hbit]
    simpa using ih fun j hj => h j (List.mem_cons_of_mem i hj)

/-- A run goes on as long as its bits are set. -/
theorem scanMask_set {mask : UInt32} {bits : List Nat} {start : Int} (last : Int)
    (rest : List Nat) (hstart : start ≠ -1) (h : ∀ i ∈ bits, i < 32 ∧ bit mask i = true) :
    scanMask mask (bits ++ rest) (start, last) = scanMask mask rest (start, last) := by
  induction bits with
  | nil => rfl
  | cons i bits ih =>
    obtain ⟨hi, hbit⟩ := h i List.mem_cons_self
    rw [List.cons_append, scanMask]
    simp only [and_one_shift_ne_zero mask hi, hbit, hstart]
    simpa using ih fun j hj => h j (List.mem_cons_of_mem i hj)

theorem scanMask_first {mask : UInt32} {i : Nat} (last : Int) (rest : List Nat) (hi : i < 32)
    (h : bit mask i = true) :
    scanMask mask (i :: rest) (-1, last) = scanMask mask rest (i, last) := by
  rw [scanMask]
  simp only [and_one_shift_ne_zero mask hi, h]
  simp

theorem scanMask_end {mask : UInt32} {i : Nat} {start : Int} (last : Int) (rest : List Nat)
    (hi : i < 32) (hstart : start ≠ -1) (h : bit mask i = false) :
    scanMask mask (i :: rest) (start, last) = (start, if i = 31 then 31 else (i : Int) - 1) := by
  rw [scanMask]
  simp only [and_one_shift_ne_zero mask hi, h]
  simp [hstart]

end RegisterReadLemmas

open RegisterReadLemmas

namespace RegisterReadLemmas

/-- The bits before a run, its first bit, the rest of it and what comes after. -/
theorem range_split {s k r : Nat} (h : 32 = s + (k + r + 1)) :
    List.range 32 = List.range' 0 s ++
      (s :: (List.range' (s + 1) k ++ List.range' (s + 1 + k) r)) := by
  rw [List.range_eq_range', h, ← List.range'_append_1, List.range'_succ, ← List.range'_append_1,
    Nat.zero_add]

/-- The scan gets to the end of the lowest run with its first bit. -/
theorem scanMask_run {mask : UInt32} {s n : Nat} (h : LowestRun mask s n) :
    scanMask mask (List.range 32) (-1, -1) =
      scanMask mask (List.range' n (32 - n)) ((s : Int), -1) := by
  have hn := h.le
  obtain ⟨k, rfl⟩ := Nat.exists_eq_add_of_le h.lt
  have hlen : 32 = s + (k + (32 - (s + 1 + k)) + 1) := by omega
  rw [range_split hlen, scanMask_unset, scanMask_first _ _ h.lowest.lt h.lowest.1, scanMask_set]
  · exact Int.ne_of_gt (Int.lt_of_lt_of_le (by decide) (Int.natCast_nonneg s))
  · intro i hi
    obtain ⟨hle, hlt⟩ := List.mem_range'_1.mp hi
    exact ⟨Nat.lt_of_lt_of_le hlt hn, h.ones i (Nat.le_of_succ_le hle) hlt⟩
  · intro i hi
    have hlt : i < s := Nat.zero_add s ▸ (List.mem_range'_1.mp hi).2
    exact ⟨Nat.lt_trans hlt h.lowest.lt, h.below i hlt⟩

end RegisterReadLemmas

/-- The start of the lowest run is found, unless the run is bit 0 alone or reaches the top
bit. -/
theorem getMaskStartBit_run {mask : UInt32} {s n : Nat} (h : LowestRun mask s n) :
    getMaskStartBit mask =
      if n < 32 ∧ n ≠ 1 then some (s, if n = 31 then 31 else n - 1) else none := by
  have hn := h.le
  unfold getMaskStartBit
  rw [scanMask_run h]
  by_cases hlt : n < 32
  · rw [show 32 - n = (32 - (n + 1)) + 1 by omega, List.range'_succ,
      scanMask_end _ _ hlt (by omega) h.ends]
    by_cases h31 : n = 31
    · simp [h31]
    · by_cases h1 : n = 1
      · simp [h1]
      · have hpos : (0 : Int) < (n : Int) - 1 := by
          have := h.lt
          omega
        have hcast : ((n : Int) - 1).toNat = n - 1 := by omega
        simp [h31, h1, hlt, hcast]
        omega
  · rw [show 32 - n = 0 by omega]
    simp [scanMask, hlt]

theorem lowest_of_getMaskStartBit {mask : UInt32} {s e : Nat}
    (h : getMaskStartBit mask = some (s, e)) : Lowest mask s := by
  have hne : mask ≠ 0 := by
    rintro rfl
    have hnone : getMaskStartBit 0 = none := by decide
    rw [hnone] at h
    cases h
  obtain ⟨s', n, hrun⟩ := exists_lowestRun hne
  rw [getMaskStartBit_run hrun] at h
  split at h
  · cases h
    exact hrun.lowest
  · cases h

/-! ## What an entry shows -/

/-- The flag that a function reads. -/
def flag (t : CompareMatchTimer) : FunName → Option Bool
  | .isEnabled => some t.isEnabled
  | .isInterruptEnabled => some t.isInterruptEnabled
  | .isMatched => some t.isMatched
  | .getCountForwardFlag => some t.getCountForwardFlag
  | .getFlagOverflow => some t.getFlagOverflow
  | .getFlagUnderflow => some t.getFlagUnderflow
  | .getFlagOverunderflow => some t.getFlagOverunderflow
  | .getMatchToggle => some t.getMatchToggle
  | _ => none

/-- The count that a function reads. -/
def count (t : CompareMatchTimer) : FunName → Option (BitVec 128)
  | .getCompareAgainst => some t.getCompareAgainst
  | .getCurrentTick => some t.getCurrentTick
  | _ => none

/-- The bits of a count, moved to the start of the mask. -/
def countBits (mask : UInt32) (count : BitVec 128) : Except TimerPanic UInt32 := do
  let setVal ← tickToU32 count
  match getMaskStartBit mask with
  | some (s, _) => .ok (setVal <<< UInt32.ofNat s)
  | none => .error (.maskError mask)

/-- The bits that an entry puts under its mask. -/
def field (t : CompareMatchTimer) (entry : UInt32 × FunName) : Except TimerPanic UInt32 :=
  match t.flag entry.2, t.count entry.2 with
  | some set, _ => .ok (if set then entry.1 else 0)
  | none, some count => countBits entry.1 count
  | none, none => .error (.notSupported entry.2)

namespace RegisterReadLemmas

variable {t : CompareMatchTimer} {entry : UInt32 × FunName}

theorem setBitsBool_eq_patch (val mask : UInt32) (set : Bool) :
    setBitsBool val mask set = patch mask (if set then mask else 0) val := by
  refine ext_bit fun i hi => ?_
  rw [bit_patch]
  cases set with
  | false => cases hm : bit mask i <;> simp [setBitsBool, bit_not mask hi, hm]
  | true => cases hm : bit mask i <;> simp [setBitsBool, hm]

theorem setBitsVal_eq_patch (val mask : UInt32) (count : BitVec 128) :
    (do setBitsVal val mask (← tickToU32 count)) =
      (countBits mask count).map fun bits => patch mask bits val := by
  unfold countBits setBitsVal
  cases tickToU32 count with
  | error e => rfl
  | ok setVal =>
    change (match getMaskStartBit mask with | some (s, _) => _ | none => _) = Except.map _
      (match getMaskStartBit mask with | some (s, _) => _ | none => _)
    cases getMaskStartBit mask <;> rfl

theorem field_of_flag {set : Bool} (h : t.flag entry.2 = some set) :
    t.field entry = .ok (if set then entry.1 else 0) := by
  rw [field, h]

theorem field_of_count {count : BitVec 128} (h : t.count entry.2 = some count) :
    t.field entry = countBits entry.1 count := by
  obtain ⟨mask, funName⟩ := entry
  cases funName with
  | getCompareAgainst | getCurrentTick =>
    cases h
    rfl
  | _ => cases h

theorem countBits_eq_ok {mask bits : UInt32} {count : BitVec 128}
    (h : countBits mask count = .ok bits) :
    ∃ s, Lowest mask s ∧ bits = UInt32.ofNat count.toNat <<< UInt32.ofNat s := by
  obtain ⟨setVal, hval, h⟩ := exists_of_bind_eq_ok h
  unfold tickToU32 at hval
  split at hval
  next =>
    cases hval
    split at h
    next s e hstart =>
      cases h
      exact ⟨s, lowest_of_getMaskStartBit hstart, rfl⟩
    next => cases h
  next => cases hval

end RegisterReadLemmas

/-- An entry patches the bits of its field into the word. -/
theorem readBits_eq (t : CompareMatchTimer) (val : UInt32) (entry : UInt32 × FunName) :
    t.readBits val entry = (t.field entry).map fun bits => patch entry.1 bits val := by
  obtain ⟨mask, funName⟩ := entry
  cases funName with
  | getCompareAgainst => exact setBitsVal_eq_patch val mask t.getCompareAgainst
  | getCurrentTick => exact setBitsVal_eq_patch val mask t.getCurrentTick
  | isEnabled | isInterruptEnabled | isMatched | getCountForwardFlag | getFlagUnderflow
  | getFlagOverflow | getFlagOverunderflow | getMatchToggle =>
    exact congrArg Except.ok (setBitsBool_eq_patch val mask _)
  | setEnable | setInterruptEnabled | setCompareAgainst | clearMatchedFlag | setCurrentTick
  | setCountForward | setFlagOverunderflow | setMatchToggle => rfl

/-! ## A whole register -/

/-- A read of the entry does not panic. -/
def Readable (t : CompareMatchTimer) (entry : UInt32 × FunName) : Prop :=
  ∃ bits, t.field entry = .ok bits

/-- The bits that a readable entry puts under its mask. -/
def fieldBits (t : CompareMatchTimer) (entry : UInt32 × FunName) : UInt32 :=
  match t.field entry with
  | .ok bits => bits
  | .error _ => 0

/-- The masks of a register with the bits to put under them. -/
def fields (t : CompareMatchTimer) (m : MaskMap) : List (UInt32 × UInt32) :=
  m.map fun entry => (entry.1, t.fieldBits entry)

theorem Readable.field_eq {t : CompareMatchTimer} {entry : UInt32 × FunName}
    (h : t.Readable entry) : t.field entry = .ok (t.fieldBits entry) := by
  obtain ⟨bits, hbits⟩ := h
  rw [fieldBits, hbits]

namespace RegisterReadLemmas

variable {t : CompareMatchTimer}

/-- All bits of a flag are set, or none is. -/
theorem fieldBits_of_flag {entry : UInt32 × FunName} {set : Bool}
    (h : t.flag entry.2 = some set) : t.fieldBits entry = if set then entry.1 else 0 := by
  rw [fieldBits, field_of_flag h]

/-- A count that can be read begins at the lowest bit of its mask. -/
theorem fieldBits_of_count {entry : UInt32 × FunName} {count : BitVec 128} {s : Nat}
    (hread : t.Readable entry) (hcount : t.count entry.2 = some count)
    (hlow : Lowest entry.1 s) :
    t.fieldBits entry = UInt32.ofNat count.toNat <<< UInt32.ofNat s := by
  have hbits := hread.field_eq
  rw [field_of_count hcount] at hbits
  obtain ⟨s', hlow', hs'⟩ := countBits_eq_ok hbits
  rw [hs', hlow.unique hlow']

/-- An entry that can be read is a flag, or a count under a mask that has a lowest bit. -/
theorem Readable.cases {entry : UInt32 × FunName} (h : t.Readable entry) :
    (∃ set, t.flag entry.2 = some set) ∨
      ∃ count s, t.count entry.2 = some count ∧ Lowest entry.1 s := by
  have hbits := h.field_eq
  cases hflag : t.flag entry.2 with
  | some set => exact .inl ⟨set, rfl⟩
  | none =>
    cases hcount : t.count entry.2 with
    | some count =>
      rw [field_of_count hcount] at hbits
      obtain ⟨s, hlow, -⟩ := countBits_eq_ok hbits
      exact .inr ⟨count, s, rfl, hlow⟩
    | none =>
      rw [field, hflag, hcount] at hbits
      cases hbits

theorem readBits_isOk_iff (entry : UInt32 × FunName) (val : UInt32) :
    (∃ W, t.readBits val entry = .ok W) ↔ t.Readable entry := by
  rw [readBits_eq, map_isOk_iff, Readable]

theorem foldlM_readBits (l : MaskMap) (x : UInt32) (h : ∀ entry ∈ l, t.Readable entry) :
    l.foldlM t.readBits x = .ok (patches (t.fields l) x) := by
  have hround : ∀ entry ∈ l, ∀ x,
      t.readBits x entry = .ok (patch entry.1 (t.fieldBits entry) x) := by
    intro entry hentry x
    rw [readBits_eq, (h entry hentry).field_eq]
    rfl
  rw [foldlM_eq_ok x hround, patches, fields, List.foldl_map]

theorem pairwise_fields {m l : MaskMap} (hperm : l.Perm m)
    (hdisj : m.Pairwise fun e f => e.1 &&& f.1 = 0) :
    (t.fields l).Pairwise fun e f => e.1 &&& f.1 = 0 := by
  rw [fields, List.pairwise_map]
  refine (hperm.pairwise_iff ?_).mpr hdisj
  intro e f h
  rwa [UInt32.and_comm]

end RegisterReadLemmas

/-- A read returns when every entry of the map is readable, with the fields of all of them
put into the word in memory. -/
theorem handleRegRead_eq_ok_iff {O : Order} {t : CompareMatchTimer} {addr : Address} {m : MaskMap}
    (hm : t.regReadMap addr = some m) (order : HashOrder) (state : PCodeState O)
    (r : UInt32 × PCodeState O) :
    t.handleRegRead order state addr = .ok r ↔
      (∀ entry ∈ m, t.Readable entry) ∧
        r.1 = patches (t.fields (order.arrange addr m)) (state.readU32 addr) ∧
        r.2 = state.writeU32 addr r.1 := by
  have hmem : ∀ entry, entry ∈ order.arrange addr m ↔ entry ∈ m := fun entry =>
    (order.perm addr m).mem_iff
  rw [handleRegRead, hm]
  dsimp only
  constructor
  · intro h
    obtain ⟨W, hW, h⟩ := exists_of_bind_eq_ok h
    have hread := (foldlM_isOk_iff _ readBits_isOk_iff).mp ⟨W, hW⟩
    rw [foldlM_readBits _ _ hread] at hW
    cases hW
    cases h
    exact ⟨fun entry hentry => hread entry ((hmem entry).mpr hentry), rfl, rfl⟩
  · rintro ⟨hread, hval, hstate⟩
    rw [foldlM_readBits _ _ fun entry hentry => hread entry ((hmem entry).mp hentry)]
    obtain ⟨W, state'⟩ := r
    dsimp only at hval hstate
    subst hstate
    subst hval
    rfl

theorem handleRegRead_isOk_iff {O : Order} {t : CompareMatchTimer} {addr : Address} {m : MaskMap}
    (hm : t.regReadMap addr = some m) (order : HashOrder) (state : PCodeState O) :
    (∃ r, t.handleRegRead order state addr = .ok r) ↔ ∀ entry ∈ m, t.Readable entry := by
  constructor
  · rintro ⟨r, hr⟩
    exact ((handleRegRead_eq_ok_iff hm order state r).mp hr).1
  · intro h
    let W := patches (t.fields (order.arrange addr m)) (state.readU32 addr)
    exact ⟨(W, state.writeU32 addr W),
      (handleRegRead_eq_ok_iff hm order state _).mpr ⟨h, rfl, rfl⟩⟩

/-- What a read of a register with the map `m` makes of the word `old` in memory. -/
structure Shows (t : CompareMatchTimer) (m : MaskMap) (old W : UInt32) : Prop where
  outside : W &&& ~~~union (m.map Prod.fst) = old &&& ~~~union (m.map Prod.fst)
  flags : ∀ entry ∈ m, ∀ set, t.flag entry.2 = some set →
    W &&& entry.1 = if set then entry.1 else 0
  counts : ∀ entry ∈ m, ∀ count, t.count entry.2 = some count → ∀ s, Lowest entry.1 s →
    W &&& entry.1 = (UInt32.ofNat count.toNat <<< UInt32.ofNat s) &&& entry.1

namespace RegisterReadLemmas

/-- The entries of a readable register show their fields. -/
theorem shows_iff_composed {t : CompareMatchTimer} {m : MaskMap}
    (h : ∀ entry ∈ m, t.Readable entry) (old W : UInt32) :
    t.Shows m old W ↔ Composed (t.fields m) old W := by
  have hmasks : (t.fields m).map Prod.fst = m.map Prod.fst := by
    rw [fields, List.map_map]
    rfl
  have hflag : ∀ (mask : UInt32) (set : Bool),
      (if set then mask else 0) &&& mask = if set then mask else 0 := fun mask set => by
    cases set <;> simp
  constructor
  · intro hs
    refine ⟨by rw [hmasks, hs.outside], fun f hf => ?_⟩
    obtain ⟨entry, hentry, rfl⟩ := List.mem_map.mp hf
    rcases Readable.cases (h entry hentry) with ⟨set, hset⟩ | ⟨count, s, hcount, hlow⟩
    · rw [hs.flags entry hentry set hset, fieldBits_of_flag hset, hflag]
    · rw [hs.counts entry hentry count hcount s hlow,
        fieldBits_of_count (h entry hentry) hcount hlow]
  · intro hc
    have hinside : ∀ entry ∈ m, W &&& entry.1 = t.fieldBits entry &&& entry.1 := fun entry he =>
      hc.inside (entry.1, t.fieldBits entry) (List.mem_map.mpr ⟨entry, he, rfl⟩)
    refine ⟨by rw [← hmasks, hc.outside], ?_, ?_⟩
    · intro entry hentry set hset
      rw [hinside entry hentry, fieldBits_of_flag hset, hflag]
    · intro entry hentry count hcount s hlow
      rw [hinside entry hentry, fieldBits_of_count (h entry hentry) hcount hlow]

/-- The fields compose the word that a read shows, in any order. -/
theorem composed_fields {m : MaskMap} (t : CompareMatchTimer)
    (hdisj : m.Pairwise fun e f => e.1 &&& f.1 = 0) (order : HashOrder) (addr : Address)
    (x : UInt32) : Composed (t.fields m) x (patches (t.fields (order.arrange addr m)) x) :=
  (composed_patches x (pairwise_fields (order.perm addr m) hdisj)).perm
    ((order.perm addr m).map _)

end RegisterReadLemmas

/-- A read of a register with disjoint masks that can be read. -/
theorem handleRegRead_composed {O : Order} {t : CompareMatchTimer} {addr : Address} {m : MaskMap}
    (hm : t.regReadMap addr = some m) (hdisj : m.Pairwise fun e f => e.1 &&& f.1 = 0)
    (hread : ∀ entry ∈ m, t.Readable entry) (order : HashOrder) (state : PCodeState O) :
    ∃ W, t.handleRegRead order state addr = .ok (W, state.writeU32 addr W) ∧
      Composed (t.fields m) (state.readU32 addr) W :=
  ⟨_, (handleRegRead_eq_ok_iff hm order state _).mpr ⟨hread, rfl, rfl⟩,
    composed_fields t hdisj order addr _⟩

/-- A read of a register with disjoint masks, in any order. Whether it returns does not
depend on the order. The word is the only one that shows every entry and is as memory was
elsewhere, it is left in memory and nowhere else, and the next read returns it again. -/
theorem handleRegRead_composes {O : Order} (t : CompareMatchTimer) (state : PCodeState O)
    (addr : Address) {m : MaskMap} (hm : t.regReadMap addr = some m)
    (hdisj : m.Pairwise fun e f => e.1 &&& f.1 = 0) (order order' : HashOrder) :
    ((∃ r, t.handleRegRead order state addr = .ok r) ↔
      ∃ r, t.handleRegRead order' state addr = .ok r) ∧
    ∀ W state', t.handleRegRead order state addr = .ok (W, state') →
      (t.Shows m (state.readU32 addr) W ∧
        ∀ W', t.Shows m (state.readU32 addr) W' → W' = W) ∧
      state'.readU32 addr = W ∧
      state.ChangedOnly state' addr 4 ∧
      t.handleRegRead order' state' addr = .ok (W, state') := by
  constructor
  · rw [handleRegRead_isOk_iff hm order, handleRegRead_isOk_iff hm order']
  · intro W state' h
    obtain ⟨hread, hW, hstate⟩ := (handleRegRead_eq_ok_iff hm order state _).mp h
    dsimp only at hW hstate
    have hcomposed : Composed (t.fields m) (state.readU32 addr) W := by
      rw [hW]
      exact composed_fields t hdisj order addr _
    have hback : state'.readU32 addr = W := by rw [hstate, PCodeState.readU32_writeU32]
    have hsame : state'.writeU32 addr W = state' := by
      rw [hstate]
      exact PCodeState.writeU32_writeU32 _ _ _ _
    refine ⟨⟨(shows_iff_composed hread _ W).mpr hcomposed, fun W' h' => ?_⟩, hback, ?_, ?_⟩
    · exact hcomposed.unique ((shows_iff_composed hread _ W').mp h')
    · rw [hstate]
      exact PCodeState.changedOnly_write _ _ _ _
    · refine (handleRegRead_eq_ok_iff hm order' state' _).mpr ⟨hread, ?_, hsame.symm⟩
      rw [hback]
      exact (composed_fields t hdisj order' addr W).unique hcomposed.again

/-- A timer at 5 whose interrupt is enabled, with both in one register: the enable bit in
bit 6 and the count in the second byte. -/
def shared : CompareMatchTimer :=
  { (default : CompareMatchTimer) with
    currentTick := 5
    interruptEnabled := true
    regReadMap := fun _ => some [(0x40, .isInterruptEnabled), (0xff00, .getCurrentTick)] }

theorem handleRegRead_composes_shared :
    ((∃ r, shared.handleRegRead .insertion (⟨fun _ _ => 1, 0⟩ : PCodeState .le) 0 = .ok r) ↔
      ∃ r, shared.handleRegRead .reversed (⟨fun _ _ => 1, 0⟩ : PCodeState .le) 0 = .ok r) ∧
    shared.Shows [(0x40, .isInterruptEnabled), (0xff00, .getCurrentTick)] 0x01010101
      0x01010541 := by
  have h := handleRegRead_composes shared (⟨fun _ _ => 1, 0⟩ : PCodeState .le) 0
    (m := [(0x40, .isInterruptEnabled), (0xff00, .getCurrentTick)]) rfl (by decide)
    .insertion .reversed
  exact ⟨h.1, (h.2 0x01010541 _ rfl).1.1⟩

end CompareMatchTimer

end FuguexPeripheral.Backend
