import Mathlib.Data.BitVec

/-!
# Bit fields of a word

A mask names some bits of a word. `patch` puts bits under a mask, and a list of patches
with disjoint masks composes a word from its fields, in any order.

Results:
1. `ext_bit`, `bit_patch`: words bit by bit.
2. `bit_shiftLeft`, `bit_shiftRight`, `Lowest.shiftLeft_shiftRight`: shifted words and the
   fields that start at the lowest bit of a mask.
3. `composed_patches`, `Composed.unique`: the composed word is the one word that agrees
   with each field under its mask and with the old word elsewhere.
4. `and_not_eq_zero_iff`, `toNat_and_low`: a word without bits outside a mask, and the lowest
   bits of a word.
-/

namespace Masks

/-- Bit `i` of a word. -/
def bit (x : UInt32) (i : Nat) : Bool :=
  x.toBitVec.getLsbD i

theorem bit_eq_testBit (x : UInt32) (i : Nat) : bit x i = x.toNat.testBit i :=
  rfl

theorem bit_of_le (x : UInt32) {i : Nat} (h : 32 ≤ i) : bit x i = false :=
  BitVec.getLsbD_of_ge _ _ h

@[simp] theorem bit_zero (i : Nat) : bit 0 i = false :=
  BitVec.getLsbD_zero

@[simp] theorem bit_and (x y : UInt32) (i : Nat) : bit (x &&& y) i = (bit x i && bit y i) := by
  simp [bit]

@[simp] theorem bit_or (x y : UInt32) (i : Nat) : bit (x ||| y) i = (bit x i || bit y i) := by
  simp [bit]

theorem bit_not (x : UInt32) {i : Nat} (h : i < 32) : bit (~~~x) i = !bit x i := by
  simp [bit, h]

theorem ext_bit {x y : UInt32} (h : ∀ i, i < 32 → bit x i = bit y i) : x = y := by
  apply UInt32.toBitVec_inj.mp
  exact BitVec.eq_of_getLsbD_eq h

theorem and_not_eq_zero_iff (x y : UInt32) : x &&& ~~~y = 0 ↔ x &&& y = x := by
  constructor
  · intro h
    refine ext_bit fun i hi => ?_
    have hbit := congrArg (bit · i) h
    simp [bit_not y hi] at hbit
    cases hx : bit x i <;> simp_all
  · intro h
    rw [← h]
    refine ext_bit fun i hi => ?_
    simp [bit_not y hi]

/-- Two words agree under a mask when they do at its bits. -/
theorem and_eq_and_iff {x y mask : UInt32} :
    x &&& mask = y &&& mask ↔ ∀ i, bit mask i = true → bit x i = bit y i := by
  constructor
  · intro h i hi
    simpa [hi] using congrArg (bit · i) h
  · intro h
    refine ext_bit fun i _ => ?_
    cases hi : bit mask i with
    | false => simp [hi]
    | true => simp [hi, h i hi]

/-- Under the mask of the lowest bits a word is its remainder. -/
theorem toNat_and_low (x : UInt32) {mask : UInt32} {k : Nat} (h : mask.toNat = 2 ^ k - 1) :
    (x &&& mask).toNat = x.toNat % 2 ^ k := by
  rw [UInt32.toNat_and, h, Nat.and_two_pow_sub_one_eq_mod]

/-! ## Shifts -/

theorem bit_shiftLeft (x : UInt32) {s : Nat} (hs : s < 32) {i : Nat} (hi : i < 32) :
    bit (x <<< UInt32.ofNat s) i = (decide (s ≤ i) && bit x (i - s)) := by
  have hle : (s ≤ i) = ¬ i < s := by simp
  simp only [hle, decide_not]
  simp [bit, UInt32.toBitVec_shiftLeft, Nat.mod_eq_of_lt hs, hi]
  rfl

theorem bit_shiftRight (x : UInt32) {s : Nat} (hs : s < 32) (i : Nat) :
    bit (x >>> UInt32.ofNat s) i = bit x (s + i) := by
  simp [bit, UInt32.toBitVec_shiftRight, Nat.mod_eq_of_lt hs]

theorem bit_one (i : Nat) : bit 1 i = decide (i = 0) := by
  simp [bit]

/-- The test of a single bit. -/
theorem and_one_shift_ne_zero (x : UInt32) {i : Nat} (hi : i < 32) :
    (x &&& (1 <<< UInt32.ofNat i) != 0) = bit x i := by
  cases hb : bit x i with
  | true =>
    rw [bne_iff_ne]
    intro h
    have hbit := congrArg (bit · i) h
    simp [bit_shiftLeft 1 hi hi, bit_one, hb] at hbit
  | false =>
    have h : x &&& (1 <<< UInt32.ofNat i) = 0 := by
      refine ext_bit fun j hj => ?_
      rw [bit_and, bit_shiftLeft 1 hi hj, bit_one, bit_zero]
      by_cases hij : j = i
      · simp [hij, hb]
      · have hne : ¬ (i ≤ j ∧ j - i = 0) := by omega
        rw [← Bool.decide_and, decide_eq_false hne, Bool.and_false]
    simp [h]

/-- The lowest bit of a mask. -/
def Lowest (mask : UInt32) (s : Nat) : Prop :=
  bit mask s = true ∧ ∀ j, j < s → bit mask j = false

/-- The mask has the bits from `s` on that come before `n`. -/
structure Contiguous (mask : UInt32) (s n : Nat) : Prop where
  lt : s < n
  le : n ≤ 32
  bit_eq : ∀ i, bit mask i = decide (s ≤ i ∧ i < n)

theorem Contiguous.of_bits {mask : UInt32} {s n : Nat} (hlt : s < n) (hle : n ≤ 32)
    (h : ∀ i, i < 32 → bit mask i = decide (s ≤ i ∧ i < n)) : Contiguous mask s n := by
  refine ⟨hlt, hle, fun i => ?_⟩
  by_cases hi : i < 32
  · exact h i hi
  · rw [bit_of_le _ (Nat.not_lt.mp hi)]
    exact (decide_eq_false fun hn => hi (Nat.lt_of_lt_of_le hn.2 hle)).symm

theorem Contiguous.lowest {mask : UInt32} {s n : Nat} (h : Contiguous mask s n) :
    Lowest mask s := by
  refine ⟨?_, fun j hj => ?_⟩
  · rw [h.bit_eq]
    exact decide_eq_true ⟨Nat.le_refl s, h.lt⟩
  · rw [h.bit_eq]
    exact decide_eq_false fun hle => Nat.not_le_of_lt hj hle.1

theorem Lowest.lt {mask : UInt32} {s : Nat} (h : Lowest mask s) : s < 32 := by
  by_contra hs
  have hbit := h.1
  rw [bit_of_le mask (Nat.not_lt.mp hs)] at hbit
  cases hbit

theorem Lowest.unique {mask : UInt32} {s s' : Nat} (h : Lowest mask s) (h' : Lowest mask s') :
    s = s' := by
  rcases Nat.lt_trichotomy s s' with hlt | heq | hgt
  · have hbit := h'.2 s hlt
    rw [h.1] at hbit
    cases hbit
  · exact heq
  · have hbit := h.2 s' hgt
    rw [h'.1] at hbit
    cases hbit

/-- Masked bits are not lost when they are moved to bit 0 and back. -/
theorem Lowest.shiftLeft_shiftRight {mask : UInt32} {s : Nat} (h : Lowest mask s) (x : UInt32) :
    ((x &&& mask) >>> UInt32.ofNat s) <<< UInt32.ofNat s = x &&& mask := by
  refine ext_bit fun i hi => ?_
  rw [bit_shiftLeft _ h.lt hi, bit_shiftRight _ h.lt]
  by_cases hs : s ≤ i
  · rw [Nat.add_sub_cancel' hs, decide_eq_true hs, Bool.true_and]
  · rw [decide_eq_false hs, Bool.false_and, bit_and, h.2 i (Nat.not_le.mp hs), Bool.and_false]

theorem Lowest.shiftRight_eq_zero_iff {mask : UInt32} {s : Nat} (h : Lowest mask s)
    (x : UInt32) : (x &&& mask) >>> UInt32.ofNat s = 0 ↔ x &&& mask = 0 := by
  constructor
  · intro h0
    rw [← h.shiftLeft_shiftRight x, h0, UInt32.zero_shiftLeft]
  · intro h0
    rw [h0, UInt32.zero_shiftRight]

/-- A word other than zero is its own field only in a field at bit 0 that holds all of it. -/
theorem Lowest.shiftRight_eq_self_iff {mask : UInt32} {s : Nat} (h : Lowest mask s) {x : UInt32}
    (hx : x ≠ 0) : (x &&& mask) >>> UInt32.ofNat s = x ↔ s = 0 ∧ x &&& mask = x := by
  constructor
  · intro hself
    have hs : s = 0 := by
      by_contra hs
      have hnat := congrArg UInt32.toNat hself
      have hpos : 0 < x.toNat := Nat.pos_of_ne_zero fun h0 => hx (UInt32.toNat.inj h0)
      have hle : x.toNat &&& mask.toNat ≤ x.toNat := Nat.and_le_left
      have hlt : (x.toNat &&& mask.toNat) / 2 ^ s < x.toNat :=
        calc (x.toNat &&& mask.toNat) / 2 ^ s ≤ x.toNat / 2 ^ s := Nat.div_le_div_right hle
          _ < x.toNat := Nat.div_lt_self hpos (Nat.one_lt_two_pow hs)
      rw [UInt32.toNat_shiftRight, UInt32.toNat_and, UInt32.toNat_ofNat',
        Nat.mod_eq_of_lt (Nat.lt_trans h.lt (by decide)), Nat.mod_eq_of_lt h.lt,
        Nat.shiftRight_eq_div_pow] at hnat
      exact absurd hnat (Nat.ne_of_lt hlt)
    subst hs
    exact ⟨rfl, by simpa using hself⟩
  · rintro ⟨rfl, hself⟩
    simpa using hself

/-! ## Patches -/

/-- The word `x` with the bits of `bits` under the mask. -/
def patch (mask bits x : UInt32) : UInt32 :=
  (x &&& ~~~mask) ||| (bits &&& mask)

theorem bit_patch (mask bits x : UInt32) (i : Nat) :
    bit (patch mask bits x) i = if bit mask i then bit bits i else bit x i := by
  by_cases hi : i < 32
  · cases hm : bit mask i <;> simp [patch, bit_not mask hi, hm]
  · simp [bit_of_le _ (Nat.not_lt.mp hi)]

/-- The word `x` with several fields put in, each a mask and its bits. -/
def patches (fields : List (UInt32 × UInt32)) (x : UInt32) : UInt32 :=
  fields.foldl (fun x field => patch field.1 field.2 x) x

/-- All bits of some masks. -/
def union (masks : List UInt32) : UInt32 :=
  masks.foldr (· ||| ·) 0

theorem bit_union (masks : List UInt32) (i : Nat) :
    bit (union masks) i = masks.any (bit · i) := by
  induction masks with
  | nil => exact bit_zero i
  | cons mask masks ih => rw [List.any_cons, ← ih, ← bit_or]; rfl

/-- The bits at a position that no mask has stay as they are. -/
theorem bit_patches_of_not_mem {fields : List (UInt32 × UInt32)} {i : Nat} (x : UInt32)
    (h : ∀ field ∈ fields, bit field.1 i = false) : bit (patches fields x) i = bit x i := by
  induction fields generalizing x with
  | nil => rfl
  | cons field fields ih =>
    have htail := ih (patch field.1 field.2 x) fun f hf => h f (List.mem_cons_of_mem _ hf)
    rw [patches, List.foldl_cons]
    rw [patches] at htail
    rw [htail, bit_patch, h field List.mem_cons_self]
    rfl

/-- Words that agree at a position still do after the same patches. -/
theorem bit_patches_congr {x y : UInt32} (fields : List (UInt32 × UInt32)) {i : Nat}
    (h : bit x i = bit y i) : bit (patches fields x) i = bit (patches fields y) i := by
  induction fields generalizing x y with
  | nil => exact h
  | cons field fields ih =>
    refine ih ?_
    rw [bit_patch, bit_patch, h]

theorem patches_append (fields fields' : List (UInt32 × UInt32)) (x : UInt32) :
    patches (fields ++ fields') x = patches fields' (patches fields x) :=
  List.foldl_append

/-- Fields within a part of the word are put into that part. -/
theorem patches_and_of_within {fields : List (UInt32 × UInt32)} {part : UInt32}
    (h : ∀ field ∈ fields, field.1 &&& part = field.1) (x : UInt32) :
    patches fields x &&& part = patches fields (x &&& part) := by
  refine ext_bit fun i _ => ?_
  rw [bit_and]
  cases hi : bit part i with
  | true =>
    rw [Bool.and_true]
    exact bit_patches_congr fields (by rw [bit_and, hi, Bool.and_true])
  | false =>
    rw [Bool.and_false, bit_patches_of_not_mem, bit_and, hi, Bool.and_false]
    intro field hf
    rw [← h field hf, bit_and, hi, Bool.and_false]

/-- A bit that some field has, and that is the same in all that have it. -/
theorem bit_patches_eq {fields : List (UInt32 × UInt32)} {i : Nat} {b : Bool} {x : UInt32}
    (hall : ∀ field ∈ fields, bit field.1 i = true → bit field.2 i = b)
    (hsome : bit x i = b ∨ ∃ field ∈ fields, bit field.1 i = true) :
    bit (patches fields x) i = b := by
  induction fields generalizing x with
  | nil =>
    rcases hsome with hx | ⟨_, hmem, _⟩
    · exact hx
    · exact absurd hmem List.not_mem_nil
  | cons field fields ih =>
    refine ih (fun f hf => hall f (List.mem_cons_of_mem _ hf)) ?_
    rw [bit_patch]
    cases hi : bit field.1 i with
    | true => exact .inl (hall field List.mem_cons_self hi)
    | false =>
      rw [if_neg Bool.false_ne_true]
      rcases hsome with hx | ⟨f, hf, hfi⟩
      · exact .inl hx
      · cases hf with
        | head => exact absurd hfi (by rw [hi]; exact Bool.false_ne_true)
        | tail _ hf => exact .inr ⟨f, hf, hfi⟩

/-- Under the mask of a field, a word has what the later fields make of the field's bits. -/
theorem patches_append_and {mask bits y : UInt32} (before after : List (UInt32 × UInt32))
    (x : UInt32) (h : bits &&& mask = y &&& mask) :
    patches (before ++ (mask, bits) :: after) x &&& mask = patches after y &&& mask := by
  have hpatches : patches (before ++ (mask, bits) :: after) x =
      patches after (patch mask bits (patches before x)) := by
    simp [patches]
  rw [hpatches]
  refine and_eq_and_iff.mpr fun i hi => bit_patches_congr after ?_
  rw [bit_patch, if_pos hi]
  exact and_eq_and_iff.mp h i hi

/-! ## Composed words -/

/-- `new` has the bits of each field under its mask, and the bits of `old` elsewhere. -/
structure Composed (fields : List (UInt32 × UInt32)) (old new : UInt32) : Prop where
  outside : new &&& ~~~union (fields.map Prod.fst) = old &&& ~~~union (fields.map Prod.fst)
  inside : ∀ field ∈ fields, new &&& field.1 = field.2 &&& field.1

theorem Composed.unique {fields : List (UInt32 × UInt32)} {old new new' : UInt32}
    (h : Composed fields old new) (h' : Composed fields old new') : new' = new := by
  refine ext_bit fun i hi => ?_
  cases hu : bit (union (fields.map Prod.fst)) i with
  | false =>
    have hmask : bit (~~~union (fields.map Prod.fst)) i = true := by simp [bit_not _ hi, hu]
    exact (and_eq_and_iff.mp h'.outside i hmask).trans (and_eq_and_iff.mp h.outside i hmask).symm
  | true =>
    rw [bit_union, List.any_map, List.any_eq_true] at hu
    obtain ⟨field, hmem, hfield⟩ := hu
    exact (and_eq_and_iff.mp (h'.inside field hmem) i hfield).trans
      (and_eq_and_iff.mp (h.inside field hmem) i hfield).symm

/-- A word composed from some fields stays as it is when they are put in again. -/
theorem Composed.again {fields : List (UInt32 × UInt32)} {old new : UInt32}
    (h : Composed fields old new) : Composed fields new new :=
  ⟨rfl, h.inside⟩

/-- Where a field has a bit, the word has it as the field does. -/
theorem Composed.bit_of_mem {fields : List (UInt32 × UInt32)} {old new : UInt32} {i : Nat}
    (h : Composed fields old new) {field : UInt32 × UInt32} (hf : field ∈ fields)
    (hi : bit field.1 i = true) : bit new i = bit field.2 i :=
  and_eq_and_iff.mp (h.inside field hf) i hi

/-- Where no field has a bit, the word has it as before. -/
theorem Composed.bit_of_not_mem {fields : List (UInt32 × UInt32)} {old new : UInt32} {i : Nat}
    (h : Composed fields old new) (hi : i < 32) (hnone : ∀ f ∈ fields, bit f.1 i = false) :
    bit new i = bit old i := by
  refine and_eq_and_iff.mp h.outside i ?_
  rw [bit_not _ hi, bit_union, List.any_map, Bool.not_eq_true', List.any_eq_false]
  intro f hf
  exact ne_true_of_eq_false (hnone f hf)

/-- The order of the fields does not matter. -/
theorem Composed.perm {fields fields' : List (UInt32 × UInt32)} {old new : UInt32}
    (hperm : fields.Perm fields') (h : Composed fields old new) : Composed fields' old new := by
  have hunion : union (fields'.map Prod.fst) = union (fields.map Prod.fst) := by
    refine ext_bit fun i _ => ?_
    rw [bit_union, bit_union]
    exact ((hperm.map Prod.fst).any_eq).symm
  exact ⟨by rw [hunion, h.outside], fun field hf => h.inside field (hperm.mem_iff.mpr hf)⟩

/-- Fields with disjoint masks compose a word. -/
theorem composed_patches {fields : List (UInt32 × UInt32)} (x : UInt32)
    (hdisj : fields.Pairwise fun f g => f.1 &&& g.1 = 0) :
    Composed fields x (patches fields x) where
  outside := by
    refine and_eq_and_iff.mpr fun i hi => bit_patches_of_not_mem x fun field hf => ?_
    have hlt : i < 32 := by
      by_contra hge
      rw [bit_of_le _ (Nat.not_lt.mp hge)] at hi
      cases hi
    rw [bit_not _ hlt, bit_union, List.any_map, Bool.not_eq_true', List.any_eq_false] at hi
    simpa using hi field hf
  inside := by
    intro field hf
    obtain ⟨before, after, rfl⟩ := List.append_of_mem hf
    have hafter : ∀ g ∈ after, field.1 &&& g.1 = 0 :=
      (List.pairwise_cons.mp (List.pairwise_append.mp hdisj).2.1).1
    refine and_eq_and_iff.mpr fun i hi => ?_
    have hpatches : patches (before ++ field :: after) x =
        patches after (patch field.1 field.2 (patches before x)) := by
      simp [patches]
    rw [hpatches, bit_patches_of_not_mem, bit_patch, if_pos hi]
    intro g hg
    simpa [hi] using congrArg (bit · i) (hafter g hg)

/-- Fields with disjoint masks leave a word as it is when it has their bits already. -/
theorem patches_eq_self_iff {fields : List (UInt32 × UInt32)} (x : UInt32)
    (hdisj : fields.Pairwise fun f g => f.1 &&& g.1 = 0) :
    patches fields x = x ↔ ∀ field ∈ fields, x &&& field.1 = field.2 &&& field.1 := by
  have hcomposed := composed_patches x hdisj
  constructor
  · intro h field hf
    rw [← hcomposed.inside field hf, h]
  · intro h
    exact Composed.unique ⟨rfl, h⟩ hcomposed

end Masks
