import Mathlib.Data.List.GetD
import Mathlib.Data.Nat.Digits.Lemmas

/-!
# Byte stores

Integers as byte sequences in either byte order, and byte-addressed stores.

Results:
1. `decode_encode`, `encode_decode`, `decode_lt`: `n` bytes hold a number modulo
   `2 ^ (8 * n)`.
2. `read_write_same`, `read_write_append`, `read_write_disjoint`, `write_apply_outside`: a
   write is read back where it was made, whole or in parts, and nowhere else.
3. `load_store_same`: the same for integers.
-/

namespace ByteStore

/-- Byte orders. -/
inductive Order
  | le
  | be
  deriving DecidableEq, Repr

/-! ## Integers as bytes -/

/-- The `n` low bytes of `v`, least significant first. -/
def encodeLE : Nat → Nat → List UInt8
  | 0, _ => []
  | n + 1, v => UInt8.ofNat (v % 256) :: encodeLE n (v / 256)

/-- The number whose bytes are `bs`, least significant first. -/
def decodeLE (bs : List UInt8) : Nat :=
  Nat.ofDigits 256 (bs.map UInt8.toNat)

def encode : Order → Nat → Nat → List UInt8
  | .le, n, v => encodeLE n v
  | .be, n, v => (encodeLE n v).reverse

def decode : Order → List UInt8 → Nat
  | .le, bs => decodeLE bs
  | .be, bs => decodeLE bs.reverse

theorem length_encodeLE (n v : Nat) : (encodeLE n v).length = n := by
  induction n generalizing v with
  | zero => rfl
  | succ n ih => rw [encodeLE, List.length_cons, ih]

@[simp] theorem length_encode (o : Order) (n v : Nat) : (encode o n v).length = n := by
  cases o with
  | le => exact length_encodeLE n v
  | be => rw [encode, List.length_reverse, length_encodeLE]

theorem decodeLE_encodeLE (n v : Nat) : decodeLE (encodeLE n v) = v % 2 ^ (8 * n) := by
  induction n generalizing v with
  | zero => simp [encodeLE, decodeLE, Nat.mod_one]
  | succ n ih =>
    have hbyte : (UInt8.ofNat (v % 256)).toNat = v % 256 := by simp
    have hpow : 2 ^ (8 * (n + 1)) = 256 * 2 ^ (8 * n) := by
      rw [Nat.mul_add, pow_add, Nat.mul_comm]
      rfl
    rw [encodeLE, decodeLE, List.map_cons, Nat.ofDigits_cons, hbyte]
    change _ + 256 * decodeLE (encodeLE n (v / 256)) = _
    rw [ih, hpow, Nat.mod_mul]

/-- `n` bytes hold a number modulo `2 ^ (8 * n)`, in either order. -/
theorem decode_encode (o : Order) (n v : Nat) : decode o (encode o n v) = v % 2 ^ (8 * n) := by
  cases o with
  | le => exact decodeLE_encodeLE n v
  | be => rw [encode, decode, List.reverse_reverse, decodeLE_encodeLE]

theorem encodeLE_mod (n v : Nat) : encodeLE n (v % 2 ^ (8 * n)) = encodeLE n v := by
  induction n generalizing v with
  | zero => rfl
  | succ n ih =>
    have hpow : 2 ^ (8 * (n + 1)) = 256 * 2 ^ (8 * n) := by
      rw [Nat.mul_add, pow_add, Nat.mul_comm]
      rfl
    rw [encodeLE, encodeLE, hpow, Nat.mod_mul_right_mod, Nat.mod_mul_right_div_self, ih]

/-- Only the low bytes of a number are encoded. -/
theorem encode_mod (o : Order) (n v : Nat) : encode o n (v % 2 ^ (8 * n)) = encode o n v := by
  cases o with
  | le => exact encodeLE_mod n v
  | be => rw [encode, encode, encodeLE_mod]

/-- The low bytes come first in little-endian order. -/
theorem take_encodeLE {m n : Nat} (h : m ≤ n) (v : Nat) :
    (encodeLE n v).take m = encodeLE m v := by
  induction n generalizing m v with
  | zero =>
    rw [Nat.le_zero.mp h]
    rfl
  | succ n ih =>
    cases m with
    | zero => rfl
    | succ m => rw [encodeLE, encodeLE, List.take_succ_cons, ih (Nat.le_of_succ_le_succ h)]

/-- The bytes of a number are its low bytes and then the bytes of the rest. -/
theorem encodeLE_add (m n v : Nat) :
    encodeLE (m + n) v = encodeLE m v ++ encodeLE n (v / 2 ^ (8 * m)) := by
  induction m generalizing v with
  | zero => simp [encodeLE]
  | succ m ih =>
    have hpow : 2 ^ (8 * (m + 1)) = 256 * 2 ^ (8 * m) := by
      rw [Nat.mul_add, pow_add, Nat.mul_comm]
      rfl
    rw [Nat.add_right_comm, encodeLE, encodeLE, List.cons_append, ih, hpow, Nat.div_div_eq_div_mul]

theorem decodeLE_lt (bs : List UInt8) : decodeLE bs < 2 ^ (8 * bs.length) := by
  have h : decodeLE bs < 256 ^ (bs.map UInt8.toNat).length := by
    refine Nat.ofDigits_lt_base_pow_length (by decide) ?_
    intro d hd
    obtain ⟨b, -, rfl⟩ := List.mem_map.mp hd
    exact b.toNat_lt
  rwa [List.length_map, show (256 : Nat) = 2 ^ 8 from rfl, ← pow_mul] at h

theorem decode_lt (o : Order) (bs : List UInt8) : decode o bs < 2 ^ (8 * bs.length) := by
  cases o with
  | le => exact decodeLE_lt bs
  | be => exact bs.length_reverse ▸ decodeLE_lt bs.reverse

theorem encodeLE_decodeLE (bs : List UInt8) : encodeLE bs.length (decodeLE bs) = bs := by
  induction bs with
  | nil => rfl
  | cons b bs ih =>
    have hcons : decodeLE (b :: bs) = b.toNat + 256 * decodeLE bs := by
      rw [decodeLE, List.map_cons, Nat.ofDigits_cons]
      rfl
    rw [List.length_cons, encodeLE, hcons, Nat.add_mul_mod_self_left,
      Nat.add_mul_div_left _ _ (by decide), Nat.mod_eq_of_lt b.toNat_lt,
      Nat.div_eq_of_lt b.toNat_lt, Nat.zero_add, ih, UInt8.ofNat_toNat]

/-- Bytes are determined by their number and by the integer that they hold. -/
theorem encode_decode (o : Order) (bs : List UInt8) : encode o bs.length (decode o bs) = bs := by
  cases o with
  | le => exact encodeLE_decodeLE bs
  | be =>
    have h := encodeLE_decodeLE bs.reverse
    rw [List.length_reverse] at h
    rw [encode, decode, h, List.reverse_reverse]

/-- In little-endian order the first bytes are the low ones. -/
theorem decode_le_append (bs cs : List UInt8) :
    decode .le (bs ++ cs) = decode .le bs + 256 ^ bs.length * decode .le cs := by
  simp only [decode, decodeLE]
  rw [List.map_append, Nat.ofDigits_append, List.length_map]

/-- In big-endian order the first bytes are the high ones. -/
theorem decode_be_append (bs cs : List UInt8) :
    decode .be (bs ++ cs) = decode .be cs + 256 ^ cs.length * decode .be bs := by
  simp only [decode, decodeLE]
  rw [List.reverse_append, List.map_append, Nat.ofDigits_append, List.length_map,
    List.length_reverse]

/-! ## Stores -/

/-- A total byte-addressed store. -/
abbrev Store := Nat → UInt8

namespace Store

/-- The `n` bytes from `a` on. -/
def read (m : Store) (a n : Nat) : List UInt8 :=
  (List.range n).map fun i => m (a + i)

/-- The store with the bytes `bs` put at `a`. -/
def write (m : Store) (a : Nat) (bs : List UInt8) : Store :=
  fun x => if x < a then m x else bs.getD (x - a) (m x)

/-- The integer in the `n` bytes at `a`. -/
def load (o : Order) (m : Store) (a n : Nat) : Nat :=
  decode o (m.read a n)

/-- The store with the `n` low bytes of `v` put at `a`. -/
def store (o : Order) (m : Store) (a n v : Nat) : Store :=
  m.write a (encode o n v)

@[simp] theorem length_read (m : Store) (a n : Nat) : (m.read a n).length = n := by
  rw [read, List.length_map, List.length_range]

/-- A read depends on the bytes of its range only. -/
theorem read_congr {m m' : Store} {a n : Nat} (h : ∀ i, i < n → m (a + i) = m' (a + i)) :
    m.read a n = m'.read a n :=
  List.map_congr_left fun i hi => h i (List.mem_range.mp hi)

theorem write_apply_outside {m : Store} {a x : Nat} {bs : List UInt8}
    (h : x < a ∨ a + bs.length ≤ x) : m.write a bs x = m x := by
  unfold write
  split
  · rfl
  · have hle : bs.length ≤ x - a := by omega
    rw [List.getD_eq_default _ _ hle]

theorem write_apply_inside {m : Store} {a i : Nat} {bs : List UInt8} (h : i < bs.length) :
    m.write a bs (a + i) = bs[i] := by
  unfold write
  rw [if_neg (by omega), Nat.add_sub_cancel_left, List.getD_eq_getElem _ _ h]

theorem read_write_same (m : Store) (a : Nat) (bs : List UInt8) :
    (m.write a bs).read a bs.length = bs := by
  apply List.ext_getElem
  · exact length_read _ _ _
  · intro i _ hi
    simp only [read, List.getElem_map, List.getElem_range]
    exact write_apply_inside hi

theorem read_add (m : Store) (a n k : Nat) :
    m.read a (n + k) = m.read a n ++ m.read (a + n) k := by
  simp [read, List.range_add, Nat.add_assoc]

/-- The two parts of a write are read back one by one. -/
theorem read_write_append (m : Store) (a : Nat) (bs cs : List UInt8) :
    (m.write a (bs ++ cs)).read a bs.length = bs ∧
      (m.write a (bs ++ cs)).read (a + bs.length) cs.length = cs := by
  have h := read_write_same m a (bs ++ cs)
  rw [List.length_append, read_add] at h
  exact List.append_inj h (by simp)

theorem read_write_disjoint {m : Store} {a b n : Nat} {bs : List UInt8}
    (h : b + n ≤ a ∨ a + bs.length ≤ b) : (m.write a bs).read b n = m.read b n :=
  read_congr fun i hi => write_apply_outside (by omega)

/-- Writing what is there changes nothing. -/
theorem write_read (m : Store) (a n : Nat) : m.write a (m.read a n) = m := by
  funext x
  by_cases h : x < a ∨ a + n ≤ x
  · exact write_apply_outside (by rwa [length_read])
  · obtain ⟨i, rfl⟩ : ∃ i, x = a + i := ⟨x - a, by omega⟩
    have hi : i < (m.read a n).length := by
      rw [length_read]
      omega
    rw [write_apply_inside hi]
    simp only [read, List.getElem_map, List.getElem_range]

/-- A write changes nothing when its bytes are there already. -/
theorem write_eq_self_iff {m : Store} {a : Nat} {bs : List UInt8} :
    m.write a bs = m ↔ m.read a bs.length = bs := by
  constructor
  · intro h
    have hread := read_write_same m a bs
    rwa [h] at hread
  · intro h
    have hwrite := write_read m a bs.length
    rwa [h] at hwrite

/-- A store of an integer changes nothing when it is there already. -/
theorem store_eq_self_iff {o : Order} {m : Store} {a n v : Nat} :
    m.store o a n v = m ↔ m.load o a n = v % 2 ^ (8 * n) := by
  rw [store, write_eq_self_iff, length_encode, load]
  constructor
  · intro h
    rw [h, decode_encode]
  · intro h
    have hbytes := encode_decode o (m.read a n)
    rw [length_read, h, encode_mod] at hbytes
    exact hbytes.symm

/-- A write hides one of as many bytes before it. -/
theorem write_write {bs cs : List UInt8} (m : Store) (a : Nat) (hlen : bs.length = cs.length) :
    (m.write a bs).write a cs = m.write a cs := by
  funext x
  by_cases h : x < a ∨ a + cs.length ≤ x
  · rw [write_apply_outside h, write_apply_outside h, write_apply_outside (by rwa [hlen])]
  · obtain ⟨i, rfl⟩ : ∃ i, x = a + i := ⟨x - a, by omega⟩
    have hi : i < cs.length := by omega
    rw [write_apply_inside hi, write_apply_inside hi]

/-- Writes to different bytes commute. -/
theorem write_comm {bs cs : List UInt8} (m : Store) {a b : Nat}
    (h : a + bs.length ≤ b ∨ b + cs.length ≤ a) :
    (m.write a bs).write b cs = (m.write b cs).write a bs := by
  funext x
  by_cases ha : x < a ∨ a + bs.length ≤ x
  · rw [write_apply_outside ha]
    by_cases hb : x < b ∨ b + cs.length ≤ x
    · rw [write_apply_outside hb, write_apply_outside hb, write_apply_outside ha]
    · obtain ⟨i, rfl⟩ : ∃ i, x = b + i := ⟨x - b, by omega⟩
      have hi : i < cs.length := by omega
      rw [write_apply_inside hi, write_apply_inside hi]
  · have hb : x < b ∨ b + cs.length ≤ x := by omega
    rw [write_apply_outside hb]
    obtain ⟨i, rfl⟩ : ∃ i, x = a + i := ⟨x - a, by omega⟩
    have hi : i < bs.length := by omega
    rw [write_apply_inside hi, write_apply_inside hi]

theorem load_store_same (o : Order) (m : Store) (a n v : Nat) :
    (m.store o a n v).load o a n = v % 2 ^ (8 * n) := by
  have h := read_write_same m a (encode o n v)
  rw [length_encode] at h
  rw [load, store, h, decode_encode]

end Store

end ByteStore
