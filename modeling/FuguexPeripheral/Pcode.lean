import Mathlib.Data.BitVec
import FuguexPeripheral.Basic
import FuguexPeripheral.ByteStore

/-!
# P-code and the emulator state

The data that the bypass reads: operands, p-code operations and the state of the
emulator, and the concrete meaning of the operations. These come from the
emulator's own crates; here they have their plain meaning. A state is a family of
byte-addressed spaces, an operand is a range of bytes in one of them, and an
operation reads its inputs, computes, and writes its output, all in the byte
order of the state.

* `PCodeOp` has one constructor for each operation that the bypass names. The
  operations that compute a result from one or two operands are `unary` and
  `binary` with the operation's name; `other` is every operation that neither the
  hook nor the solver has a case for.
* The `space` of a `Load` or `Store` is ignored by the code and left out.
-/

namespace FuguexPeripheral

open ByteStore

/-! ## Operands and operations -/

/-- The address spaces of a state: RAM, the registers, and the others (the space of
temporaries among them). -/
inductive Space
  | ram
  | register
  | named (name : String)
  deriving DecidableEq, Repr

/-- What `{:?}` prints for a space. -/
def Space.debug : Space → String
  | .ram => "ram"
  | .register => "register"
  | .named name => name

inductive Operand
  | address (value : Address) (size : Nat)
  | constant (value : Nat) (size : Nat)
  | register (name : String) (offset : Nat) (size : Nat)
  | variable (space : Space) (offset : Nat) (size : Nat)
  deriving DecidableEq, Repr

/-- Operations with two inputs. -/
inductive BinOp
  | intAnd | boolAnd | intOr | boolXor | intXor | boolOr
  | intLeftShift | intRightShift | intSRightShift
  | intEq | intNotEq | intSLess | intLess
  | intSub | intAdd | intCarry | intSCarry
  deriving DecidableEq, Repr

/-- Operations with one input. -/
inductive UnOp
  | intNot | intNeg | intZExt | intSExt
  deriving DecidableEq, Repr

inductive PCodeOp
  | load (source destination : Operand)
  | store (source destination : Operand)
  | copy (source destination : Operand)
  | branch (destination : Operand)
  | cbranch (destination condition : Operand)
  | ibranch (destination : Operand)
  | call (destination : Operand)
  | icall (destination : Operand)
  | ret (destination : Operand)
  | subpiece (result operand amount : Operand)
  | binary (op : BinOp) (result : Operand) (operand₀ operand₁ : Operand)
  | unary (op : UnOp) (result operand : Operand)
  | skip
  | other (name : String)
  deriving DecidableEq, Repr

namespace Operand

/-- The size in bytes. -/
def size : Operand → Nat
  | .address _ size => size
  | .constant _ size => size
  | .register _ _ size => size
  | .variable _ _ size => size

def isConstant : Operand → Bool
  | .constant _ _ => true
  | _ => false

/-- The space an operand lies in, and where it starts there. -/
def location : Operand → Option (Space × Nat)
  | .address value _ => some (.ram, value)
  | .constant _ _ => none
  | .register _ offset _ => some (.register, offset)
  | .variable space offset _ => some (space, offset)

/-- The operand lies in RAM. -/
def inRam : Operand → Bool
  | .address _ _ => true
  | .variable .ram _ _ => true
  | _ => false

def isRegister : Operand → Bool
  | .register _ _ _ => true
  | _ => false

/-- The byte ranges of two operands do not meet. -/
def NoOverlap (o o' : Operand) : Prop :=
  ∀ l ∈ o.location, ∀ l' ∈ o'.location, l.1 = l'.1 →
    l.2 + o.size ≤ l'.2 ∨ l'.2 + o'.size ≤ l.2

instance (o o' : Operand) : Decidable (o.NoOverlap o') :=
  inferInstanceAs (Decidable (∀ l ∈ o.location, ∀ l' ∈ o'.location, l.1 = l'.1 →
    l.2 + o.size ≤ l'.2 ∨ l'.2 + o'.size ≤ l.2))

theorem NoOverlap.symm {o o' : Operand} (h : o.NoOverlap o') : o'.NoOverlap o :=
  fun l hl l' hl' heq => (h l' hl' l hl heq.symm).symm

theorem isConstant_of_isRegister {o : Operand} (h : o.isRegister = true) :
    o.isConstant = false := by
  cases o with
  | register => rfl
  | constant | address | «variable» => cases h

theorem location_eq_none {o : Operand} : o.location = none ↔ o.isConstant = true := by
  cases o <;> simp [location, isConstant]

end Operand

/-! ## The emulator state -/

/-- The state of the emulator: its spaces and the program counter. The byte order
is a parameter of the type, as in the source. -/
structure PCodeState (O : Order) where
  spaces : Space → Store
  programCounter : Address

namespace PCodeState

variable {O : Order}

/-- The bytes of an operand. A constant has those of its value. -/
def operandBytes (s : PCodeState O) (o : Operand) : List UInt8 :=
  match o with
  | .constant value size => encode O size value
  | .address value size => (s.spaces .ram).read value size
  | .register _ offset size => (s.spaces .register).read offset size
  | .variable space offset size => (s.spaces space).read offset size

/-- The unsigned value of an operand. -/
def value (s : PCodeState O) (o : Operand) : Nat :=
  decode O (s.operandBytes o)

/-- `get_address`: the address that an operand holds. -/
def getAddress (s : PCodeState O) (o : Operand) : Address :=
  s.value o

/-- `get_operand::<u8>`: an operand read at type `u8` is its first byte. -/
def getOperandU8 (s : PCodeState O) (o : Operand) : UInt8 :=
  (s.operandBytes o).headD 0

/-- The state with `bytes` put at `a` in the space `sp`. -/
def setBytes (s : PCodeState O) (sp : Space) (a : Nat) (bytes : List UInt8) : PCodeState O :=
  { s with spaces := Function.update s.spaces sp ((s.spaces sp).write a bytes) }

/-- Write the low bytes of `v` to an operand. Nothing is written to a constant. -/
def setValue (s : PCodeState O) (o : Operand) (v : Nat) : PCodeState O :=
  match o.location with
  | none => s
  | some (sp, a) => s.setBytes sp a (encode O o.size v)

/-- `set_values`: put bytes into RAM. -/
def setValues (s : PCodeState O) (a : Address) (bytes : List UInt8) : PCodeState O :=
  s.setBytes .ram a bytes

/-- `write::<_, O, _>` of an integer of `n` bytes. -/
def write (s : PCodeState O) (a : Address) (n v : Nat) : PCodeState O :=
  s.setValues a (encode O n v)

def memory (s : PCodeState O) : Store :=
  s.spaces .ram

/-- The integer of `n` bytes at `a` in RAM. -/
def readMemory (s : PCodeState O) (a : Address) (n : Nat) : Nat :=
  s.memory.load O a n

/-- `O::read_u32` of the four bytes at `a`. -/
def readU32 (s : PCodeState O) (a : Address) : UInt32 :=
  UInt32.ofNat (s.readMemory a 4)

/-- `set_values` of the four bytes that `O::write_u32` makes of `v`. -/
def writeU32 (s : PCodeState O) (a : Address) (v : UInt32) : PCodeState O :=
  s.write a 4 v.toNat

/-- `get_operand::<u32>`: an operand read at type `u32` is its first four bytes. -/
def getOperandU32 (s : PCodeState O) (o : Operand) : UInt32 :=
  UInt32.ofNat (decode O ((s.operandBytes o).take 4))

def setPc (s : PCodeState O) (pc : Address) : PCodeState O :=
  { s with programCounter := pc }

end PCodeState

/-! ## Meaning of the operations -/

/-- The value of a two's complement comparison. -/
def ofBool (b : Bool) : Nat :=
  b.toNat

/-- The value of an operation on inputs of `w` bits. The shift amount may have any
width, and shifting by the whole width or more leaves zeros, or copies of the sign.
The Boolean operations take any non-zero byte as true. -/
def BinOp.eval (op : BinOp) (w x y : Nat) : Nat :=
  match op with
  | .intAnd => x &&& y
  | .boolAnd => ofBool (x != 0 && y != 0)
  | .intOr => x ||| y
  | .boolXor => ofBool ((x != 0) ^^ (y != 0))
  | .intXor => x ^^^ y
  | .boolOr => ofBool (x != 0 || y != 0)
  | .intLeftShift => if y < w then (x <<< y) % 2 ^ w else 0
  | .intRightShift => if y < w then x >>> y else 0
  | .intSRightShift => ((BitVec.ofNat w x).sshiftRight (min y w)).toNat
  | .intEq => ofBool (x == y)
  | .intNotEq => ofBool (x != y)
  | .intSLess => ofBool ((BitVec.ofNat w x).slt (BitVec.ofNat w y))
  | .intLess => ofBool (decide (x < y))
  | .intSub => (BitVec.ofNat w x - BitVec.ofNat w y).toNat
  | .intAdd => (BitVec.ofNat w x + BitVec.ofNat w y).toNat
  | .intCarry => ofBool (BitVec.uaddOverflow (BitVec.ofNat w x) (BitVec.ofNat w y))
  | .intSCarry => ofBool (BitVec.saddOverflow (BitVec.ofNat w x) (BitVec.ofNat w y))

/-- Shifts, whose amount may have any width. -/
def BinOp.isShift : BinOp → Bool
  | .intLeftShift | .intRightShift | .intSRightShift => true
  | _ => false

/-- Operations that work on Booleans, which are one byte wide. -/
def BinOp.isLogical : BinOp → Bool
  | .boolAnd | .boolXor | .boolOr => true
  | _ => false

/-- Operations with a Boolean result. -/
def BinOp.isTest : BinOp → Bool
  | .boolAnd | .boolXor | .boolOr => true
  | .intEq | .intNotEq | .intSLess | .intLess | .intCarry | .intSCarry => true
  | _ => false

/-- The widths in bits that an operation takes for its inputs. -/
def BinOp.Fits (op : BinOp) (w w' : Nat) : Prop :=
  (op.isShift = true ∨ w = w') ∧ (op.isLogical = true → w = 8)

/-- The width of the result for a first input of `w` bits. -/
def BinOp.resultBits (op : BinOp) (w : Nat) : Nat :=
  if op.isTest then 8 else w

/-- The value of an operation on an input of `w` bits, with a result of `w'` bits. -/
def UnOp.eval (op : UnOp) (w w' x : Nat) : Nat :=
  match op with
  | .intNot => (~~~ BitVec.ofNat w x).toNat
  | .intNeg => (- BitVec.ofNat w x).toNat
  | .intZExt => x
  | .intSExt => ((BitVec.ofNat w x).signExtend w').toNat

namespace PCodeOp

variable {O : Order}

/-- The effect of an operation on the data of the state; control flow is left to
the emulator. The meaning of the binary operations is a parameter, since the
solver's reading of a trace differs from the emulator's in one of them. -/
def execWith (meaning : BinOp → Nat → Nat → Nat → Nat) (s : PCodeState O) :
    PCodeOp → PCodeState O
  | .load source destination =>
    s.setValue destination (s.readMemory (s.getAddress source) destination.size)
  | .store source destination => s.write (s.getAddress destination) source.size (s.value source)
  | .copy source destination => s.setValue destination (s.value source)
  | .subpiece result operand amount =>
    s.setValue result (s.value operand >>> (8 * s.value amount))
  | .binary op result a b => s.setValue result (meaning op (8 * a.size) (s.value a) (s.value b))
  | .unary op result a => s.setValue result (op.eval (8 * a.size) (8 * result.size) (s.value a))
  | _ => s

/-- The emulator's execution of an operation. -/
def exec (s : PCodeState O) (op : PCodeOp) : PCodeState O :=
  op.execWith BinOp.eval s

end PCodeOp

/-! ## Reading after writing -/

namespace PCodeState

variable {O : Order}

@[simp] theorem value_setPc (s : PCodeState O) (pc : Address) (o : Operand) :
    (s.setPc pc).value o = s.value o := by
  cases o <;> rfl

@[simp] theorem getOperandU8_setPc (s : PCodeState O) (pc : Address) (o : Operand) :
    (s.setPc pc).getOperandU8 o = s.getOperandU8 o := by
  cases o <;> rfl

theorem operandBytes_eq {s : PCodeState O} {o : Operand} {sp : Space} {a : Nat}
    (h : o.location = some (sp, a)) : s.operandBytes o = (s.spaces sp).read a o.size := by
  cases o with
  | constant v n => cases h
  | address v n => cases h; rfl
  | register name off n => cases h; rfl
  | «variable» sp off n => cases h; rfl

theorem length_operandBytes (s : PCodeState O) (o : Operand) :
    (s.operandBytes o).length = o.size := by
  cases o with
  | constant v n => exact length_encode O n v
  | address v n => exact Store.length_read _ _ _
  | register name off n => exact Store.length_read _ _ _
  | «variable» sp off n => exact Store.length_read _ _ _

theorem value_lt (s : PCodeState O) (o : Operand) : s.value o < 2 ^ (8 * o.size) := by
  have h := decode_lt O (s.operandBytes o)
  rwa [length_operandBytes] at h

/-- An operand that a write does not touch keeps its bytes. -/
theorem operandBytes_setValue_of_noOverlap {s : PCodeState O} {o o' : Operand} {v : Nat}
    (h : o.NoOverlap o') : (s.setValue o v).operandBytes o' = s.operandBytes o' := by
  unfold setValue
  cases ho : o.location with
  | none => rfl
  | some l =>
    obtain ⟨sp, a⟩ := l
    cases ho' : o'.location with
    | none =>
      cases o' with
      | constant v n => rfl
      | address | register | «variable» => cases ho'
    | some l' =>
      obtain ⟨sp', a'⟩ := l'
      rw [operandBytes_eq ho', operandBytes_eq ho']
      dsimp only [setBytes]
      by_cases hsp : sp' = sp
      · subst hsp
        rw [Function.update_self]
        refine Store.read_write_disjoint ?_
        rw [length_encode]
        exact (h _ ho _ ho' rfl).symm
      · rw [Function.update_of_ne hsp]

theorem value_setValue_of_noOverlap {s : PCodeState O} {o o' : Operand} {v : Nat}
    (h : o.NoOverlap o') : (s.setValue o v).value o' = s.value o' := by
  rw [value, value, operandBytes_setValue_of_noOverlap h]

/-- The same for bytes that are put into RAM. -/
theorem value_setValues_of_noOverlap {s : PCodeState O} {a : Address} {bytes : List UInt8}
    {o : Operand} (h : (Operand.address a bytes.length).NoOverlap o) :
    (s.setValues a bytes).value o = s.value o := by
  have hput : s.setValues a bytes = s.setValue (.address a bytes.length) (decode O bytes) := by
    show _ = s.setBytes .ram a (encode O bytes.length (decode O bytes))
    rw [encode_decode]
    rfl
  rw [hput, value_setValue_of_noOverlap h]

theorem getOperandU8_setValue_of_noOverlap {s : PCodeState O} {o o' : Operand} {v : Nat}
    (h : o.NoOverlap o') : (s.setValue o v).getOperandU8 o' = s.getOperandU8 o' := by
  rw [getOperandU8, getOperandU8, operandBytes_setValue_of_noOverlap h]

theorem value_setValue_same {s : PCodeState O} {o : Operand} {v : Nat} (h : o.isConstant = false) :
    (s.setValue o v).value o = v % 2 ^ (8 * o.size) := by
  unfold setValue
  cases ho : o.location with
  | none =>
    rw [Operand.location_eq_none.mp ho] at h
    cases h
  | some l =>
    obtain ⟨sp, a⟩ := l
    dsimp only
    rw [value, operandBytes_eq ho, setBytes]
    dsimp only
    rw [Function.update_self]
    have hread := Store.read_write_same (s.spaces sp) a (encode O o.size v)
    rw [length_encode] at hread
    rw [hread, decode_encode]

/-- Only the low bytes of a value are written. -/
theorem setValue_mod (s : PCodeState O) (o : Operand) (v : Nat) :
    s.setValue o (v % 2 ^ (8 * o.size)) = s.setValue o v := by
  unfold setValue
  cases o.location with
  | none => rfl
  | some l =>
    obtain ⟨sp, a⟩ := l
    dsimp only
    rw [encode_mod]

/-- A constant reads the same in every state. -/
theorem value_constant (s s' : PCodeState O) {o : Operand} (h : o.isConstant = true) :
    s.value o = s'.value o := by
  cases o with
  | constant v n => rfl
  | address | register | «variable» => cases h

theorem memory_setValues (s : PCodeState O) (a : Address) (bytes : List UInt8) :
    (s.setValues a bytes).memory = s.memory.write a bytes := by
  unfold memory setValues setBytes
  dsimp only
  rw [Function.update_self]

/-- A write to RAM changes RAM only. -/
theorem spaces_setValues_of_ne (s : PCodeState O) (a : Address) (bytes : List UInt8) {sp : Space}
    (h : sp ≠ .ram) : (s.setValues a bytes).spaces sp = s.spaces sp := by
  unfold setValues setBytes
  dsimp only
  rw [Function.update_of_ne h]

/-- The operands elsewhere do not depend on RAM. -/
theorem operandBytes_congr_of_not_inRam {s t : PCodeState O} {o : Operand} (h : o.inRam = false)
    (hspaces : ∀ sp ≠ .ram, t.spaces sp = s.spaces sp) : t.operandBytes o = s.operandBytes o := by
  cases o with
  | address v n => cases h
  | constant v n => rfl
  | register name off n => rw [operandBytes, operandBytes, hspaces _ (by decide)]
  | «variable» sp off n =>
    have hsp : sp ≠ .ram := by
      rintro rfl
      cases h
    rw [operandBytes, operandBytes, hspaces sp hsp]

theorem value_setValues_of_not_inRam {s : PCodeState O} {a : Address} {bytes : List UInt8}
    {o : Operand} (h : o.inRam = false) : (s.setValues a bytes).value o = s.value o := by
  rw [value, value, operandBytes_congr_of_not_inRam h fun _ => spaces_setValues_of_ne s a bytes]

/-- The state with another RAM. -/
def withMemory (s : PCodeState O) (m : Store) : PCodeState O :=
  { s with spaces := Function.update s.spaces .ram m }

@[simp] theorem memory_withMemory (s : PCodeState O) (m : Store) : (s.withMemory m).memory = m := by
  unfold memory withMemory
  dsimp only
  rw [Function.update_self]

theorem spaces_withMemory_of_ne (s : PCodeState O) (m : Store) {sp : Space} (h : sp ≠ .ram) :
    (s.withMemory m).spaces sp = s.spaces sp :=
  Function.update_of_ne h _ _

theorem value_withMemory_of_not_inRam {s : PCodeState O} {m : Store} {o : Operand}
    (h : o.inRam = false) : (s.withMemory m).value o = s.value o := by
  rw [value, value, operandBytes_congr_of_not_inRam h fun _ => spaces_withMemory_of_ne s m]

theorem getOperandU8_withMemory_of_not_inRam {s : PCodeState O} {m : Store} {o : Operand}
    (h : o.inRam = false) : (s.withMemory m).getOperandU8 o = s.getOperandU8 o := by
  rw [getOperandU8, getOperandU8,
    operandBytes_congr_of_not_inRam h fun _ => spaces_withMemory_of_ne s m]

theorem readMemory_write (s : PCodeState O) (a : Address) (n v : Nat) :
    (s.write a n v).readMemory a n = v % 2 ^ (8 * n) := by
  rw [readMemory, write, memory_setValues]
  exact Store.load_store_same O s.memory a n v

theorem readMemory_lt (s : PCodeState O) (a : Address) (n : Nat) :
    s.readMemory a n < 2 ^ (8 * n) := by
  have h := decode_lt O (s.memory.read a n)
  rwa [Store.length_read] at h

theorem toNat_readU32 (s : PCodeState O) (a : Address) :
    (s.readU32 a).toNat = s.readMemory a 4 := by
  rw [readU32, UInt32.toNat_ofNat']
  exact Nat.mod_eq_of_lt (s.readMemory_lt a 4)

@[simp] theorem readU32_writeU32 (s : PCodeState O) (a : Address) (v : UInt32) :
    (s.writeU32 a v).readU32 a = v := by
  rw [readU32, writeU32, readMemory_write, Nat.mod_eq_of_lt v.toNat_lt]
  exact UInt32.ofNat_toNat

/-- A write elsewhere does not change a word. -/
theorem readU32_write_of_disjoint (s : PCodeState O) {a b : Address} {n : Nat} (v : Nat)
    (h : b + 4 ≤ a ∨ a + n ≤ b) : (s.write a n v).readU32 b = s.readU32 b := by
  unfold readU32 readMemory write
  rw [memory_setValues, Store.load, Store.load, Store.read_write_disjoint]
  rwa [length_encode]

theorem readU32_writeU32_of_disjoint (s : PCodeState O) {a b : Address} (v : UInt32)
    (h : b + 4 ≤ a ∨ a + 4 ≤ b) : (s.writeU32 a v).readU32 b = s.readU32 b :=
  readU32_write_of_disjoint s v.toNat h

/-- Writing what is there changes nothing. -/
theorem writeU32_readU32 (s : PCodeState O) (a : Address) : s.writeU32 a (s.readU32 a) = s := by
  have henc := encode_decode O (s.memory.read a 4)
  rw [Store.length_read] at henc
  have hbytes : encode O 4 (s.readU32 a).toNat = s.memory.read a 4 := by
    rw [toNat_readU32]
    exact henc
  unfold writeU32 write setValues setBytes
  rw [hbytes, memory, Store.write_read, Function.update_eq_self]

/-- Memory reads the same where its bytes are the same. -/
theorem readMemory_congr {s t : PCodeState O} {a : Address} {n : Nat}
    (h : ∀ x, a ≤ x → x < a + n → t.memory x = s.memory x) :
    t.readMemory a n = s.readMemory a n :=
  congrArg (decode O) (Store.read_congr fun i hi =>
    h (a + i) (Nat.le_add_right a i) (Nat.add_lt_add_left hi a))

/-- An integer determines the bytes that it was read from. -/
theorem memory_eq_of_readMemory_eq {s t : PCodeState O} {a : Address} {n : Nat}
    (h : t.readMemory a n = s.readMemory a n) {x : Address} (hx : a ≤ x ∧ x < a + n) :
    t.memory x = s.memory x := by
  have henc := encode_decode O (t.memory.read a n)
  have henc' := encode_decode O (s.memory.read a n)
  rw [Store.length_read] at henc henc'
  have hread : t.memory.read a n = s.memory.read a n := by
    rw [← henc, ← henc']
    exact congrArg (encode O n) h
  have hi : x - a < n := Nat.sub_lt_left_of_lt_add hx.1 hx.2
  have hget : ∀ m : Store, (m.read a n)[x - a]? = some (m x) := by
    intro m
    rw [Store.read, List.getElem?_map, List.getElem?_range hi]
    exact congrArg (fun b => some (m b)) (Nat.add_sub_cancel' hx.1)
  exact Option.some.inj ((hget t.memory).symm.trans (hread ▸ hget s.memory))

/-- The two words that eight bytes of `v` show, in the order of their addresses. -/
def halves (O : Order) (v : UInt64) : UInt32 × UInt32 :=
  match O with
  | .le => (v.toUInt32, (v >>> 32).toUInt32)
  | .be => ((v >>> 32).toUInt32, v.toUInt32)

theorem encode_eight (O : Order) (v : UInt64) :
    encode O 8 v.toNat =
      encode O 4 (halves O v).1.toNat ++ encode O 4 (halves O v).2.toNat := by
  have hlow : v.toUInt32.toNat = v.toNat % 2 ^ (8 * 4) := by simp
  have hhigh : (v >>> 32).toUInt32.toNat = v.toNat / 2 ^ 32 % 2 ^ (8 * 4) := by
    simp [Nat.shiftRight_eq_div_pow]
  cases O with
  | le =>
    simp only [halves, encode, hlow, hhigh, encodeLE_mod]
    exact encodeLE_add 4 4 v.toNat
  | be =>
    simp only [halves, encode, hlow, hhigh, encodeLE_mod, ← List.reverse_append]
    rw [show (8 : Nat) = 4 + 4 from rfl, encodeLE_add]

theorem readU32_write_halves (s : PCodeState O) (a : Address) (v : UInt64) :
    (s.write a 8 v.toNat).readU32 a = (halves O v).1 ∧
      (s.write a 8 v.toNat).readU32 (a + 4) = (halves O v).2 := by
  obtain ⟨hfst, hsnd⟩ := Store.read_write_append s.memory a
    (encode O 4 (halves O v).1.toNat) (encode O 4 (halves O v).2.toNat)
  rw [length_encode] at hfst hsnd
  rw [length_encode] at hsnd
  unfold readU32 readMemory write
  rw [memory_setValues, encode_eight, Store.load, Store.load, hfst, hsnd]
  constructor
  · apply UInt32.toNat.inj
    simp [decode_encode]
  · apply UInt32.toNat.inj
    simp [decode_encode]

/-- `t` is `s` but for the `n` bytes at `a`. -/
structure ChangedOnly (s t : PCodeState O) (a : Address) (n : Nat) : Prop where
  memory : ∀ x, x < a ∨ a + n ≤ x → t.memory x = s.memory x
  spaces : ∀ sp ≠ .ram, t.spaces sp = s.spaces sp
  programCounter : t.programCounter = s.programCounter

theorem changedOnly_write (s : PCodeState O) (a : Address) (n v : Nat) :
    ChangedOnly s (s.write a n v) a n where
  memory x h := by
    rw [write, memory_setValues]
    exact Store.write_apply_outside (by rwa [length_encode])
  spaces sp h := spaces_setValues_of_ne s a _ h
  programCounter := rfl

/-- A change that leaves its last bytes as they were is a smaller one. -/
theorem ChangedOnly.narrow {s t : PCodeState O} {a : Address} {n k : Nat}
    (h : s.ChangedOnly t a (n + k)) (hsame : t.readMemory (a + n) k = s.readMemory (a + n) k) :
    s.ChangedOnly t a n where
  memory x hx := by
    by_cases hnear : a + n ≤ x ∧ x < a + n + k
    · exact memory_eq_of_readMemory_eq hsame hnear
    · refine h.memory x (hx.imp_right fun hx => ?_)
      rw [← Nat.add_assoc]
      exact Nat.not_lt.mp fun hlt => hnear ⟨hx, hlt⟩
  spaces := h.spaces
  programCounter := h.programCounter

/-- The word made of at most `n` bytes. -/
theorem toNat_ofNat_decode_lt (O : Order) {bs : List UInt8} {n : Nat} (h : bs.length ≤ n) :
    (UInt32.ofNat (decode O bs)).toNat < 2 ^ (8 * n) := by
  have hle : 2 ^ (8 * bs.length) ≤ 2 ^ (8 * n) := Nat.pow_le_pow_right (by decide) (by omega)
  refine Nat.lt_of_le_of_lt ?_ (Nat.lt_of_lt_of_le (decode_lt O bs) hle)
  rw [UInt32.toNat_ofNat']
  exact Nat.mod_le _ _

/-- A write hides one of as many bytes before it. -/
theorem setValues_setValues {bs cs : List UInt8} (s : PCodeState O) (a : Address)
    (hlen : bs.length = cs.length) : (s.setValues a bs).setValues a cs = s.setValues a cs := by
  unfold setValues setBytes
  dsimp only
  rw [Function.update_self, Function.update_idem, Store.write_write _ _ hlen]

/-- Replace the integer of `n` bytes at `a`. -/
def modify (s : PCodeState O) (a : Address) (n : Nat) (f : Nat → Nat) : PCodeState O :=
  s.write a n (f (s.readMemory a n))

/-- A replacement that is repeated does nothing more, if it does nothing more to the
integer. -/
theorem modify_idem (s : PCodeState O) (a : Address) {n : Nat} {f : Nat → Nat}
    (hf : ∀ v, f (f v % 2 ^ (8 * n)) = f v) :
    (s.modify a n f).modify a n f = s.modify a n f := by
  rw [modify, modify, readMemory_write, hf]
  exact setValues_setValues s a (by simp)

/-- Replacements of different bytes commute. -/
theorem modify_comm (s : PCodeState O) {a b : Address} {n k : Nat} (f g : Nat → Nat)
    (h : a + n ≤ b ∨ b + k ≤ a) :
    (s.modify a n f).modify b k g = (s.modify b k g).modify a n f := by
  have hread : ∀ {a b : Address} {n k : Nat} (v : Nat), a + n ≤ b ∨ b + k ≤ a →
      (s.write a n v).readMemory b k = s.readMemory b k := by
    intro a b n k v h
    rw [readMemory, write, memory_setValues, Store.load, Store.read_write_disjoint]
    · rfl
    · rw [length_encode]
      exact h.symm
  rw [modify, modify, modify, modify, hread _ h, hread _ h.symm]
  unfold write setValues setBytes
  dsimp only
  rw [Function.update_self, Function.update_self, Function.update_idem, Function.update_idem,
    Store.write_comm]
  rwa [length_encode, length_encode]

theorem writeU32_writeU32 (s : PCodeState O) (a : Address) (v w : UInt32) :
    (s.writeU32 a v).writeU32 a w = s.writeU32 a w :=
  setValues_setValues s a (by simp)

end PCodeState

end FuguexPeripheral
