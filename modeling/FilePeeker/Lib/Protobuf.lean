import FilePeeker.Lib.Utf8
import Mathlib.Algebra.Group.Int.Defs
import Mathlib.Algebra.GroupWithZero.Nat
import Mathlib.Data.Nat.Log

/-!
# Messages in bytes

What Protocol Buffers make of a message: each field is a key, which has the field's number
and how it is written, and then its value.  A number is written in groups of seven bits, the
lowest first; what has a length is written after it.  In `proto3` a field that has the
value it has by default is left out, but for one that is `optional`.

The lengths are known without the bytes (`length_varint`, `length_key`), and a repeated field
is as long as its elements with their keys and lengths (`length_repeated`).
-/

namespace FilePeeker.Protobuf

/-! ### Numbers -/

/-- The groups of seven bits of a number, the lowest first, no more than so many. -/
def varintFrom : Nat → Nat → Bytes
  | 0, _ => []
  | groups + 1, value =>
    if value < 128 then [UInt8.ofNat value]
    else UInt8.ofNat (value % 128 + 128) :: varintFrom groups (value / 128)

/-- A number of 64 bits, which ten groups have room for. -/
def varint (value : Nat) : Bytes := varintFrom 10 value

/-- One byte for each seven bits. -/
def encodedLenVarint (value : Nat) : Nat := Nat.log 128 value + 1

example : varint 300 = [0xAC, 0x02] := by decide

theorem length_varintFrom {groups value : Nat} (h : value < 128 ^ (groups + 1)) :
    (varintFrom (groups + 1) value).length = encodedLenVarint value := by
  induction groups generalizing value with
  | zero =>
    have hlt : value < 128 := by simpa using h
    rw [varintFrom, if_pos hlt, encodedLenVarint, Nat.log_of_lt hlt]
    rfl
  | succ groups ih =>
    rw [varintFrom, encodedLenVarint]
    split
    · next hlt => rw [Nat.log_of_lt hlt]; rfl
    · next hge =>
      have hdiv : value / 128 < 128 ^ (groups + 1) := by
        rw [Nat.div_lt_iff_lt_mul (by decide), ← Nat.pow_succ]
        exact h
      rw [List.length_cons, ih hdiv, encodedLenVarint,
        Nat.log_of_one_lt_of_le (by decide) (Nat.le_of_not_lt hge)]

theorem length_varint {value : Nat} (h : value < 2 ^ 64) :
    (varint value).length = encodedLenVarint value :=
  length_varintFrom (Nat.lt_trans h (by decide))

/-! ### Fields -/

/-- How the value of a field is written. -/
inductive WireType
  | varint
  | lengthDelimited

def WireType.toNat : WireType → Nat
  | varint => 0
  | lengthDelimited => 2

def key (tag : Nat) (wireType : WireType) : Bytes := varint (8 * tag + wireType.toNat)

def keyLen (tag : Nat) : Nat := encodedLenVarint (8 * tag)

/-- A field's number has 29 bits. -/
theorem length_key {tag : Nat} (h : tag < 2 ^ 29) (wireType : WireType) :
    (key tag wireType).length = keyLen tag := by
  have hlow : wireType.toNat < 8 := by cases wireType <;> decide
  rw [key, length_varint (by omega), keyLen, encodedLenVarint, encodedLenVarint]
  by_cases hlt : tag < 16
  · rw [Nat.log_of_lt (show 8 * tag + wireType.toNat < 128 by omega),
      Nat.log_of_lt (show 8 * tag < 128 by omega)]
  · -- What the key has of the wire type is not above its first seven bits.
    rw [Nat.log_of_one_lt_of_le (by decide) (show 128 ≤ 8 * tag + wireType.toNat by omega),
      Nat.log_of_one_lt_of_le (by decide) (show 128 ≤ 8 * tag by omega),
      show (8 * tag + wireType.toNat) / 128 = 8 * tag / 128 by omega]

def lengthDelimited (tag : Nat) (payload : Bytes) : Bytes :=
  key tag .lengthDelimited ++ varint payload.length ++ payload

/-- How long a field is whose value is so long. -/
def fieldLen (tag length : Nat) : Nat := keyLen tag + encodedLenVarint length + length

theorem length_lengthDelimited {tag : Nat} {payload : Bytes} (htag : tag < 2 ^ 29)
    (hlength : payload.length < 2 ^ 64) :
    (lengthDelimited tag payload).length = fieldLen tag payload.length := by
  rw [lengthDelimited, List.length_append, List.length_append, length_key htag,
    length_varint hlength, fieldLen]

theorem le_fieldLen (tag length : Nat) : length ≤ fieldLen tag length := Nat.le_add_left _ _

def uint64 (tag value : Nat) : Bytes :=
  if value = 0 then [] else key tag .varint ++ varint value

/-- `int64`, `int32` and the enumerations: what is negative is written as 64 bits. -/
def int64 (tag : Nat) (value : Int) : Bytes := uint64 tag (value % 2 ^ 64).toNat

def bool (tag : Nat) (value : Bool) : Bytes := uint64 tag value.toNat

def string (tag : Nat) (text : Bytes) : Bytes :=
  if text = [] then [] else lengthDelimited tag text

/-- `optional uint64`. -/
def optional (tag : Nat) (value : Option Nat) : Bytes :=
  value.elim [] fun value => key tag .varint ++ varint value

def message (tag : Nat) (payload : Option Bytes) : Bytes :=
  payload.elim [] (lengthDelimited tag)

def repeated (tag : Nat) (payloads : List Bytes) : Bytes := payloads.flatMap (lengthDelimited tag)

/-- **A repeated field** is as long as its elements, each with its key and its length. -/
theorem length_repeated {tag : Nat} {payloads : List Bytes} (htag : tag < 2 ^ 29)
    (h : ∀ payload ∈ payloads, payload.length < 2 ^ 64) :
    (repeated tag payloads).length =
      (payloads.map fun payload => fieldLen tag payload.length).sum := by
  induction payloads with
  | nil => rfl
  | cons payload payloads ih =>
    have hrest : ∀ other ∈ payloads, other.length < 2 ^ 64 := fun other hother =>
      h other (List.mem_cons_of_mem _ hother)
    calc (repeated tag (payload :: payloads)).length
        = (lengthDelimited tag payload ++ repeated tag payloads).length := rfl
      _ = fieldLen tag payload.length + (repeated tag payloads).length := by
        rw [List.length_append, length_lengthDelimited htag (h payload List.mem_cons_self)]
      _ = _ := by rw [ih hrest, List.map_cons, List.sum_cons]

end FilePeeker.Protobuf
