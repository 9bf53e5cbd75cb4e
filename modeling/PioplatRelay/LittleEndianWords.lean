import Mathlib.Data.Nat.Bitwise
import Mathlib.Tactic.Ring

/-!
# Little-endian words in byte strings

Fixed-width unsigned integers are stored least significant byte first.  The two
conversions, over byte lists of any width, are inverse to each other.
-/

namespace PioplatRelay.LittleEndian

def value : List UInt8 → Nat
  | [] => 0
  | byte :: bytes => byte.toNat + 256 * value bytes

def bytesOf : Nat → Nat → List UInt8
  | 0, _ => []
  | width + 1, number => UInt8.ofNat number :: bytesOf width (number / 256)

@[simp]
theorem bytesOf_length (width number : Nat) : (bytesOf width number).length = width := by
  induction width generalizing number with
  | zero => rfl
  | succ width ih => simp [bytesOf,ih]

variable (bytes : List UInt8)

theorem value_lt : value bytes < 256 ^ bytes.length := by
  induction bytes with
  | nil => simp [value]
  | cons byte bytes ih =>
    have byteLt : byte.toNat < 256 := byte.toNat_lt
    simp only [value,List.length_cons,pow_succ]
    omega

theorem value_bytesOf_of_lt {width number : Nat} (bounded : number < 256 ^ width) :
    value (bytesOf width number) = number := by
  induction width generalizing number with
  | zero =>
    simp only [pow_zero,Nat.lt_one_iff] at bounded
    simp [bytesOf,value,bounded]
  | succ width ih =>
    have tailBound : number / 256 < 256 ^ width := by
      rw [pow_succ] at bounded
      omega
    simp only [bytesOf,value,ih tailBound,UInt8.toNat_ofNat']
    omega

/-- The bytes above a number's range are zero, so its low bytes carry it. -/
theorem bytesOf_succ_of_lt {width number : Nat} (bounded : number < 256 ^ width) :
    bytesOf (width + 1) number = bytesOf width number ++ [0] := by
  induction width generalizing number with
  | zero =>
    simp only [pow_zero,Nat.lt_one_iff] at bounded
    simp [bytesOf,bounded]
  | succ width ih =>
    have tailBound : number / 256 < 256 ^ width := by
      rw [pow_succ] at bounded
      omega
    rw [bytesOf,ih tailBound]
    rfl

theorem bytesOf_value : bytesOf bytes.length (value bytes) = bytes := by
  induction bytes with
  | nil => rfl
  | cons byte bytes ih =>
    have byteLt : byte.toNat < 256 := byte.toNat_lt
    have tailEq : (byte.toNat + 256 * value bytes) / 256 = value bytes := by omega
    have headEq : UInt8.ofNat (byte.toNat + 256 * value bytes) = byte := by
      rw [← UInt8.toNat_inj,UInt8.toNat_ofNat']
      omega
    rw [value,List.length_cons,bytesOf,tailEq,headEq,ih]

def putUint32 (word : UInt32) : List UInt8 := bytesOf 4 word.toNat

def uint32 : UInt32 := UInt32.ofNat (value (bytes.take 4))

@[simp]
theorem putUint32_length (word : UInt32) : (putUint32 word).length = 4 := by
  simp [putUint32]

@[simp]
theorem uint32_putUint32 (word : UInt32) : uint32 (putUint32 word) = word := by
  have bounded : word.toNat < 256 ^ 4 := word.toNat_lt
  have whole : (putUint32 word).take 4 = putUint32 word :=
    List.take_of_length_le (by simp)
  rw [uint32,whole,putUint32,value_bytesOf_of_lt bounded,UInt32.ofNat_toNat]

theorem uint32_toNat {bytes : List UInt8} (lengthEq : bytes.length = 4) :
    (uint32 bytes).toNat = value bytes := by
  have bounded := value_lt bytes
  rw [lengthEq] at bounded
  rw [uint32,List.take_of_length_le (by omega),UInt32.toNat_ofNat']
  omega

theorem putUint32_uint32 {bytes : List UInt8} (lengthEq : bytes.length = 4) :
    putUint32 (uint32 bytes) = bytes := by
  rw [putUint32,uint32_toNat lengthEq,← lengthEq,bytesOf_value]

def uint64 : UInt64 := UInt64.ofNat (value (bytes.take 8))

def putUint64 (word : UInt64) : List UInt8 := bytesOf 8 word.toNat

@[simp]
theorem putUint64_length (word : UInt64) : (putUint64 word).length = 8 := by
  simp [putUint64]

theorem uint64_putUint64_append (word : UInt64) (rest : List UInt8) :
    uint64 (putUint64 word ++ rest) = word := by
  have bounded : word.toNat < 256 ^ 8 := word.toNat_lt
  rw [uint64,List.take_left' (putUint64_length word),putUint64,value_bytesOf_of_lt bounded,
    UInt64.ofNat_toNat]

end PioplatRelay.LittleEndian
