import Mathlib.Data.Nat.Digits.Lemmas
import Mathlib.Data.Nat.Size
import PioplatRelay.LittleEndianWords

/-!
# Big-endian numbers in byte strings

A number is written most significant byte first, either at a fixed width or
with as few bytes as it needs.  The minimal form has no leading zero byte, and
that property characterizes it among the byte strings of the same value.
-/

namespace PioplatRelay.BigEndian

open List Nat

def value (bytes : List UInt8) : Nat := LittleEndian.value bytes.reverse

def bytesOf (width number : Nat) : List UInt8 := (LittleEndian.bytesOf width number).reverse

variable (number : Nat)

def minimal : List UInt8 := ((digits 256 number).map UInt8.ofNat).reverse

variable (bytes : List UInt8)

def NoLeadingZero : Prop := bytes.head? ≠ some 0

instance : Decidable (NoLeadingZero bytes) := inferInstanceAs (Decidable (_ ≠ _))

@[simp]
theorem bytesOf_length (width number : Nat) : (bytesOf width number).length = width := by
  simp [bytesOf]

theorem value_lt : value bytes < 256 ^ bytes.length := by
  simpa [value] using LittleEndian.value_lt bytes.reverse

theorem bytesOf_value : bytesOf bytes.length (value bytes) = bytes := by
  have back := LittleEndian.bytesOf_value bytes.reverse
  rw [length_reverse] at back
  rw [bytesOf,value,back,reverse_reverse]

theorem bytesOf_succ (width number : Nat) :
    bytesOf (width + 1) number = bytesOf width (number / 256) ++ [UInt8.ofNat number] := by
  simp [bytesOf,LittleEndian.bytesOf]

@[simp]
theorem bytesOf_zero (number : Nat) : bytesOf 0 number = [] := rfl

theorem bytesOf_add (high low number : Nat) :
    bytesOf (high + low) number = bytesOf high (number / 256 ^ low) ++ bytesOf low number := by
  induction low generalizing number with
  | zero => simp
  | succ low ih =>
    rw [← add_assoc,bytesOf_succ,ih,bytesOf_succ,Nat.div_div_eq_div_mul,pow_succ',append_assoc]

theorem bytesOf_mod (width more number : Nat) :
    bytesOf width (number % 256 ^ (width + more)) = bytesOf width number := by
  induction width generalizing number with
  | zero => rfl
  | succ width ih =>
    have low : UInt8.ofNat (number % 256 ^ (width + 1 + more)) = UInt8.ofNat number := by
      apply UInt8.toNat_inj.mp
      exact mod_mod_of_dvd _ (dvd_pow_self 256 (by omega))
    rw [bytesOf_succ,bytesOf_succ,low,add_right_comm,pow_succ',mod_mul_right_div_self,ih]

@[simp]
theorem value_nil : value [] = 0 := rfl

theorem value_concat (byte : UInt8) :
    value (bytes ++ [byte]) = 256 * value bytes + byte.toNat := by
  simp only [value,reverse_append,reverse_singleton,singleton_append,LittleEndian.value]
  omega

theorem value_append (front back : List UInt8) :
    value (front ++ back) = value front * 256 ^ back.length + value back := by
  induction back using reverseRecOn with
  | nil => simp
  | append_singleton back byte ih =>
    rw [← append_assoc,value_concat,ih,value_concat,length_append,length_singleton,pow_succ]
    ring

@[simp]
theorem value_singleton (byte : UInt8) : value [byte] = byte.toNat := by
  simpa using value_concat [] byte

@[simp]
theorem value_replicate_zero (count : Nat) : value (replicate count 0) = 0 := by
  induction count with
  | zero => rfl
  | succ count ih =>
    rw [replicate_succ',value_concat,ih]
    rfl

theorem value_replicate_zero_append (count : Nat) (bytes : List UInt8) :
    value (replicate count 0 ++ bytes) = value bytes := by
  rw [value_append,value_replicate_zero,zero_mul,zero_add]

/-- A byte string that starts with another byte than zero has a value that needs
every byte of it. -/
theorem pow_le_value {byte : UInt8} {bytes : List UInt8} (nonzero : byte ≠ 0) :
    256 ^ bytes.length ≤ value (byte :: bytes) := by
  have positive : 0 < byte.toNat := by
    rw [pos_iff_ne_zero]
    intro isZero
    exact nonzero (UInt8.toNat_inj.mp isZero)
  rw [← singleton_append,value_append,value_singleton]
  have scaled := mul_le_mul_right (256 ^ bytes.length) positive
  omega

@[simp]
theorem minimal_zero : minimal 0 = [] := by
  simp [minimal]

theorem minimal_length : (minimal number).length = (digits 256 number).length := by
  simp [minimal]

/-- Peeling off the low byte, as the loops over machine words do. -/
theorem minimal_of_pos {number : Nat} (positive : 0 < number) :
    minimal number = minimal (number / 256) ++ [UInt8.ofNat (number % 256)] := by
  rw [minimal,digits_def' (by omega) positive,map_cons,reverse_cons]
  rfl

theorem minimal_length_le_iff {number width : Nat} :
    (minimal number).length ≤ width ↔ number < 256 ^ width := by
  rw [minimal_length,digits_length_le_iff (by omega)]

theorem minimal_length_eq_size : (minimal number).length = (number.size + 7) / 8 := by
  have fitsIff : ∀ width, (minimal number).length ≤ width ↔ (number.size + 7) / 8 ≤ width := by
    intro width
    rw [minimal_length_le_iff,show 256 ^ width = 2 ^ (8 * width) by rw [Nat.pow_mul],← size_le]
    omega
  exact le_antisymm ((fitsIff _).mpr le_rfl) ((fitsIff _).mp le_rfl)

theorem minimal_length_pos {number : Nat} (positive : 0 < number) :
    0 < (minimal number).length := by
  rw [minimal_of_pos positive,length_append,length_singleton]
  omega

theorem value_minimal : value (minimal number) = number := by
  induction number using Nat.strong_induction_on with
  | _ number ih =>
    rcases Nat.eq_zero_or_pos number with rfl | positive
    · simp
    · rw [minimal_of_pos positive,value_concat,ih _ (by omega),UInt8.toNat_ofNat']
      omega

theorem bytesOf_minimal_length :
    bytesOf (minimal number).length number = minimal number := by
  have back := bytesOf_value (minimal number)
  rwa [value_minimal] at back

theorem noLeadingZero_of_value {bytes : List UInt8}
    (canonical : 2 ≤ bytes.length → NoLeadingZero bytes)
    (positive : 0 < bytes.length → 0 < value bytes) : NoLeadingZero bytes := by
  match bytes with
  | [] => simp [NoLeadingZero]
  | [byte] =>
    rintro ⟨⟩
    exact absurd (positive one_pos) (by decide)
  | _ :: _ :: _ => exact canonical (by simp)

theorem minimal_noLeadingZero : NoLeadingZero (minimal number) := by
  induction number using Nat.strong_induction_on with
  | _ number ih =>
    rcases Nat.eq_zero_or_pos number with rfl | positive
    · simp [NoLeadingZero]
    · rw [minimal_of_pos positive]
      rcases Nat.eq_zero_or_pos (number / 256) with small | large
      · -- A single byte is left, and it carries the whole number.
        have below : number < 256 := by omega
        rw [small,minimal_zero,nil_append,NoLeadingZero,head?_cons,mod_eq_of_lt below]
        intro isZero
        have valueEq := congrArg UInt8.toNat (Option.some.inj isZero)
        rw [UInt8.toNat_ofNat',mod_eq_of_lt below] at valueEq
        exact positive.ne' valueEq
      · have nonempty : minimal (number / 256) ≠ [] := by
          intro isNil
          have zeroEq := value_minimal (number / 256)
          rw [isNil,value_nil] at zeroEq
          omega
        rw [NoLeadingZero,head?_append_of_ne_nil _ nonempty]
        exact ih _ (by omega)

theorem minimal_value {bytes : List UInt8} (canonical : NoLeadingZero bytes) :
    minimal (value bytes) = bytes := by
  cases bytes with
  | nil => simp
  | cons byte bytes =>
    have nonzero : byte ≠ 0 := by
      intro isZero
      exact canonical (congrArg some isZero)
    have lower : 256 ^ bytes.length ≤ value (byte :: bytes) := pow_le_value nonzero
    have lengthLe : (minimal (value (byte :: bytes))).length ≤ (byte :: bytes).length :=
      minimal_length_le_iff.mpr (value_lt _)
    have lengthGt : ¬ (minimal (value (byte :: bytes))).length ≤ bytes.length := by
      rw [minimal_length_le_iff]
      omega
    have lengthEq : (minimal (value (byte :: bytes))).length = (byte :: bytes).length := by
      rw [length_cons] at lengthLe ⊢
      omega
    rw [← bytesOf_minimal_length,lengthEq,bytesOf_value]

end PioplatRelay.BigEndian
