import Mathlib.Data.Nat.Size
import PioplatRelay.RlpTypes

/-!
# Writers of Go types

The writer of a type adds the encoding of a value to the buffer.  Big integers are
refused when they are negative, and then nothing of the value is returned.  Others
are written from their machine words, least significant byte first, into a buffer of
their length.
-/

namespace PioplatRelay.Rlp

open BigEndian EncBuffer Appended Nat
open List hiding Vector

variable {α : Type}

inductive EncodeErr
  | negativeBigInt
  /-- A bounds check of the runtime failed; this never happens. -/
  | bounds
  deriving DecidableEq, Repr

def orBounds : Option α → Except EncodeErr α
  | none => .error .bounds
  | some value => .ok value

/-- `big.Int.Bits`: the machine words, least significant first. -/
def bits (i : Nat) : List UInt64 := (digits (2 ^ 64) i).map UInt64.ofNat

/-- The inner loop of `writeBigInt`, with the buffer and `index`. -/
def fillWord : Nat → UInt64 → List UInt8 × Nat → List UInt8 × Nat
  | rounds + 1, d, (buf, index + 1) => fillWord rounds (d >>> 8) (buf.set index d.toUInt8, index)
  | _, _, state => state

def fillWords (words : List UInt64) (length : Nat) : List UInt8 :=
  (words.foldl (fun state d => fillWord 8 d state) (replicate length 0, length)).1

/-- `writeBigInt` for an integer that is not negative. -/
def EncBuffer.writeBigInt (buf : EncBuffer) (i : Nat) : EncBuffer :=
  let bitlen := i.size
  if bitlen ≤ 64 then buf.writeUint64 (UInt64.ofNat i)
  else
    let length := ((bitlen + 7) / 8 * 8) >>> 3
    (buf.encodeStringHeader length).write (fillWords (bits i) length)

/-- A writer with the value it writes. -/
def TypeWriter : Type := EncBuffer → Except EncodeErr EncBuffer

def writeUint (i : UInt64) : TypeWriter := fun buf =>
  .ok (buf.writeUint64 i)

def writeBigIntPtr : Option Int → TypeWriter
  | none => fun buf => .ok (buf.write [0x80])
  | some i => fun buf => if i < 0 then .error .negativeBigInt else .ok (buf.writeBigInt i.toNat)

def writeByteSlice (bytes : List UInt8) : TypeWriter := fun buf =>
  .ok (buf.writeBytes bytes)

def writeByteArray {length : Nat} (array : Vector UInt8 length) : TypeWriter := fun buf =>
  match array.toList with
  | [] => .ok (buf.write [0x80])
  | [byte] => if byte ≤ 0x7F then .ok (buf.write [byte]) else .ok (buf.write [0x81, byte])
  | bytes => .ok ((buf.encodeStringHeader bytes.length).write bytes)

def writePtr (nilEncoding : UInt8) (writer : α → TypeWriter) : Option α → TypeWriter
  | none => fun buf => .ok (buf.write [nilEncoding])
  | some value => writer value

def writeFields : List TypeWriter → TypeWriter
  | [], buf => .ok buf
  | writer :: writers, buf => do
      let buf ← writer buf
      writeFields writers buf

def writeEnclosed (writers : List TypeWriter) : TypeWriter := fun buf => do
  let inner ← writeFields writers buf.list.1
  orBounds (inner.listEnd buf.list.2)

/-- `makeSliceWriter`: an empty slice is written without a list header. -/
def writeSlice (writer : α → TypeWriter) (elements : List α) : TypeWriter := fun buf =>
  if elements.length = 0 then .ok (buf.write [0xC0])
  else writeEnclosed (elements.map writer) buf

def writeStruct (fields : List TypeWriter) : TypeWriter := writeEnclosed fields

def TypeWriter.toBytes (writer : TypeWriter) : Except EncodeErr (List UInt8) := do
  let buf ← writer .empty
  orBounds buf.makeBytes

def bytesBuffer : Writer (List UInt8) Empty :=
  ⟨fun held bytes => (held ++ bytes, bytes.length, none)⟩

def TypeWriter.toBuffer (writer : TypeWriter) (held : List UInt8) :
    Except EncodeErr (List UInt8) := do
  let buf ← writer .empty
  let (held, _) ← orBounds (buf.writeTo bytesBuffer held)
  pure held

/-! ### What writers add -/

/-- The writer adds `bytes` to any buffer if its value is valid, and refuses the
value otherwise. -/
structure TypeWriter.Writes (writer : TypeWriter) (bytes : List UInt8) (valid : Prop) : Prop where
  appended : valid → ∀ buf, ∃ after, writer buf = .ok after ∧ Appended buf after bytes
  refused : ¬ valid → ∀ buf, writer buf = .error .negativeBigInt

namespace TypeWriter.Writes

theorem of_appended {writer : TypeWriter} {bytes : List UInt8}
    (appended : ∀ buf, ∃ after, writer buf = .ok after ∧ Appended buf after bytes) :
    writer.Writes bytes True :=
  ⟨fun _ => appended,fun invalid => absurd trivial invalid⟩

theorem congr {writer : TypeWriter} {bytes otherBytes : List UInt8} {valid otherValid : Prop}
    (writes : writer.Writes bytes valid) (bytesEq : bytes = otherBytes)
    (validIff : valid ↔ otherValid) : writer.Writes otherBytes otherValid := by
  subst bytesEq
  rwa [propext validIff] at writes

theorem uint (i : UInt64) : (writeUint i).Writes (encodeString (minimal i.toNat)) True := by
  apply of_appended
  intro buf
  refine ⟨_,rfl,?_⟩
  rw [writeUint64_eq]
  exact write buf _

theorem byteSlice (bytes : List UInt8) :
    (writeByteSlice bytes).Writes (encodeString bytes) True := by
  apply of_appended
  intro buf
  refine ⟨_,rfl,?_⟩
  rw [writeBytes_eq]
  exact write buf _

end TypeWriter.Writes

/-! ### Big integers -/

/-- The bytes of a word go before those that are there, as far as there is room. -/
theorem fillWord_eq (rounds index : Nat) (d : UInt64) (tail : List UInt8) :
    fillWord rounds d (replicate index 0 ++ tail, index) =
      (replicate (index - rounds) 0 ++ (bytesOf (min rounds index) d.toNat ++ tail),
        index - rounds) := by
  induction rounds generalizing index d tail with
  | zero => simp [fillWord]
  | succ rounds ih =>
    cases index with
    | zero => simp [fillWord]
    | succ index =>
      have placed : (replicate (index + 1) 0 ++ tail).set index d.toUInt8 =
          replicate index 0 ++ d.toUInt8 :: tail := by
        rw [replicate_succ',append_assoc,set_append_right _ _ (by simp)]
        simp
      have shifted : (d >>> 8).toNat = d.toNat / 256 := by
        simp [UInt64.toNat_shiftRight,shiftRight_eq_div_pow]
      rw [fillWord,placed,ih,shifted,Nat.add_sub_add_right,Nat.add_min_add_right,bytesOf_succ,
        append_assoc]
      rfl

theorem foldl_fillWord {i index : Nat} (tail : List UInt8) (fits : index ≤ 8 * (bits i).length) :
    ((bits i).foldl (fun state d => fillWord 8 d state)
      (replicate index 0 ++ tail, index)).1 = bytesOf index i ++ tail := by
  induction i using Nat.strong_induction_on generalizing index tail with
  | _ i ih =>
    rcases Nat.eq_zero_or_pos i with rfl | positive
    · obtain rfl : index = 0 := by simpa [bits] using fits
      rfl
    · have wordsEq : bits i = UInt64.ofNat i :: bits (i / 2 ^ 64) := by
        rw [bits,digits_def' (by decide) positive,map_cons,← bits]
        congr 1
        apply UInt64.toNat_inj.mp
        simp
      rw [wordsEq,length_cons] at fits
      rw [wordsEq,foldl_cons,fillWord_eq,
        ih _ (div_lt_self positive (by decide)) _ (by omega),← append_assoc]
      congr 1
      have low : bytesOf (min 8 index) (UInt64.ofNat i).toNat = bytesOf (min 8 index) i := by
        have word := bytesOf_mod (min 8 index) (8 - min 8 index) i
        rwa [Nat.add_sub_cancel' (min_le_left _ _)] at word
      -- A buffer with no room for the word takes no byte of the words after it.
      rcases lt_or_ge index 8 with short | room
      · rw [low,Nat.sub_eq_zero_of_le short.le,min_eq_right short.le]
        rfl
      · have split := bytesOf_add (index - 8) 8 i
        rw [Nat.sub_add_cancel room] at split
        rw [low,min_eq_left room,split]
        rfl

theorem fillWords_bits (i : Nat) :
    fillWords (bits i) ((i.size + 7) / 8) = bytesOf ((i.size + 7) / 8) i := by
  have room : (i.size + 7) / 8 ≤ 8 * (bits i).length := by
    have bound := lt_base_pow_length_digits (m := i) (show 1 < 2 ^ 64 by decide)
    rw [← pow_mul,← size_le] at bound
    rw [bits,length_map]
    omega
  simpa [fillWords] using foldl_fillWord [] room

theorem EncBuffer.writeBigInt_eq (buf : EncBuffer) (i : Nat) :
    buf.writeBigInt i = buf.write (encodeString (minimal i)) := by
  have rounded : ((i.size + 7) / 8 * 8) >>> 3 = (i.size + 7) / 8 := by
    rw [shiftRight_eq_div_pow]
    exact Nat.mul_div_cancel _ (by decide)
  rw [writeBigInt]
  simp only [rounded,fillWords_bits]
  split
  · rename_i fits
    rw [writeUint64_eq,UInt64.toNat_ofNat_of_lt' (size_le.mp fits)]
  · rename_i large
    have wide : ¬ i < 2 ^ 64 := by rwa [← size_le]
    rw [← minimal_length_eq_size,bytesOf_minimal_length,encodeStringHeader_eq,write_write,
      encodeString_of_not_selfEncoded]
    rw [selfEncoded_minimal_eq_false_iff]
    omega

def bigIntValue : Option Int → Nat
  | none => 0
  | some i => i.toNat

def NotNegative : Option Int → Prop
  | none => True
  | some i => 0 ≤ i

instance (i : Option Int) : Decidable (NotNegative i) :=
  match i with
  | none => isTrue trivial
  | some i => inferInstanceAs (Decidable (0 ≤ i))

namespace TypeWriter.Writes

theorem bigIntPtr (i : Option Int) :
    (writeBigIntPtr i).Writes (encodeString (minimal (bigIntValue i))) (NotNegative i) := by
  cases i with
  | none =>
    apply of_appended
    intro buf
    exact ⟨_,rfl,write buf [0x80]⟩
  | some i =>
    constructor
    · intro notNegative buf
      have sign : ¬ i < 0 := Int.not_lt.mpr notNegative
      refine ⟨buf.writeBigInt i.toNat,if_neg sign,?_⟩
      rw [writeBigInt_eq]
      exact write buf _
    · intro negative buf
      exact if_pos (Int.not_le.mp negative)

theorem byteArray {length : Nat} (array : Vector UInt8 length) :
    (writeByteArray array).Writes (encodeString array.toList) True := by
  apply of_appended
  intro buf
  rw [writeByteArray]
  split
  · rename_i empty
    rw [empty]
    exact ⟨_,rfl,write buf [0x80]⟩
  · rename_i byte single
    rw [single]
    split
    · rename_i small
      rw [encodeString_singleton (lt_succ_of_le small)]
      exact ⟨_,rfl,write buf [byte]⟩
    · rename_i large
      have headed : selfEncoded [byte] = false := by
        rw [selfEncoded,decide_eq_false_iff_not]
        intro small
        exact large (le_of_lt_succ small)
      rw [encodeString_of_not_selfEncoded headed]
      exact ⟨_,rfl,write buf [0x81,byte]⟩
  · rename_i notEmpty notSingle
    have headed : selfEncoded array.toList = false := by
      unfold selfEncoded
      split
      · rename_i byte single
        exact absurd single (notSingle byte)
      · rfl
    refine ⟨_,rfl,?_⟩
    rw [encodeString_of_not_selfEncoded headed,encodeStringHeader_eq,write_write]
    exact write buf _

theorem ptr {encode : α → List UInt8} {writer : α → TypeWriter}
    (writes : ∀ value, (writer value).Writes (encode value) True) (pointer : Option α) :
    (writePtr 0x80 writer pointer).Writes (encodeNilPtr encode pointer) True := by
  cases pointer with
  | none =>
    apply of_appended
    intro buf
    exact ⟨_,rfl,write buf [0x80]⟩
  | some value => exact writes value

theorem fields_nil : (writeFields []).Writes [] True := by
  apply of_appended
  intro buf
  exact ⟨buf,rfl,refl buf⟩

variable {writer : TypeWriter} {bytes : List UInt8}

theorem fields_cons {writers : List TypeWriter} {moreBytes : List UInt8} {valid moreValid : Prop}
    (first : writer.Writes bytes valid) (rest : (writeFields writers).Writes moreBytes moreValid) :
    (writeFields (writer :: writers)).Writes (bytes ++ moreBytes) (valid ∧ moreValid) := by
  constructor
  · rintro ⟨isValid,restValid⟩ buf
    obtain ⟨between,wrote,appended⟩ := first.appended isValid buf
    obtain ⟨after,wroteRest,appendedRest⟩ := rest.appended restValid between
    refine ⟨after,?_,appended.trans appendedRest⟩
    rw [writeFields,wrote]
    exact wroteRest
  · intro invalid buf
    rw [writeFields]
    by_cases isValid : valid
    · obtain ⟨between,wrote,_⟩ := first.appended isValid buf
      rw [wrote]
      apply rest.refused
      intro restValid
      exact invalid ⟨isValid,restValid⟩
    · rw [first.refused isValid buf]
      rfl

theorem fields_singleton {valid : Prop} (writes : writer.Writes bytes valid) :
    (writeFields [writer]).Writes bytes valid :=
  (writes.fields_cons fields_nil).congr (List.append_nil bytes) (and_iff_left trivial)

theorem enclosed {writers : List TypeWriter} {valid : Prop}
    (inner : (writeFields writers).Writes bytes valid) :
    (writeEnclosed writers).Writes (listHeader bytes.length ++ bytes) valid := by
  constructor
  · intro isValid buf
    obtain ⟨between,wrote,appended⟩ := inner.appended isValid buf.list.1
    obtain ⟨after,endEq,endAppended⟩ := appended.listEnd
    refine ⟨after,?_,endAppended⟩
    rw [writeEnclosed,wrote]
    change orBounds (between.listEnd buf.list.2) = _
    rw [endEq]
    rfl
  · intro invalid buf
    rw [writeEnclosed,inner.refused invalid]
    rfl

theorem slice {encode : α → List UInt8} {writer : α → TypeWriter}
    (writes : ∀ value, (writer value).Writes (encode value) True) (elements : List α) :
    (writeSlice writer elements).Writes
      (listHeader (elements.flatMap encode).length ++ elements.flatMap encode) True := by
  have inner : (writeFields (elements.map writer)).Writes (elements.flatMap encode) True := by
    induction elements with
    | nil => exact fields_nil
    | cons element elements ih =>
      rw [List.map_cons,List.flatMap_cons,← and_true True]
      exact fields_cons (writes element) ih
  apply of_appended
  intro buf
  rw [writeSlice]
  split
  · rename_i empty
    rw [List.length_eq_zero_iff.mp empty]
    exact ⟨_,rfl,write buf [0xC0]⟩
  · exact (enclosed inner).appended trivial buf

variable {valid : Prop} (writes : writer.Writes bytes valid)

include writes

theorem toBytes_eq (isValid : valid) : writer.toBytes = .ok bytes := by
  obtain ⟨after,wrote,appended⟩ := writes.appended isValid .empty
  rw [TypeWriter.toBytes,wrote]
  change orBounds after.makeBytes = _
  rw [appended.makeBytes_eq]
  rfl

theorem toBuffer_eq (isValid : valid) (held : List UInt8) :
    writer.toBuffer held = .ok (held ++ bytes) := by
  obtain ⟨after,wrote,appended⟩ := writes.appended isValid .empty
  have accepting : bytesBuffer.Accepting id := fun _ _ => ⟨rfl,rfl⟩
  obtain ⟨target,writeEq,heldEq⟩ := appended.writeTo_accepting accepting held
  have targetEq : target = held ++ bytes := heldEq
  rw [TypeWriter.toBuffer,wrote]
  change (do
    let (held, _) ← orBounds (after.writeTo bytesBuffer held)
    pure held : Except EncodeErr (List UInt8)) = _
  rw [writeEq,targetEq]
  rfl

theorem toBytes_refused (invalid : ¬ valid) : writer.toBytes = .error .negativeBigInt := by
  rw [TypeWriter.toBytes,writes.refused invalid]
  rfl

theorem toBuffer_refused (invalid : ¬ valid) (held : List UInt8) :
    writer.toBuffer held = .error .negativeBigInt := by
  rw [TypeWriter.toBuffer,writes.refused invalid]
  rfl

end TypeWriter.Writes

end PioplatRelay.Rlp
