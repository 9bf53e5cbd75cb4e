import PioplatRelay.RlpTypes

/-!
# Integers at the front of a byte slice

`AppendUint64` and `SplitUint64` work on plain slices, without a buffer or a
stream.  What the first appends is the canonical encoding of the integer, and the
second takes it off again, whatever follows.
-/

namespace PioplatRelay.Rlp

open BigEndian UInt8 Nat List EncBuffer

def intSize (x : UInt64) : Nat :=
  if x < 0x80 then 1 else 1 + intsize x.toNat

def appendWidth (i : Nat) : Nat :=
  if i < 2 ^ 8 then 1
  else if i < 2 ^ 16 then 2
  else if i < 2 ^ 24 then 3
  else if i < 2 ^ 32 then 4
  else if i < 2 ^ 40 then 5
  else if i < 2 ^ 48 then 6
  else if i < 2 ^ 56 then 7
  else 8

variable (b : List UInt8)

def appendUint64 (i : UInt64) : List UInt8 :=
  if i = 0 then b ++ [0x80]
  else if i < 128 then b ++ [i.toUInt8]
  else b ++ (0x80 + UInt8.ofNat (appendWidth i.toNat)) :: bytesOf (appendWidth i.toNat) i.toNat

/-- `readSize`; `slen` is at most eight. -/
def readSize (slen : UInt8) : Except DecodeErr UInt64 :=
  if slen.toNat > b.length then .error .unexpectedEOF
  else
    let s := UInt64.ofNat (value (b.take slen.toNat))
    if s < 56 ∨ b.headD 0 = 0 then .error .canonSize else .ok s

/-- The kind, tag size and content size that a first byte announces. -/
def readRawTag (buf : List UInt8) (b : UInt8) : Except DecodeErr (Kind × UInt64 × UInt64) := do
  if b < 0x80 then pure (.byte, 0, 1)
  else if b < 0xB8 then
    let contentsize := (b - 0x80).toUInt64
    -- Reject strings that should have been single bytes.
    if contentsize = 1 ∧ buf.length > 1 ∧ buf.getD 1 0 < 128 then throw .canonSize
    else pure (.string, 1, contentsize)
  else if b < 0xC0 then
    let contentsize ← readSize (buf.drop 1) (b - 0xB7)
    pure (.string, (b - 0xB7).toUInt64 + 1, contentsize)
  else if b < 0xF8 then pure (.list, 1, (b - 0xC0).toUInt64)
  else
    let contentsize ← readSize (buf.drop 1) (b - 0xF7)
    pure (.list, (b - 0xF7).toUInt64 + 1, contentsize)

def readRawKind (buf : List UInt8) : Except DecodeErr (Kind × UInt64 × UInt64) :=
  match buf with
  | [] => .error .unexpectedEOF
  | b :: _ => do
      let (k, tagsize, contentsize) ← readRawTag buf b
      -- Reject values larger than the input slice.
      if contentsize > UInt64.ofNat buf.length - tagsize then throw .valueTooLarge
      else pure (k, tagsize, contentsize)

/-- `Split`: the content of the first value and what follows the value. -/
def split : Except DecodeErr (Kind × List UInt8 × List UInt8) := do
  let (k, ts, cs) ← readRawKind b
  pure (k, (b.drop ts.toNat).take cs.toNat, b.drop (ts + cs).toNat)

def splitString : Except DecodeErr (List UInt8 × List UInt8) := do
  let (k, content, rest) ← split b
  if k = .list then throw .expectedString else pure (content, rest)

def contentUint64 : List UInt8 → Except DecodeErr UInt64
  | [] => .ok 0
  | [byte] => if byte = 0 then .error .canonInt else .ok byte.toUInt64
  | content =>
    if content.length > 8 then .error .uintOverflow
    else
      match readSize content (UInt8.ofNat content.length) with
      | .error _ => .error .canonInt
      | .ok x => .ok x

def splitUint64 : Except DecodeErr (UInt64 × List UInt8) := do
  let (content, rest) ← splitString b
  let x ← contentUint64 content
  pure (x, rest)

/-! ### What is appended -/

theorem appendWidth_eq {i : UInt64} (positive : 0 < i.toNat) :
    appendWidth i.toNat = (minimal i.toNat).length := by
  have bounded := i.toNat_lt
  have fits (width : Nat) : (minimal i.toNat).length ≤ width ↔ i.toNat < 256 ^ width :=
    minimal_length_le_iff
  have nonempty := minimal_length_pos positive
  have one := fits 1
  have two := fits 2
  have three := fits 3
  have four := fits 4
  have five := fits 5
  have six := fits 6
  have seven := fits 7
  have eight := fits 8
  simp only [reducePow] at one two three four five six seven eight bounded
  unfold appendWidth
  simp only [reducePow]
  split_ifs <;> omega

theorem appendUint64_eq (i : UInt64) : appendUint64 b i = b ++ encodeString (minimal i.toNat) := by
  have written := writeUint64_eq ⟨b,[],0⟩ i
  rw [writeUint64] at written
  rw [appendUint64]
  split
  · rename_i zero
    rw [if_pos zero] at written
    exact congrArg str written
  · rename_i nonzero
    rw [if_neg nonzero] at written
    split
    · rename_i small
      rw [if_pos small] at written
      exact congrArg str written
    · rename_i large
      rw [if_neg large] at written
      have positive : 0 < i.toNat := by
        rw [pos_iff_ne_zero]
        intro isZero
        exact nonzero (UInt64.toNat_inj.mp isZero)
      have putintEq : putint i.toNat = bytesOf (appendWidth i.toNat) i.toNat := by
        rw [putint,appendWidth_eq positive,intsize_eq_minimal_length positive]
      rw [putintEq,bytesOf_length] at written
      exact congrArg str written

theorem intSize_eq (x : UInt64) : intSize x = (encodeString (minimal x.toNat)).length := by
  rw [intSize]
  split
  · rename_i small
    have below : x.toNat < 128 := small
    rcases Nat.eq_zero_or_pos x.toNat with isZero | positive
    · rw [isZero,minimal_zero]
      rfl
    · have single := selfEncoded_minimal_iff.mpr ⟨positive,below⟩
      have lengthLe : (minimal x.toNat).length ≤ 1 := minimal_length_le_iff.mpr (by omega)
      have nonempty := minimal_length_pos positive
      rw [encodeString,if_pos single]
      omega
  · rename_i large
    have above : ¬ x.toNat < 128 := large
    have positive : 0 < x.toNat := by omega
    have headed : selfEncoded (minimal x.toNat) = false :=
      selfEncoded_minimal_eq_false_iff.mpr (.inr (Nat.le_of_not_lt above))
    have short : (minimal x.toNat).length ≤ 8 := minimal_length_le_iff.mpr x.toNat_lt
    rw [encodeString_of_not_selfEncoded headed,intsize_eq_minimal_length positive,
      stringHeader,header,if_pos (by omega),length_append,length_singleton]

/-! ### What is split off -/

theorem split_of_tag {byte : UInt8} {buf : List UInt8} {k : Kind} {ts cs : UInt64}
    (tag : readRawTag (byte :: buf) byte = .ok (k, ts, cs))
    (bounded : (byte :: buf).length < 2 ^ 64) (fits : ts.toNat + cs.toNat ≤ (byte :: buf).length) :
    split (byte :: buf) = .ok (k, ((byte :: buf).drop ts.toNat).take cs.toNat,
      (byte :: buf).drop (ts.toNat + cs.toNat)) := by
  have lengthEq := UInt64.toNat_ofNat_of_lt' bounded
  have tagFits : ts ≤ UInt64.ofNat (byte :: buf).length := by
    rw [UInt64.le_iff_toNat_le,lengthEq]
    omega
  have room : ¬ cs > UInt64.ofNat (byte :: buf).length - ts := by
    rw [gt_iff_lt,UInt64.lt_iff_toNat_lt,UInt64.toNat_sub_of_le _ _ tagFits,lengthEq]
    omega
  have sumEq : (ts + cs).toNat = ts.toNat + cs.toNat := by
    rw [UInt64.toNat_add]
    omega
  have kindEq : readRawKind (byte :: buf) = .ok (k, ts, cs) := by
    rw [readRawKind,tag]
    exact if_neg room
  rw [split,kindEq,← sumEq]
  rfl

theorem splitString_byte {byte : UInt8} {rest : List UInt8} (small : byte < 0x80)
    (bounded : (byte :: rest).length < 2 ^ 64) :
    splitString (byte :: rest) = .ok ([byte], rest) := by
  have tag : readRawTag (byte :: rest) byte = .ok (.byte, 0, 1) := by
    rw [readRawTag,if_pos small]
    rfl
  rw [splitString,split_of_tag tag bounded (by simp)]
  rfl

theorem splitString_headed {bytes rest : List UInt8} (short : bytes.length < 56)
    (headed : selfEncoded bytes = false)
    (bounded : (stringHeader bytes.length ++ (bytes ++ rest)).length < 2 ^ 64) :
    splitString (stringHeader bytes.length ++ (bytes ++ rest)) = .ok (bytes, rest) := by
  obtain ⟨tagEq,sizeEq⟩ := Stream.tag_short 0x80 short (by decide)
  have headerEq : stringHeader bytes.length = [0x80 + UInt8.ofNat bytes.length] := by
    rw [stringHeader,header,if_pos short]
  rw [headerEq,singleton_append] at bounded ⊢
  have sizeNat : (UInt64.ofNat bytes.length).toNat = bytes.length :=
    UInt64.toNat_ofNat_of_lt' (show _ < 2 ^ 64 by omega)
  have notByte : ¬ 0x80 + UInt8.ofNat bytes.length < 0x80 := by
    rw [lt_iff_toNat_lt,tagEq]
    exact not_lt.mpr (le_add_right _ _)
  have shortTag : 0x80 + UInt8.ofNat bytes.length < 0xB8 := by
    rw [lt_iff_toNat_lt,tagEq]
    change 128 + bytes.length < 184
    omega
  have canonical : ¬ (UInt64.ofNat bytes.length = 1 ∧
      ((0x80 + UInt8.ofNat bytes.length) :: (bytes ++ rest)).length > 1 ∧
      ((0x80 + UInt8.ofNat bytes.length) :: (bytes ++ rest)).getD 1 0 < 128) := by
    rintro ⟨isOne,_,small⟩
    have lengthOne : bytes.length = 1 := by
      rw [← sizeNat,isOne]
      rfl
    obtain ⟨byte,rfl⟩ := length_eq_one_iff.mp lengthOne
    rw [selfEncoded,decide_eq_false_iff_not] at headed
    exact headed small
  have tag : readRawTag ((0x80 + UInt8.ofNat bytes.length) :: (bytes ++ rest))
      (0x80 + UInt8.ofNat bytes.length) = .ok (.string, 1, UInt64.ofNat bytes.length) := by
    rw [readRawTag,if_neg notByte,if_pos shortTag,sizeEq]
    exact if_neg canonical
  have fits : (1 : UInt64).toNat + (UInt64.ofNat bytes.length).toNat ≤
      ((0x80 + UInt8.ofNat bytes.length) :: (bytes ++ rest)).length := by
    rw [sizeNat,length_cons,length_append]
    change 1 + bytes.length ≤ _
    omega
  have halves := split_of_tag tag bounded fits
  rw [sizeNat,show (1 : UInt64).toNat = 1 from rfl,add_comm 1,drop_succ_cons,
    drop_zero,drop_succ_cons,take_left,drop_left] at halves
  rw [splitString,halves]
  rfl

theorem contentUint64_minimal (x : UInt64) : contentUint64 (minimal x.toNat) = .ok x := by
  have short : (minimal x.toNat).length ≤ 8 := minimal_length_le_iff.mpr x.toNat_lt
  have valueEq := value_minimal x.toNat
  have canonical := minimal_noLeadingZero x.toNat
  generalize minimal x.toNat = content at short valueEq canonical
  match content with
  | [] =>
    have isZero : x = 0 := UInt64.toNat_inj.mp valueEq.symm
    rw [isZero,contentUint64]
  | [byte] =>
    have nonzero : byte ≠ 0 := by
      intro isZero
      exact canonical (congrArg some isZero)
    have sameByte : byte.toUInt64 = x := by
      apply UInt64.toNat_inj.mp
      rw [toNat_toUInt64,← valueEq,value_singleton]
    rw [contentUint64,if_neg nonzero,sameByte]
  | first :: second :: rest =>
    have nonzero : first ≠ 0 := by
      intro isZero
      exact canonical (congrArg some isZero)
    have lengthEq : (UInt8.ofNat (first :: second :: rest).length).toNat =
        (first :: second :: rest).length := by
      rw [toNat_ofNat']
      omega
    have large : 56 ≤ x.toNat := by
      have low : 256 ^ (second :: rest).length ≤ value (first :: second :: rest) :=
        pow_le_value nonzero
      have byteLow : 256 ^ 1 ≤ 256 ^ (second :: rest).length :=
        Nat.pow_le_pow_right (by decide) (succ_le_succ (zero_le _))
      rw [valueEq] at low
      omega
    have readEq : readSize (first :: second :: rest)
        (UInt8.ofNat (first :: second :: rest).length) = .ok x := by
      rw [readSize,lengthEq,if_neg (lt_irrefl _),take_length,valueEq,UInt64.ofNat_toNat]
      apply if_neg
      rintro (small | isZero)
      · exact absurd large (not_le.mpr small)
      · exact nonzero isZero
    rw [contentUint64,if_neg (not_lt.mpr short),readEq]
    · exact cons_ne_nil _ _
    · simp

theorem splitUint64_encode {x : UInt64} {rest : List UInt8}
    (bounded : (encodeString (minimal x.toNat) ++ rest).length < 2 ^ 64) :
    splitUint64 (encodeString (minimal x.toNat) ++ rest) = .ok (x, rest) := by
  have short : (minimal x.toNat).length ≤ 8 := minimal_length_le_iff.mpr x.toNat_lt
  have halves : splitString (encodeString (minimal x.toNat) ++ rest) =
      .ok (minimal x.toNat, rest) := by
    rcases encodeString_cases (minimal x.toNat) with ⟨byte,single,small,encodeEq⟩ | ⟨headed,_⟩
    · rw [encodeEq] at bounded ⊢
      rw [single]
      exact splitString_byte small bounded
    · rw [encodeString_of_not_selfEncoded headed,append_assoc] at bounded ⊢
      exact splitString_headed (by omega) headed bounded
  rw [splitUint64,halves]
  change (do
    let x ← contentUint64 (minimal x.toNat)
    pure (x, rest) : Except DecodeErr (UInt64 × List UInt8)) = _
  rw [contentUint64_minimal]
  rfl

end PioplatRelay.Rlp
