import PioplatRelay.RlpBijection

/-!
# Decoders of Go types

The reflective part of the package builds a decoder for every type: unsigned and
big integers, byte slices and arrays, pointers that may be nil, slices and
structs.  Each of them is a codec.
-/

namespace PioplatRelay.Rlp

open BigEndian Decoder UInt64 Plain Option
open Rlp.Stream

variable {α β : Type}

/-! ### Decoders -/

def decodeUint64 : Decoder UInt64 := (Stream.uint 64).mapErr (wrapStreamError "uint64")

/-- `decodeBigInt` for `*big.Int`; a nil pointer is replaced by a new integer. -/
def decodeBigIntPtr : Decoder Nat := Stream.decodeBigInt.mapErr (wrapStreamError "*big.Int")

def decodeByteSlice : Decoder (List UInt8) := Stream.bytes.mapErr (wrapStreamError "[]uint8")

def fillArray (length : Nat) (bytes : List UInt8) : Vector UInt8 length :=
  Vector.ofFn fun index => bytes.getD index 0

variable (typ : String)

def decodeByteArray (length : Nat) : Decoder (Vector UInt8 length) := do
  let (kind, size) ← Stream.kind
  match kind with
  | .byte =>
    if length = 0 then fail (.decodeError "input string too long" typ [])
    else if length > 1 then fail (.decodeError "input string too short" typ [])
    else do
      let byte ← takeByteval
      pure (fillArray length [byte])
  | .string =>
    if length < size.toNat then fail (.decodeError "input string too long" typ [])
    else if length > size.toNat then fail (.decodeError "input string too short" typ [])
    else do
      let bytes ← (readString size).mapErr (wrapStreamError typ)
      pure (fillArray length bytes)
  | .list => fail (wrapStreamError typ .expectedString)

def Kind.text : Kind → String
  | .byte => "Byte"
  | .string => "String"
  | .list => "List"

/-- `makeNilPtrDecoder`: an empty value of the right kind is a nil pointer. -/
def decodeNilPtr (nilKind : Kind) (elemdec : Decoder α) : Decoder (Option α) := do
  let (kind, size) ← Stream.kind.mapErr (wrapStreamError typ)
  if kind ≠ .byte ∧ size = 0 then
    if kind ≠ nilKind then
      fail (.decodeError
        ("wrong kind of empty value (got " ++ kind.text ++ ", want " ++ nilKind.text ++ ")") typ [])
    else do
      rearm
      pure none
  else do
    let value ← elemdec
    pure (some value)

/-- A field of a struct: the end of the list means that elements are missing. -/
def decodeField (typ name : String) (decoder : Decoder α) : Decoder α :=
  decoder.mapErr fun error =>
    if error = .eol then .decodeError "too few elements" typ []
    else addErrorContext ("." ++ name) error

/-- `makeStructDecoder`: the fields between the ends of a list. -/
def decodeStruct (fields : Decoder α) : Decoder α :=
  decodeEnclosed typ (wrapStreamError typ) fun _ => fields

/-! ### Codecs of integers -/

variable {encode : α → List UInt8} {decoder : Decoder α} {bound : Nat} {byte : UInt8} {number : Nat}
  {bytes : List UInt8} {length : Nat} {payload : α → List UInt8} {fields : Decoder α}

theorem Codec.of_le {bound less : Nat}
    (codec : Codec bound encode decoder) (le : less ≤ bound) : Codec less encode decoder where
  nonempty := codec.nonempty
  complete := fun ready short => codec.complete ready (short.trans_le le)
  sound := fun ready short => codec.sound ready (short.trans_le le)
  errors := fun ready short => codec.errors ready (short.trans_le le)
  atEnd := fun ready short => codec.atEnd ready (short.trans_le le)

theorem Codec.mapErr {change : DecodeErr → DecodeErr} (codec : Codec bound encode decoder)
    (keepsEol : change .eol = .eol) (keepsPlain : ∀ error, error.Plain → (change error).Plain) :
    Codec bound encode (decoder.mapErr change) where
  nonempty := codec.nonempty
  complete := by
    intro s value rest ready short input allows
    obtain ⟨after,ran,consumed⟩ := codec.complete ready short input allows
    exact ⟨after,mapErr_of_ok ran,consumed⟩
  sound := by
    intro s after value ready short ran
    exact codec.sound ready short (mapErr_eq_ok_iff.mp ran)
  errors := by
    intro s after error ready short failed
    obtain ⟨cause,causeFailed,rfl⟩ := exists_of_mapErr_err failed
    rcases codec.errors ready short causeFailed with ⟨rfl,afterEq,atEnd⟩ | plain
    · exact .inl ⟨keepsEol,afterEq,atEnd⟩
    · exact .inr (keepsPlain cause plain)
  atEnd := by
    intro s ready short atEnd
    rw [Decoder.mapErr,codec.atEnd ready short atEnd]
    simp [keepsEol]

theorem Codec.wrapped (typ : String) (codec : Codec bound encode decoder) :
    Codec bound encode (decoder.mapErr (wrapStreamError typ)) :=
  codec.mapErr rfl fun _ => wrapStreamError_plain typ

theorem minimal_toNat (nonzero : byte ≠ 0) : minimal byte.toNat = [byte] := by
  have canonical : NoLeadingZero [byte] := by
    intro isZero
    exact nonzero (some.inj isZero)
  rw [← value_singleton,minimal_value canonical]

theorem toNat_of_minimal_eq (single : minimal number = [byte]) :
    byte.toNat = number ∧ byte ≠ 0 := by
  constructor
  · rw [← value_singleton,← single,value_minimal]
  · intro isZero
    have canonical := minimal_noLeadingZero number
    rw [single,isZero] at canonical
    exact canonical rfl

theorem selfEncoded_minimal_eq_false_iff :
    selfEncoded (minimal number) = false ↔ number = 0 ∨ 128 ≤ number := by
  rw [Bool.eq_false_iff,Ne,EncBuffer.selfEncoded_minimal_iff]
  omega

/-- Bytes behind a header are the string of their number, if they have no leading
zero and their number is not its own encoding. -/
theorem encodeString_minimal (valueEq : number = value bytes) (canonical : NoLeadingZero bytes)
    (large : 0 < bytes.length → 128 ≤ number) : minimal number = bytes ∧
      encodeString (minimal number) = stringHeader bytes.length ++ bytes := by
  have bytesEq : minimal number = bytes := by rw [valueEq,minimal_value canonical]
  have headed : selfEncoded (minimal number) = false := by
    rw [selfEncoded_minimal_eq_false_iff]
    rcases Nat.eq_zero_or_pos bytes.length with none | some
    · left
      rw [valueEq,List.length_eq_zero_iff.mp none,value_nil]
    · exact .inr (large some)
  refine ⟨bytesEq,?_⟩
  rw [encodeString_of_not_selfEncoded headed,bytesEq]

theorem uint_codec (bound : Nat) :
    Codec bound (fun number : UInt64 => encodeString (minimal number.toNat)) (Stream.uint 64) := by
  apply Codec.of_string fun number : UInt64 => minimal number.toNat
  · intro number s single _
    obtain ⟨byteEq,nonzero⟩ := toNat_of_minimal_eq single
    have numberEq : s.byteval.toUInt64 = number := by
      apply UInt64.toNat_inj.mp
      rw [UInt8.toNat_toUInt64,byteEq]
    change takeByteUint s = _
    rw [takeByteUint,if_neg nonzero,numberEq]
  · intro number s rest limited headed input lengthEq allows
    have lengthLe : (minimal number.toNat).length ≤ 8 :=
      minimal_length_le_iff.mpr number.toNat_lt
    have fitsWord : ¬ UInt64.ofNat (minimal number.toNat).length > 64 / 8 := by
      rw [gt_iff_lt,lt_iff_toNat_lt,← lengthEq]
      exact Nat.not_lt.mpr lengthLe
    have byteEq : (minimal number.toNat).length =
        (UInt64.ofNat (minimal number.toNat).length).toUInt8.toNat := by
      rw [toNat_toUInt8,← lengthEq]
      omega
    obtain ⟨after,read,consumed,rearmed⟩ := readUint_complete limited byteEq
      (minimal_noLeadingZero _) input allows
    rw [value_minimal,UInt64.ofNat_toNat] at read
    refine ⟨after,?_,consumed,rearmed⟩
    simp only
    rw [if_neg fitsWord,bind_of_ok (mapErr_of_ok read),if_neg]
    · rfl
    · rintro ⟨positive,small⟩
      rcases selfEncoded_minimal_eq_false_iff.mp headed with isZero | large
      · rw [isZero,minimal_zero] at positive
        exact absurd positive (by decide)
      · exact absurd large (Nat.not_le.mpr small)
  · intro s after number _ ran
    change takeByteUint s = _ at ran
    rw [takeByteUint] at ran
    split at ran
    · cases ran
    · rename_i nonzero
      cases ran
      exact ⟨by rw [UInt8.toNat_toUInt64,minimal_toNat nonzero],rfl⟩
  · intro s after size number limited ran
    simp only at ran
    obtain ⟨fitsWord,ran⟩ := ite_fail_eq_ok_iff.mp ran
    have sizeLe : size.toNat ≤ 8 := by exact Nat.le_of_not_lt fitsWord
    obtain ⟨read,between,readEq,checked⟩ := exists_of_bind_ok ran
    have byteEq : size.toUInt8.toNat = size.toNat := by
      rw [toNat_toUInt8]
      omega
    have byteLe : size.toUInt8 ≤ 8 := by
      rw [UInt8.le_iff_toNat_le,byteEq]
      exact sizeLe
    obtain ⟨bytes,lengthEq,consumed,rearmed,_,valueEq,canonical⟩ :=
      readUint_sound limited byteLe (mapErr_eq_ok_iff.mp readEq)
    rw [byteEq] at lengthEq
    obtain ⟨large,checked⟩ := ite_fail_eq_ok_iff.mp checked
    cases checked
    have nonemptyLarge : 0 < bytes.length → 128 ≤ number.toNat := by
      intro positive
      rw [not_and,UInt64.not_lt] at large
      exact large (by rw [gt_iff_lt,lt_iff_toNat_lt,← lengthEq]; exact positive)
    have noZero := noLeadingZero_of_value canonical fun positive => by
      have := nonemptyLarge positive
      omega
    obtain ⟨bytesEq,encodeEq⟩ := encodeString_minimal valueEq noZero nonemptyLarge
    rw [encodeEq,bytesEq,lengthEq]
    exact ⟨rfl,consumed,rearmed⟩
  · intro size s number after ran
    cases ran
  · rintro ⟨kind,size⟩
    cases kind with
    | byte =>
      intro s error after failed
      change takeByteUint s = _ at failed
      rw [takeByteUint] at failed
      split at failed
      · cases failed
        decide
      · cases failed
    | string =>
      apply Plain.ite (fail (by decide))
      apply ((readUint_plain _).mapErr _).bind
      · intro number
        exact Plain.ite (fail (by decide)) (pure _)
      · intro error plain
        split
        · decide
        · exact plain
    | list => exact fail (by decide)

theorem bigInt_codec (bound : Nat) :
    Codec bound (fun number : Nat => encodeString (minimal number)) Stream.decodeBigInt := by
  apply Codec.of_string minimal
  · intro number s single _
    obtain ⟨byteEq,nonzero⟩ := toNat_of_minimal_eq single
    have noZero : ([s.byteval] : List UInt8).head? ≠ some 0 := by
      intro isZero
      exact nonzero (some.inj isZero)
    have taken : (do
        let byte ← takeByteval
        pure [byte] : Decoder (List UInt8)) s = .ok [s.byteval] { s with kindAhead := none } := rfl
    simp only
    rw [bind_of_ok taken,if_neg noZero,value_singleton,byteEq]
    rfl
  · intro number s rest limited headed input lengthEq allows
    have canonical := minimal_noLeadingZero number
    simp only
    by_cases empty : UInt64.ofNat (minimal number).length = 0
    · have noBytes : minimal number = [] := by
        rw [← List.length_eq_zero_iff,lengthEq,empty]
        rfl
      have zero : number = 0 := by rw [← value_minimal number,noBytes,value_nil]
      subst zero
      exact ⟨{ s with kindAhead := none },rfl,Consumed.nil limited rfl rfl rfl,rfl⟩
    · rw [if_neg empty]
      split
      · obtain ⟨after,read,consumed,rearmed⟩ :=
          readString_complete limited headed lengthEq input allows
        refine ⟨after,?_,consumed,rearmed⟩
        rw [bind_of_ok read,if_neg canonical,value_minimal]
        rfl
      · rw [lengthEq] at allows
        obtain ⟨after,read,consumed,rearmed⟩ :=
          readFull_complete limited input lengthEq allows
        refine ⟨after,?_,consumed,rearmed⟩
        rw [bind_of_ok read,if_neg canonical,value_minimal]
        rfl
  · intro s after number _ ran
    obtain ⟨buffer,between,taken,checked⟩ := exists_of_bind_ok ran
    cases taken
    obtain ⟨noZero,checked⟩ := ite_fail_eq_ok_iff.mp checked
    cases checked
    exact ⟨minimal_value noZero,rfl⟩
  · intro s after size number limited ran
    obtain ⟨buffer,between,taken,checked⟩ := exists_of_bind_ok ran
    obtain ⟨noZero,checked⟩ := ite_fail_eq_ok_iff.mp checked
    cases checked
    rw [minimal_value noZero]
    simp only at taken
    split at taken
    · rename_i empty
      cases taken
      rw [empty]
      exact ⟨rfl,Consumed.nil limited rfl rfl rfl,rfl⟩
    · split at taken
      · exact readString_sound limited taken
      · rename_i large
        obtain ⟨lengthEq,_,consumed,rearmed,_⟩ := readFull_sound limited taken
        have long : 32 < buffer.length := by
          rw [UInt64.not_le,lt_iff_toNat_lt] at large
          rw [lengthEq]
          exact large
        have headed : selfEncoded buffer = false := by
          unfold selfEncoded
          split
          · simp at long
          · rfl
        rw [encodeString_of_not_selfEncoded headed,lengthEq]
        exact ⟨rfl,consumed,rearmed⟩
  · intro size s number after ran
    obtain ⟨buffer,between,taken,_⟩ := exists_of_bind_ok ran
    cases taken
  · rintro ⟨kind,size⟩
    apply Plain.bind
    · cases kind with
      | byte =>
        intro s error after failed
        cases failed
      | string =>
        apply Plain.ite
        · intro s error after failed
          cases failed
        · exact Plain.ite (readString_plain size) (readFull_plain size)
      | list => exact fail (by decide)
    · intro buffer
      exact Plain.ite (fail (by decide)) (pure _)

/-! ### Codecs of arrays and pointers -/

@[simp]
theorem fillArray_toList (array : Vector UInt8 length) : fillArray length array.toList = array := by
  apply Vector.ext
  intro index bound
  simp [fillArray]

theorem toList_fillArray (lengthEq : bytes.length = length) :
    (fillArray length bytes).toList = bytes := by
  subst lengthEq
  apply List.ext_getElem
  · simp
  · intro index _ bound
    simp [fillArray]

theorem byteArray_codec (length bound : Nat) :
    Codec bound (fun array : Vector UInt8 length => encodeString array.toList)
      (decodeByteArray typ length) := by
  apply Codec.of_string fun array : Vector UInt8 length => array.toList
  · intro array s single _
    have lengthOne : length = 1 := by
      have lengths := congrArg List.length single
      simpa using lengths
    subst lengthOne
    have taken : (do
        let byte ← takeByteval
        pure (fillArray 1 [byte]) : Decoder (Vector UInt8 1)) s =
          .ok (fillArray 1 [s.byteval]) { s with kindAhead := none } := rfl
    rw [← single,fillArray_toList] at taken
    exact taken
  · intro array s rest limited headed input lengthEq allows
    have sizeEq : (UInt64.ofNat array.toList.length).toNat = length := by
      rw [← lengthEq,Vector.length_toList]
    obtain ⟨after,read,consumed,rearmed⟩ :=
      readString_complete limited headed lengthEq input allows
    refine ⟨after,?_,consumed,rearmed⟩
    simp only
    rw [if_neg (by omega),if_neg (by omega),bind_of_ok (mapErr_of_ok read),fillArray_toList]
    rfl
  · intro s after array _ ran
    obtain ⟨notLess,ran⟩ := ite_fail_eq_ok_iff.mp ran
    obtain ⟨notMore,ran⟩ := ite_fail_eq_ok_iff.mp ran
    obtain rfl : length = 1 := by omega
    cases ran
    exact ⟨toList_fillArray rfl,rfl⟩
  · intro s after size array limited ran
    obtain ⟨notLess,ran⟩ := ite_fail_eq_ok_iff.mp ran
    obtain ⟨notMore,ran⟩ := ite_fail_eq_ok_iff.mp ran
    obtain ⟨bytes,between,readEq,finish⟩ := exists_of_bind_ok ran
    cases finish
    have read := mapErr_eq_ok_iff.mp readEq
    obtain ⟨encodeEq,consumed,rearmed⟩ := readString_sound limited read
    obtain ⟨full,_,fullEq,checked⟩ := exists_of_bind_ok read
    have fullLength := (readFull_sound limited fullEq).1
    obtain ⟨-,checked⟩ := ite_fail_eq_ok_iff.mp checked
    cases checked
    rw [toList_fillArray (by omega)]
    exact ⟨encodeEq,consumed,rearmed⟩
  · intro size s array after ran
    cases ran
  · rintro ⟨kind,size⟩
    have failPlain : ∀ msg : String, (DecodeErr.decodeError msg typ []).Plain := by
      intro msg
      exact ⟨by simp,by simp⟩
    cases kind with
    | byte =>
      apply Plain.ite (fail (failPlain _))
      apply Plain.ite (fail (failPlain _))
      intro s error after failed
      cases failed
    | string =>
      apply Plain.ite (fail (failPlain _))
      apply Plain.ite (fail (failPlain _))
      apply ((readString_plain size).mapErr fun _ => wrapStreamError_plain typ).bind
      intro bytes
      exact pure _
    | list => exact fail (failPlain _)

theorem byteArray_startsWithKind (length : Nat) :
    StartsWithKind (decodeByteArray typ length) :=
  startsWithKind_bind _

/-- The encoding of a pointer whose nil value is the empty string. -/
def encodeNilPtr (encode : α → List UInt8) : Option α → List UInt8
  | none => [0x80]
  | some value => encode value

section NilPtr

variable {bound : Nat} {toBytes : α → List UInt8} {elemdec : Decoder α} {typ : String}

theorem decodeNilPtr_of_value {s between : Stream} {kind : Kind} {size : UInt64}
    (ready : s.Ready) (starts : StartsWithKind elemdec)
    (header : Stream.kind s = .ok (kind, size) between) (notEmpty : ¬ (kind ≠ .byte ∧ size = 0)) :
    decodeNilPtr typ .string elemdec s =
      (do let value ← elemdec
          pure (some value) : Decoder (Option α)) s := by
  rw [decodeNilPtr,bind_of_ok (mapErr_of_ok header)]
  simp only
  rw [if_neg notEmpty]
  exact bind_congr (starts ready header)

theorem kind_of_encodeString {s : Stream} {bytes rest : List UInt8} (ready : s.Ready)
    (headed : selfEncoded bytes = false) (input : s.input = encodeString bytes ++ rest)
    (allows : s.Allows (encodeString bytes).length) :
    ∃ size between, Stream.kind s = .ok (.string, size) between ∧ bytes.length = size.toNat := by
  have bounded := allows.remaining.trans_lt s.remaining.toNat_lt
  obtain ⟨encodeEq,lengthEq⟩ := encodeString_headed headed bounded
  rw [encodeEq,List.append_assoc] at input
  rw [encodeEq,List.length_append] at allows
  obtain ⟨between,kindEq,_⟩ := kind_complete ready input (by simp) (by rwa [← lengthEq])
  exact ⟨_,between,kindEq,lengthEq⟩

theorem exists_kind_of_encodeString {s : Stream} {bytes rest : List UInt8} (ready : s.Ready)
    (nonempty : bytes ≠ []) (input : s.input = encodeString bytes ++ rest)
    (allows : s.Allows (encodeString bytes).length) :
    ∃ kind size between, Stream.kind s = .ok (kind, size) between ∧
      ¬ (kind ≠ .byte ∧ size = 0) := by
  rcases encodeString_cases bytes with ⟨byte,rfl,small,encodeEq⟩ | ⟨headed,_⟩
  · rw [encodeEq] at input allows
    have header : ∃ between, Stream.kind s = .ok (.byte, 0) between ∧
        Consumed s between [byte] ∧ between.Ahead .byte 0 ∧
        (Kind.byte = .byte → between.byteval = byte) :=
      kind_complete ready input (fun _ => ⟨rfl,small⟩) allows
    obtain ⟨between,kindEq,_⟩ := header
    exact ⟨.byte,0,between,kindEq,by simp⟩
  · obtain ⟨size,between,kindEq,lengthEq⟩ := kind_of_encodeString ready headed input allows
    refine ⟨.string,size,between,kindEq,?_⟩
    rintro ⟨_,isZero⟩
    rw [isZero] at lengthEq
    exact nonempty (List.length_eq_zero_iff.mp lengthEq)

theorem nilPtr_codec (typ : String) (nonempty : ∀ value, toBytes value ≠ [])
    (codec : Codec bound (fun value => encodeString (toBytes value)) elemdec)
    (starts : StartsWithKind elemdec) :
    Codec bound (encodeNilPtr fun value => encodeString (toBytes value))
      (decodeNilPtr typ .string elemdec) where
  nonempty := by
    intro pointer
    cases pointer with
    | none => exact List.cons_ne_nil _ _
    | some value => exact encodeString_ne_nil _
  complete := by
    intro s pointer rest ready short input allows
    cases pointer with
    | none =>
      have header : ∃ between, Stream.kind s = .ok (.string, 0) between ∧
          Consumed s between [0x80] ∧ between.Ahead .string 0 ∧
          (Kind.string = .byte → between.byteval = 0) :=
        kind_complete ready input (by simp) allows
      obtain ⟨between,kindEq,consumed,_⟩ := header
      refine ⟨{ between with kindAhead := none },?_,consumed.congr_right rfl rfl rfl rfl,rfl⟩
      rw [decodeNilPtr,bind_of_ok (mapErr_of_ok kindEq)]
      rfl
    | some value =>
      obtain ⟨kind,size,between,header,notEmpty⟩ :=
        exists_kind_of_encodeString ready (nonempty value) input allows
      obtain ⟨after,read,consumed⟩ := codec.complete ready short input allows
      refine ⟨after,?_,consumed⟩
      rw [decodeNilPtr_of_value ready starts header notEmpty,bind_of_ok read]
      rfl
  sound := by
    intro s after pointer ready short ran
    obtain ⟨⟨kind,size⟩,between,headerEq,rest⟩ := exists_of_bind_ok ran
    have header := mapErr_eq_ok_iff.mp headerEq
    by_cases empty : kind ≠ .byte ∧ size = 0
    · simp only at rest
      rw [if_pos empty] at rest
      obtain ⟨isString,rest⟩ := ite_fail_eq_ok_iff.mp rest
      cases rest
      obtain ⟨consumed,_⟩ := kind_sound ready header
      rw [not_not.mp isString,empty.2] at consumed
      exact ⟨consumed.congr_right rfl rfl rfl rfl,rfl⟩
    · rw [decodeNilPtr_of_value ready starts header empty] at ran
      obtain ⟨value,read,valueRan,finish⟩ := exists_of_bind_ok ran
      cases finish
      exact codec.sound ready short valueRan
  errors := by
    intro s after error ready short failed
    cases header : Stream.kind s with
    | err cause between =>
      rw [decodeNilPtr,bind_of_err (by rw [Decoder.mapErr,header])] at failed
      cases failed
      rcases kind_err_cases ready header with ⟨rfl,afterEq,atEnd⟩ | plain
      · exact .inl ⟨rfl,afterEq,atEnd⟩
      · exact .inr (wrapStreamError_plain typ plain)
    | ok pair between =>
      obtain ⟨kind,size⟩ := pair
      by_cases empty : kind ≠ .byte ∧ size = 0
      · rw [decodeNilPtr,bind_of_ok (mapErr_of_ok header)] at failed
        simp only at failed
        rw [if_pos empty] at failed
        split at failed
        · cases failed
          exact .inr ⟨by simp,by simp⟩
        · cases failed
      · rw [decodeNilPtr_of_value ready starts header empty] at failed
        rcases bind_err_cases failed with valueFailed | ⟨_,_,_,finish⟩
        · exact codec.errors ready short valueFailed
        · cases finish
  atEnd := by
    intro s ready _ atEnd
    rw [decodeNilPtr,bind_of_err]
    rw [Decoder.mapErr,kind_at_end ready atEnd]
    rfl

end NilPtr

/-! ### Codecs of structs -/

/-- Fields one after the other; the end of the list is an error in them. -/
structure Fields (bound : Nat) (payload : α → List UInt8) (fields : Decoder α) : Prop where
  complete : ∀ {s : Stream} {value : α} {rest : List UInt8}, s.Ready →
    s.input.length < bound → s.input = payload value ++ rest → s.Allows (payload value).length →
    ∃ after, fields s = .ok value after ∧ Consumed s after (payload value) ∧
      after.kindAhead = none
  sound : ∀ {s after : Stream} {value : α}, s.Ready → s.input.length < bound →
    fields s = .ok value after → Consumed s after (payload value) ∧ after.kindAhead = none
  plain : ∀ {s after : Stream} {error : DecodeErr}, s.Ready → s.input.length < bound →
    fields s = .err error after → error.Plain

theorem Codec.field (typ name : String) (codec : Codec bound encode decoder) :
    Fields bound encode (decodeField typ name decoder) where
  complete := by
    intro s value rest ready short input allows
    obtain ⟨after,ran,consumed⟩ := codec.complete ready short input allows
    exact ⟨after,mapErr_of_ok ran,consumed⟩
  sound := by
    intro s after value ready short ran
    exact codec.sound ready short (mapErr_eq_ok_iff.mp ran)
  plain := by
    intro s after error ready short failed
    obtain ⟨cause,causeFailed,rfl⟩ := exists_of_mapErr_err failed
    rcases codec.errors ready short causeFailed with ⟨rfl,_⟩ | plain
    · exact ⟨by simp,by simp⟩
    · rw [if_neg plain.1]
      exact addErrorContext_plain _ plain

def decodePair (first : Decoder α) (second : Decoder β) : Decoder (α × β) := do
  let a ← first
  let b ← second
  pure (a, b)

theorem Fields.pair {encodeFirst : α → List UInt8} {encodeSecond : β → List UInt8}
    {first : Decoder α} {second : Decoder β} (firstFields : Fields bound encodeFirst first)
    (secondFields : Fields bound encodeSecond second) :
    Fields bound (fun pair : α × β => encodeFirst pair.1 ++ encodeSecond pair.2)
      (decodePair first second) where
  complete := by
    intro s pair rest ready short input allows
    rw [List.append_assoc] at input
    rw [List.length_append] at allows
    obtain ⟨between,firstRan,consumed,rearmed⟩ :=
      firstFields.complete ready short input (allows.of_le (Nat.le_add_right _ _))
    have betweenInput : between.input = encodeSecond pair.2 ++ rest := consumed.rest_eq input
    have lengths := consumed.length_eq
    obtain ⟨after,secondRan,consumedLater,rearmedLater⟩ := secondFields.complete
      ⟨consumed.limited,rearmed⟩ (by omega) betweenInput (consumed.allows allows)
    refine ⟨after,?_,consumed.trans consumedLater,rearmedLater⟩
    rw [decodePair,bind_of_ok firstRan,bind_of_ok secondRan]
    rfl
  sound := by
    intro s after pair ready short ran
    obtain ⟨a,between,firstRan,rest⟩ := exists_of_bind_ok ran
    obtain ⟨b,read,secondRan,finish⟩ := exists_of_bind_ok rest
    cases finish
    obtain ⟨consumed,rearmed⟩ := firstFields.sound ready short firstRan
    have lengths := consumed.length_eq
    obtain ⟨consumedLater,rearmedLater⟩ :=
      secondFields.sound ⟨consumed.limited,rearmed⟩ (by omega) secondRan
    exact ⟨consumed.trans consumedLater,rearmedLater⟩
  plain := by
    intro s after error ready short failed
    rcases bind_err_cases failed with firstFailed | ⟨a,between,firstRan,rest⟩
    · exact firstFields.plain ready short firstFailed
    · obtain ⟨consumed,rearmed⟩ := firstFields.sound ready short firstRan
      have lengths := consumed.length_eq
      rcases bind_err_cases rest with secondFailed | ⟨b,read,_,finish⟩
      · exact secondFields.plain ⟨consumed.limited,rearmed⟩ (by omega) secondFailed
      · cases finish

theorem Fields.struct (typ : String) (codec : Fields bound payload fields) :
    Codec (bound + 1) (fun value => listHeader (payload value).length ++ payload value)
      (decodeStruct typ fields) := by
  apply Body.enclosed
  · intro error plain
    exact wrapStreamError_plain typ plain
  · constructor
    · intro s value rest ready short input allows _
      exact codec.complete ready short input allows
    · intro s after size value ready short _ ran
      exact codec.sound ready short ran
    · intro s after size error ready short failed
      exact codec.plain ready short failed

/-! ### Optional fields -/

/-- A field tagged as optional: at the end of the list it is left at its zero value. -/
def decodeOptional (name : String) (decoder : Decoder α) : Decoder (Option α) := fun s =>
  match decoder s with
  | .ok value after => .ok (some value) after
  | .err error after =>
    if error = .eol then .ok none after else .err (addErrorContext ("." ++ name) error) after

def encodeOptional (encode : α → List UInt8) : Option α → List UInt8
  | none => []
  | some value => encode value

section Optional

variable {bound : Nat} {encode : α → List UInt8} {decoder : Decoder α} {s after : Stream}

/-- A value that is left out must be at the end of the list, as what follows would be
read as the value. -/
theorem Codec.optional_complete (name : String) (codec : Codec bound encode decoder)
    {value : Option α} {rest : List UInt8} (ready : s.Ready) (short : s.input.length < bound)
    (input : s.input = encodeOptional encode value ++ rest)
    (allows : s.Allows (encodeOptional encode value).length)
    (limit : s.listLimit = some (UInt64.ofNat (encodeOptional encode value).length)) :
    ∃ after, decodeOptional name decoder s = .ok value after ∧
      Consumed s after (encodeOptional encode value) ∧ after.kindAhead = none := by
  cases value with
  | none =>
    refine ⟨s,?_,Consumed.nil ready.limited rfl rfl rfl,ready.rearmed⟩
    rw [decodeOptional,codec.atEnd ready short limit]
    exact if_pos rfl
  | some value =>
    obtain ⟨after,ran,consumed⟩ := codec.complete ready short input allows
    refine ⟨after,?_,consumed⟩
    rw [decodeOptional,ran]

theorem Codec.optional_sound (name : String) (codec : Codec bound encode decoder)
    {value : Option α} (ready : s.Ready) (short : s.input.length < bound)
    (ran : decodeOptional name decoder s = .ok value after) :
    Consumed s after (encodeOptional encode value) ∧ after.kindAhead = none := by
  rw [decodeOptional] at ran
  split at ran
  · rename_i found next foundRan
    cases ran
    exact codec.sound ready short foundRan
  · rename_i error next failed
    split at ran
    · rename_i isEol
      cases ran
      rcases codec.errors ready short failed with ⟨_,rfl,_⟩ | plain
      · exact ⟨Consumed.nil ready.limited rfl rfl rfl,ready.rearmed⟩
      · exact absurd isEol plain.1
    · cases ran

theorem Codec.optional_plain (name : String) (codec : Codec bound encode decoder)
    {error : DecodeErr} (ready : s.Ready) (short : s.input.length < bound)
    (failed : decodeOptional name decoder s = .err error after) : error.Plain := by
  rw [decodeOptional] at failed
  split at failed
  · cases failed
  · rename_i cause next causeFailed
    split at failed
    · cases failed
    · rename_i notEol
      cases failed
      rcases codec.errors ready short causeFailed with ⟨isEol,_⟩ | plain
      · exact absurd isEol notEol
      · exact addErrorContext_plain _ plain

end Optional

theorem Stream.Consumed.listLimit_eq {s after : Stream} (consumed : Consumed s after bytes) :
    after.listLimit = s.listLimit.map (· - UInt64.ofNat bytes.length) := by
  rw [listLimit,listLimit,consumed.stack]
  cases s.stack with
  | nil => rfl
  | cons limit rest => rfl

theorem Fields.structOptional {encode : β → List UInt8} {decoder : Decoder β} (typ name : String)
    (front : Fields bound payload fields) (last : Codec bound encode decoder) :
    Codec (bound + 1) (fun pair : α × Option β =>
        listHeader (payload pair.1 ++ encodeOptional encode pair.2).length ++
          (payload pair.1 ++ encodeOptional encode pair.2))
      (decodeStruct typ (decodePair fields (decodeOptional name decoder))) := by
  apply Body.enclosed
  · intro error plain
    exact wrapStreamError_plain typ plain
  · constructor
    · intro s pair rest ready short input allows limit
      rw [List.append_assoc] at input
      rw [List.length_append] at allows limit
      obtain ⟨between,frontRan,consumed,rearmed⟩ :=
        front.complete ready short input (allows.of_le (Nat.le_add_right _ _))
      have betweenInput : between.input = encodeOptional encode pair.2 ++ rest :=
        consumed.rest_eq input
      have lengths := consumed.length_eq
      have betweenLimit : between.listLimit =
          some (UInt64.ofNat (encodeOptional encode pair.2).length) := by
        rw [consumed.listLimit_eq,limit,map_some,ofNat_add,UInt64.add_comm,UInt64.add_sub_cancel]
      obtain ⟨after,lastRan,consumedLater,rearmedLater⟩ := last.optional_complete name
        ⟨consumed.limited,rearmed⟩ (by omega) betweenInput (consumed.allows allows) betweenLimit
      refine ⟨after,?_,consumed.trans consumedLater,rearmedLater⟩
      rw [decodePair,bind_of_ok frontRan,bind_of_ok lastRan]
      rfl
    · intro s after size pair ready short _ ran
      obtain ⟨a,between,frontRan,rest⟩ := exists_of_bind_ok ran
      obtain ⟨b,read,lastRan,finish⟩ := exists_of_bind_ok rest
      cases finish
      obtain ⟨consumed,rearmed⟩ := front.sound ready short frontRan
      have lengths := consumed.length_eq
      obtain ⟨consumedLater,rearmedLater⟩ :=
        last.optional_sound name ⟨consumed.limited,rearmed⟩ (by omega) lastRan
      exact ⟨consumed.trans consumedLater,rearmedLater⟩
    · intro s after size error ready short failed
      rcases bind_err_cases failed with frontFailed | ⟨a,between,frontRan,rest⟩
      · exact front.plain ready short frontFailed
      · obtain ⟨consumed,rearmed⟩ := front.sound ready short frontRan
        have lengths := consumed.length_eq
        rcases bind_err_cases rest with lastFailed | ⟨b,read,_,finish⟩
        · exact last.optional_plain name ⟨consumed.limited,rearmed⟩ (by omega) lastFailed
        · cases finish

instance : LawfulMonad Decoder :=
  LawfulMonad.mk' _
    (by
      intro α decoder
      funext s
      change (decoder >>= fun value => pure value) s = decoder s
      cases ran : decoder s with
      | ok value after =>
        rw [bind_of_ok ran]
        rfl
      | err error after => rw [bind_of_err ran])
    (fun _ _ => rfl)
    (by
      intro α β γ first second third
      funext s
      cases ran : first s with
      | ok value after =>
        rw [bind_of_ok ran]
        change (match (first >>= second) s with
          | .ok found next => third found next
          | .err error next => Result.err error next) = _
        rw [bind_of_ok ran]
        rfl
      | err error after =>
        rw [bind_of_err ran]
        exact bind_of_err (bind_of_err ran))

theorem decodeStruct_map (fields : Decoder α) (record : α → β) :
    (decodeStruct typ do
        let values ← fields
        pure (record values)) =
      (do let values ← decodeStruct typ fields
          pure (record values)) := by
  simp [decodeStruct,decodeEnclosed]

theorem Codec.map (codec : Codec bound encode decoder) (record : α → β) (values : β → α)
    (recordOf : ∀ value, record (values value) = value)
    (valuesOf : ∀ value, values (record value) = value) :
    Codec bound (fun value => encode (values value))
      (do let value ← decoder
          pure (record value)) where
  nonempty := fun value => codec.nonempty (values value)
  complete := by
    intro s value rest ready short input allows
    obtain ⟨after,ran,consumed⟩ := codec.complete ready short input allows
    refine ⟨after,?_,consumed⟩
    rw [bind_of_ok ran,recordOf]
    rfl
  sound := by
    intro s after value ready short ran
    obtain ⟨inner,between,innerRan,finish⟩ := exists_of_bind_ok ran
    cases finish
    rw [valuesOf]
    exact codec.sound ready short innerRan
  errors := by
    intro s after error ready short failed
    rcases bind_err_cases failed with innerFailed | ⟨_,_,_,finish⟩
    · exact codec.errors ready short innerFailed
    · cases finish
  atEnd := by
    intro s ready short atEnd
    exact bind_of_err (codec.atEnd ready short atEnd)

end PioplatRelay.Rlp
