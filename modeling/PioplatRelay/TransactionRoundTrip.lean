import PioplatRelay.TransactionCodec

/-!
# The two formats of transactions

What `UnmarshalBinary` and `DecodeRLP` accept is what `MarshalBinary` and
`EncodeRLP` give for the result, and a transaction that was encoded comes back with
zero for its nil integers and with the same hash.
-/

namespace PioplatRelay.Types

open BigEndian Rlp Decoder TxData Nat List Transaction
open Rlp.Stream

/-! ### Structs -/

theorem decodeBytes_map {α β : Type} (typ : String) (decoder : Decoder α) (record : α → β)
    (bytes : List UInt8) :
    decodeBytes typ (do
      let value ← decoder
      pure (record value)) bytes = (decodeBytes typ decoder bytes).map record := by
  cases ran : decoder (Stream.reset bytes) with
  | ok value after =>
    have mapped : (do
        let value ← decoder
        pure (record value) : Decoder β) (Stream.reset bytes) = .ok (record value) after := by
      rw [bind_of_ok ran]
      rfl
    rw [decodeBytes,decodeBytes,decode_eq_ok_iff.mpr ran,decode_eq_ok_iff.mpr mapped]
    simp only
    split <;> rfl
  | err error after =>
    rw [decodeBytes,decodeBytes,decode,decode,mapErr,mapErr,ran,bind_of_err ran]
    rfl

theorem exists_of_map_ok {α β : Type} {found : Except DecodeErr α} {record : α → β} {value : β}
    (mapped : found.map record = .ok value) :
    ∃ inner, found = .ok inner ∧ record inner = value := by
  cases found with
  | error error => cases mapped
  | ok inner => exact ⟨inner,rfl,Except.ok.inj mapped⟩

theorem map_ne_outOfFuel {α β : Type} {found : Except DecodeErr α} {record : α → β}
    (inFuel : found ≠ .error .outOfFuel) : found.map record ≠ .error .outOfFuel := by
  intro same
  cases found with
  | error error => exact inFuel (congrArg Except.error (Except.error.inj same))
  | ok inner => cases same

namespace InnerCodec

variable {T V : Type} {encode : V → List UInt8} {values : T → V} {ofValues : V → T}
  {writer : T → TypeWriter} {decoder : Decoder T} {normal : T → T} {noNegative : T → Prop}
  {tx : T} {bytes : List UInt8} {typ : String} {s after : Stream}
  (codec : InnerCodec encode values ofValues writer decoder normal noNegative)

include codec

theorem decodeBytes_encode (typ : String) (valid : noNegative tx)
    (bounded : (encode (values tx)).length < 2 ^ 64) :
    decodeBytes typ decoder (encode (values tx)) = .ok (normal tx) := by
  obtain ⟨decodeValues,decoderEq,valuesCodec⟩ := codec.decodes
  rw [decoderEq,decodeBytes_map,(valuesCodec _).decodeBytes_encode typ (lt_succ_self _) bounded]
  exact congrArg Except.ok (codec.ofValues_values tx valid)

theorem ofValues_facts (found : V) :
    noNegative (ofValues found) ∧ normal (ofValues found) = ofValues found ∧
      encode (values (ofValues found)) = encode found := by
  have valid := codec.noNegative_ofValues found
  refine ⟨valid,?_,by rw [codec.values_ofValues]⟩
  rw [← codec.ofValues_values _ valid,codec.values_ofValues]

theorem of_decodeBytes (accepted : decodeBytes typ decoder bytes = .ok tx) :
    noNegative tx ∧ normal tx = tx ∧ encode (values tx) = bytes := by
  obtain ⟨decodeValues,decoderEq,valuesCodec⟩ := codec.decodes
  rw [decoderEq,decodeBytes_map] at accepted
  obtain ⟨found,foundEq,rfl⟩ := exists_of_map_ok accepted
  rw [← (valuesCodec _).eq_encode_of_decodeBytes (lt_succ_self _) foundEq]
  exact codec.ofValues_facts found

theorem decodeBytes_ne_outOfFuel : decodeBytes typ decoder bytes ≠ .error .outOfFuel := by
  obtain ⟨decodeValues,decoderEq,valuesCodec⟩ := codec.decodes
  rw [decoderEq,decodeBytes_map]
  exact map_ne_outOfFuel ((valuesCodec _).decodeBytes_ne_outOfFuel (lt_succ_self _))

theorem complete {s : Stream} {rest : List UInt8} (ready : s.Ready) (valid : noNegative tx)
    (input : s.input = encode (values tx) ++ rest) (allows : s.Allows (encode (values tx)).length) :
    ∃ after, decoder s = .ok (normal tx) after ∧ Consumed s after (encode (values tx)) ∧
      after.kindAhead = none := by
  obtain ⟨decodeValues,decoderEq,valuesCodec⟩ := codec.decodes
  obtain ⟨after,ran,consumed⟩ :=
    (valuesCodec _).complete ready (lt_succ_self _) input allows
  refine ⟨after,?_,consumed⟩
  rw [decoderEq,bind_of_ok ran,codec.ofValues_values tx valid]
  rfl

theorem sound (ready : s.Ready) (ran : decoder s = .ok tx after) :
    noNegative tx ∧ normal tx = tx ∧ Consumed s after (encode (values tx)) ∧
      after.kindAhead = none := by
  obtain ⟨decodeValues,decoderEq,valuesCodec⟩ := codec.decodes
  rw [decoderEq] at ran
  obtain ⟨found,between,foundRan,finish⟩ := exists_of_bind_ok ran
  cases finish
  obtain ⟨valid,normalEq,encodeEq⟩ := codec.ofValues_facts found
  rw [encodeEq]
  exact ⟨valid,normalEq,(valuesCodec _).sound ready (lt_succ_self _) foundRan⟩

theorem ne_outOfFuel (ready : s.Ready) : decoder s ≠ .err .outOfFuel after := by
  obtain ⟨decodeValues,decoderEq,valuesCodec⟩ := codec.decodes
  rw [decoderEq]
  intro failed
  rcases bind_err_cases failed with valuesFailed | ⟨_,_,_,finish⟩
  · rcases (valuesCodec _).errors ready (lt_succ_self _) valuesFailed with ⟨isEol,_⟩ | plain
    · cases isEol
    · exact plain.2 rfl
  · cases finish

end InnerCodec

/-! ### Transactions as bytes -/

namespace TxData

def body : TxData → List UInt8
  | legacy tx => encodeLegacy tx.values
  | accessList tx => encodeAccessListValues tx.values
  | dynamicFee tx => encodeDynamicFee tx.values

def binary : TxData → List UInt8
  | legacy tx => (legacy tx).body
  | accessList tx => accessListTxType :: (accessList tx).body
  | dynamicFee tx => dynamicFeeTxType :: (dynamicFee tx).body

def wrapped : TxData → List UInt8
  | legacy tx => (legacy tx).body
  | accessList tx => encodeString (accessList tx).binary
  | dynamicFee tx => encodeString (dynamicFee tx).binary

theorem accessList_typed (tx : AccessListTx) : (accessList tx).txType ≠ legacyTxType := by
  rw [txType]
  decide

theorem dynamicFee_typed (tx : DynamicFeeTx) : (dynamicFee tx).txType ≠ legacyTxType := by
  rw [txType]
  decide

theorem writer_writes (tx : TxData) : tx.writer.Writes tx.body tx.NoNegative := by
  cases tx with
  | legacy tx => exact legacy_codec.writes tx
  | accessList tx => exact accessList_codec.writes tx
  | dynamicFee tx => exact dynamicFee_codec.writes tx

variable {tx : TxData} {s : Stream}

theorem marshalBinary_eq (valid : tx.NoNegative) : marshalBinary tx = .ok tx.binary := by
  cases tx with
  | legacy tx => exact (legacy_codec.writes tx).toBytes_eq valid
  | accessList tx => exact (accessList_codec.writes tx).toBuffer_eq valid [accessListTxType]
  | dynamicFee tx => exact (dynamicFee_codec.writes tx).toBuffer_eq valid [dynamicFeeTxType]

theorem marshalBinary_refused (invalid : ¬ tx.NoNegative) :
    marshalBinary tx = .error .negativeBigInt := by
  rw [marshalBinary]
  split
  · exact tx.writer_writes.toBytes_refused invalid
  · exact tx.writer_writes.toBuffer_refused invalid _

theorem typed_writes (typed : tx.txType ≠ legacyTxType) :
    (encodeRLP tx).Writes (encodeString (tx.txType :: tx.body)) tx.NoNegative := by
  constructor
  · intro valid buf
    obtain ⟨after,wrote,appended⟩ :=
      (TypeWriter.Writes.byteSlice (tx.txType :: tx.body)).appended trivial buf
    have buffered : encodeTyped tx [] = .ok (tx.txType :: tx.body) :=
      tx.writer_writes.toBuffer_eq valid _
    refine ⟨after,?_,appended⟩
    rw [encodeRLP,if_neg typed,buffered]
    exact wrote
  · intro invalid buf
    have refused : encodeTyped tx [] = .error .negativeBigInt :=
      tx.writer_writes.toBuffer_refused invalid _
    rw [encodeRLP,if_neg typed,refused]
    rfl

theorem encodeRLP_writes (tx : TxData) : (encodeRLP tx).Writes tx.wrapped tx.NoNegative := by
  cases tx with
  | legacy tx => exact legacy_codec.writes tx
  | accessList tx => exact typed_writes (accessList_typed tx)
  | dynamicFee tx => exact typed_writes (dynamicFee_typed tx)

theorem decodeTyped_binary (valid : tx.NoNegative) (typed : tx.txType ≠ legacyTxType)
    (bounded : tx.binary.length < 2 ^ 64) : decodeTyped tx.binary = .ok tx.normal := by
  cases tx with
  | legacy tx => exact absurd rfl typed
  | accessList tx =>
    have decoded := accessList_codec.decodeBytes_encode "types.AccessListTx" valid
      (lt_of_succ_lt bounded)
    rw [binary,decodeTyped,if_pos rfl,body,decoded]
    rfl
  | dynamicFee tx =>
    have decoded := dynamicFee_codec.decodeBytes_encode "types.DynamicFeeTx" valid
      (lt_of_succ_lt bounded)
    rw [binary,decodeTyped,if_neg (by decide),if_pos rfl,body,decoded]
    rfl

variable {bytes : List UInt8} {between : Stream} {size : UInt64} {rest : List UInt8}
  {after : Stream}

theorem of_decodeTyped (accepted : decodeTyped bytes = .ok tx) :
    tx.NoNegative ∧ tx.normal = tx ∧ tx.txType ≠ legacyTxType ∧ tx.binary = bytes := by
  cases bytes with
  | nil => cases accepted
  | cons first rest =>
    rw [decodeTyped] at accepted
    split at accepted
    · rename_i isAccessList
      obtain ⟨inner,innerEq,rfl⟩ := exists_of_map_ok accepted
      obtain ⟨valid,normalEq,bodyEq⟩ := accessList_codec.of_decodeBytes innerEq
      refine ⟨valid,congrArg accessList normalEq,accessList_typed inner,?_⟩
      rw [binary,body,bodyEq,isAccessList]
    · split at accepted
      · rename_i isDynamicFee
        obtain ⟨inner,innerEq,rfl⟩ := exists_of_map_ok accepted
        obtain ⟨valid,normalEq,bodyEq⟩ := dynamicFee_codec.of_decodeBytes innerEq
        refine ⟨valid,congrArg dynamicFee normalEq,dynamicFee_typed inner,?_⟩
        rw [binary,body,bodyEq,isDynamicFee]
      · cases accepted

theorem decodeTyped_ne_outOfFuel (bytes : List UInt8) : decodeTyped bytes ≠ .error .outOfFuel := by
  cases bytes with
  | nil => simp [decodeTyped]
  | cons first rest =>
    rw [decodeTyped]
    split
    · exact map_ne_outOfFuel accessList_codec.decodeBytes_ne_outOfFuel
    · split
      · exact map_ne_outOfFuel dynamicFee_codec.decodeBytes_ne_outOfFuel
      · simp

theorem listHeader_head {size : Nat} (bounded : size < 2 ^ 64) (rest : List UInt8) :
    (listHeader size ++ rest).headD 0 > 0x7F := by
  rw [listHeader,header,gt_iff_lt,UInt8.lt_iff_toNat_lt]
  split
  · rename_i small
    change 0x7F < (0xC0 + UInt8.ofNat size).toNat
    rw [(tag_short 0xC0 small (by decide)).1]
    exact lt_of_lt_of_le (by decide) (le_add_right 0xC0 size)
  · have lengthLe : (minimal size).length ≤ 8 := minimal_length_le_iff.mpr bounded
    change 0x7F < (0xF7 + UInt8.ofNat (minimal size).length).toNat
    rw [(tag_long 0xF7 lengthLe (by decide)).1]
    exact lt_of_lt_of_le (by decide) (le_add_right 0xF7 _)

theorem unmarshalBinary_binary (valid : tx.NoNegative) (bounded : tx.binary.length < 2 ^ 64) :
    unmarshalBinary tx.binary = .ok tx.normal := by
  rw [unmarshalBinary]
  cases tx with
  | legacy tx =>
    have binaryEq : (legacy tx).binary = encodeLegacy tx.values := rfl
    rw [binaryEq,encodeLegacy,enclose] at bounded ⊢
    rw [length_append] at bounded
    rw [if_pos]
    · exact congrArg _ (legacy_codec.decodeBytes_encode "types.LegacyTx" valid (by
        rwa [encodeLegacy,enclose,length_append]))
    · constructor
      · exact length_pos_iff.mpr (append_ne_nil_of_left_ne_nil
          (header_ne_nil _ _ _) _)
      · exact listHeader_head (by omega) _
  | accessList tx =>
    rw [if_neg]
    · exact decodeTyped_binary valid (accessList_typed tx) bounded
    · rintro ⟨_,high⟩
      exact absurd high (by rw [binary,headD_cons]; decide)
  | dynamicFee tx =>
    rw [if_neg]
    · exact decodeTyped_binary valid (dynamicFee_typed tx) bounded
    · rintro ⟨_,high⟩
      exact absurd high (by rw [binary,headD_cons]; decide)

theorem of_unmarshalBinary (accepted : unmarshalBinary bytes = .ok tx) :
    tx.NoNegative ∧ tx.normal = tx ∧ tx.binary = bytes := by
  rw [unmarshalBinary] at accepted
  split at accepted
  · obtain ⟨inner,innerEq,rfl⟩ := exists_of_map_ok accepted
    obtain ⟨valid,normalEq,bodyEq⟩ := legacy_codec.of_decodeBytes innerEq
    exact ⟨valid,congrArg legacy normalEq,bodyEq⟩
  · obtain ⟨valid,normalEq,_,binaryEq⟩ := of_decodeTyped accepted
    exact ⟨valid,normalEq,binaryEq⟩

theorem unmarshalBinary_ne_outOfFuel (bytes : List UInt8) :
    unmarshalBinary bytes ≠ .error .outOfFuel := by
  rw [unmarshalBinary]
  split
  · exact map_ne_outOfFuel legacy_codec.decodeBytes_ne_outOfFuel
  · exact decodeTyped_ne_outOfFuel bytes

/-! ### Transactions in a stream -/

theorem decodeLegacyTx_startsWithKind : StartsWithKind decodeLegacyTx :=
  decodeEnclosed_startsWithKind _ _ _

theorem decodeRLP_of_list (ready : s.Ready) (header : Stream.kind s = .ok (.list, size) between) :
    decodeRLP s = (do
      let inner ← decode "types.LegacyTx" decodeLegacyTx
      pure (.legacy inner) : Decoder TxData) s := by
  rw [decodeRLP,bind_of_ok header]
  exact bind_congr ((decodeLegacyTx_startsWithKind.mapErr _) ready header)

theorem decodeRLP_of_string (ready : s.Ready)
    (header : Stream.kind s = .ok (.string, size) between) :
    decodeRLP s = (do
      let bytes ← Stream.bytes
      liftExcept (decodeTyped bytes) : Decoder TxData) s := by
  rw [decodeRLP,bind_of_ok header]
  exact bind_congr (bytes_startsWithKind ready header)

theorem binary_of_typed (typed : tx.txType ≠ legacyTxType) :
    tx.binary = tx.txType :: tx.body ∧ tx.wrapped = encodeString tx.binary := by
  cases tx with
  | legacy tx => exact absurd rfl typed
  | accessList tx => exact ⟨rfl,rfl⟩
  | dynamicFee tx => exact ⟨rfl,rfl⟩

theorem body_ne_nil (tx : TxData) : tx.body ≠ [] := by
  cases tx <;> exact append_ne_nil_of_left_ne_nil (header_ne_nil _ _ _) _

theorem typed_headed (typed : tx.txType ≠ legacyTxType) : selfEncoded tx.binary = false := by
  rw [(binary_of_typed typed).1]
  cases bodyEq : tx.body with
  | nil => exact absurd bodyEq tx.body_ne_nil
  | cons first rest => rfl

theorem decodeRLP_typed (ready : s.Ready) (valid : tx.NoNegative)
    (typed : tx.txType ≠ legacyTxType) (input : s.input = tx.wrapped ++ rest)
    (allows : s.Allows tx.wrapped.length) :
    ∃ after, decodeRLP s = .ok tx.normal after ∧ Consumed s after tx.wrapped := by
  rw [(binary_of_typed typed).2] at input allows ⊢
  obtain ⟨size,between,header,lengthEq⟩ :=
    kind_of_encodeString ready (typed_headed typed) input allows
  obtain ⟨after,read,consumed,_⟩ :=
    (bytes_codec _).complete ready (lt_succ_self _) input allows
  refine ⟨after,?_,consumed⟩
  have decoded := decodeTyped_binary valid typed (by rw [lengthEq]; exact size.toNat_lt)
  rw [decodeRLP_of_string ready header,bind_of_ok read,decoded]
  rfl

theorem decodeRLP_wrapped (ready : s.Ready) (valid : tx.NoNegative)
    (input : s.input = tx.wrapped ++ rest) (allows : s.Allows tx.wrapped.length) :
    ∃ after, decodeRLP s = .ok tx.normal after ∧ Consumed s after tx.wrapped := by
  cases tx with
  | legacy tx =>
    obtain ⟨after,ran,consumed,_⟩ := legacy_codec.complete ready valid input allows
    obtain ⟨size,between,header⟩ := exists_kind_of_enclosed_ok ready ran
    refine ⟨after,?_,consumed⟩
    rw [decodeRLP_of_list ready header,bind_of_ok (decode_eq_ok_iff.mpr ran)]
    rfl
  | accessList tx => exact decodeRLP_typed ready valid (accessList_typed tx) input allows
  | dynamicFee tx => exact decodeRLP_typed ready valid (dynamicFee_typed tx) input allows

theorem of_decodeRLP (ready : s.Ready) (ran : decodeRLP s = .ok tx after) :
    tx.NoNegative ∧ tx.normal = tx ∧ Consumed s after tx.wrapped := by
  obtain ⟨⟨kind,size⟩,between,header,rest⟩ := exists_of_bind_ok ran
  cases kind with
  | byte => cases rest
  | list =>
    rw [decodeRLP_of_list ready header] at ran
    obtain ⟨inner,read,innerRan,finish⟩ := exists_of_bind_ok ran
    cases finish
    obtain ⟨valid,normalEq,consumed,_⟩ :=
      legacy_codec.sound ready (decode_eq_ok_iff.mp innerRan)
    exact ⟨valid,congrArg legacy normalEq,consumed⟩
  | string =>
    rw [decodeRLP_of_string ready header] at ran
    obtain ⟨bytes,read,bytesRan,finish⟩ := exists_of_bind_ok ran
    obtain ⟨consumed,_⟩ := (bytes_codec _).sound ready (lt_succ_self _) bytesRan
    cases typedEq : decodeTyped bytes with
    | error error =>
      rw [typedEq] at finish
      cases finish
    | ok inner =>
      rw [typedEq] at finish
      cases finish
      obtain ⟨valid,normalEq,typed,binaryEq⟩ := of_decodeTyped typedEq
      rw [(binary_of_typed typed).2,binaryEq]
      exact ⟨valid,normalEq,consumed⟩

theorem decodeRLP_ne_outOfFuel (ready : s.Ready) : decodeRLP s ≠ .err .outOfFuel after := by
  intro failed
  cases header : Stream.kind s with
  | err cause between =>
    rw [decodeRLP,bind_of_err header] at failed
    cases failed
    rcases kind_err_cases ready header with ⟨isEol,_⟩ | plain
    · cases isEol
    · exact plain.2 rfl
  | ok pair between =>
    obtain ⟨kind,size⟩ := pair
    cases kind with
    | byte =>
      rw [decodeRLP,bind_of_ok header] at failed
      cases failed
    | list =>
      rw [decodeRLP_of_list ready header] at failed
      rcases bind_err_cases failed with innerFailed | ⟨_,_,_,finish⟩
      · obtain ⟨cause,causeFailed,changed⟩ := exists_of_mapErr_err innerFailed
        split at changed
        · cases changed
        · rw [changed] at causeFailed
          exact legacy_codec.ne_outOfFuel ready causeFailed
      · cases finish
    | string =>
      rw [decodeRLP_of_string ready header] at failed
      rcases bind_err_cases failed with bytesFailed | ⟨bytes,_,_,finish⟩
      · rcases (bytes_codec _).errors ready (lt_succ_self _) bytesFailed with
          ⟨isEol,_⟩ | plain
        · cases isEol
        · exact plain.2 rfl
      · cases typedEq : decodeTyped bytes with
        | error error =>
          rw [typedEq] at finish
          cases finish
          exact decodeTyped_ne_outOfFuel bytes typedEq
        | ok inner =>
          rw [typedEq] at finish
          cases finish

/-! ### Hashes and results -/

theorem hash_eq (keccak : List UInt8 → Hash) (valid : tx.NoNegative) :
    tx.hash keccak = keccak tx.binary := by
  have heldEq : ∀ held, hashed tx.writer held = held ++ tx.body := by
    intro held
    rw [hashed,tx.writer_writes.toBuffer_eq valid]
  rw [hash]
  split
  · rename_i isLegacy
    rw [rlpHash,heldEq]
    cases tx with
    | legacy tx => rfl
    | accessList tx => exact absurd isLegacy (accessList_typed tx)
    | dynamicFee tx => exact absurd isLegacy (dynamicFee_typed tx)
  · rename_i typed
    rw [prefixedRlpHash,heldEq,(binary_of_typed typed).1]
    rfl

@[simp]
theorem bigIntValue_normalInt (i : Option Int) : bigIntValue (normalInt i) = bigIntValue i := by
  cases i <;> rfl

theorem binary_normal (tx : TxData) : tx.normal.binary = tx.binary := by
  cases tx <;>
    simp [normal,binary,body,LegacyTx.values,LegacyTx.normal,AccessListTx.values,
      AccessListTx.normal,DynamicFeeTx.values,DynamicFeeTx.normal]

theorem notNegative_normalInt {i : Option Int} : NotNegative (normalInt i) ↔ NotNegative i := by
  cases i with
  | none => simp [normalInt,NotNegative]
  | some i => rfl

theorem noNegative_normal : tx.normal.NoNegative ↔ tx.NoNegative := by
  cases tx <;>
    simp [normal,NoNegative,LegacyTx.NoNegative,LegacyTx.normal,AccessListTx.NoNegative,
      AccessListTx.normal,DynamicFeeTx.NoNegative,DynamicFeeTx.normal,notNegative_normalInt]

theorem txType_normal (tx : TxData) : tx.normal.txType = tx.txType := by
  cases tx <;> rfl

end TxData

theorem Transaction.getHash_eq {keccak : List UInt8 → Hash} (tx : Transaction keccak) :
    tx.getHash.1 = tx.inner.hash keccak := by
  rw [getHash]
  split
  · rename_i held cacheEq
    exact tx.cached held cacheEq
  · rfl

/-- The second transaction has the type, the fields and the hash of the first, with
zero for nil integers. -/
structure SameTransaction {keccak : List UInt8 → Hash} (tx decoded : Transaction keccak) :
    Prop where
  txType : decoded.inner.txType = tx.inner.txType
  fields : decoded.inner = tx.inner.normal
  hash : decoded.getHash.1 = tx.getHash.1

theorem sameTransaction_normal {keccak : List UInt8 → Hash} {tx : Transaction keccak}
    (valid : tx.inner.NoNegative) : SameTransaction tx (setDecoded keccak tx.inner.normal) where
  txType := tx.inner.txType_normal
  fields := rfl
  hash := by
    have normalValid := noNegative_normal.mpr valid
    rw [getHash_eq,getHash_eq,hash_eq keccak valid]
    exact (hash_eq keccak normalValid).trans (congrArg keccak tx.inner.binary_normal)

/-- A format of transactions: what was encoded comes back, what is accepted is the
only encoding of the result, and negative integers are refused. -/
structure FaithfulFormat (keccak : List UInt8 → Hash)
    (encode : TxData → Except EncodeErr (List UInt8))
    (decode : List UInt8 → Except DecodeErr TxData) : Prop where
  accepts : ∀ tx : Transaction keccak, tx.inner.NoNegative → ∃ bytes,
    encode tx.inner = .ok bytes ∧ (bytes.length < 2 ^ 63 → ∃ inner,
      decode bytes = .ok inner ∧ SameTransaction tx (setDecoded keccak inner))
  refuses : ∀ tx : TxData, ¬ tx.NoNegative → encode tx = .error .negativeBigInt
  reproduces : ∀ (bytes : List UInt8) (inner : TxData), decode bytes = .ok inner →
    encode inner = .ok bytes
  unique : ∀ (bytes others : List UInt8) (inner : TxData), decode bytes = .ok inner →
    decode others = .ok inner → bytes = others
  inFuel : ∀ bytes : List UInt8, decode bytes ≠ .error .outOfFuel

variable (keccak : List UInt8 → Hash)

theorem FaithfulFormat.of_canonical {encode : TxData → Except EncodeErr (List UInt8)}
    {decode : List UInt8 → Except DecodeErr TxData} (canonical : TxData → List UInt8)
    (encodes : ∀ {tx : TxData}, tx.NoNegative → encode tx = .ok (canonical tx))
    (refuses : ∀ {tx : TxData}, ¬ tx.NoNegative → encode tx = .error .negativeBigInt)
    (decodes : ∀ {tx : TxData}, tx.NoNegative → (canonical tx).length < 2 ^ 64 →
      decode (canonical tx) = .ok tx.normal)
    (accepted : ∀ {bytes : List UInt8} {tx : TxData}, decode bytes = .ok tx →
      tx.NoNegative ∧ canonical tx = bytes)
    (inFuel : ∀ bytes : List UInt8, decode bytes ≠ .error .outOfFuel) :
    FaithfulFormat keccak encode decode where
  accepts := by
    intro tx valid
    refine ⟨canonical tx.inner,encodes valid,?_⟩
    intro bounded
    exact ⟨tx.inner.normal,decodes valid (bounded.trans (by decide)),sameTransaction_normal valid⟩
  refuses := fun _ => refuses
  reproduces := by
    intro bytes inner decoded
    obtain ⟨valid,canonicalEq⟩ := accepted decoded
    rw [encodes valid,canonicalEq]
  unique := by
    intro bytes others inner decoded otherDecoded
    exact (accepted decoded).2.symm.trans (accepted otherDecoded).2
  inFuel := inFuel

theorem binary_faithful : FaithfulFormat keccak marshalBinary unmarshalBinary := by
  apply FaithfulFormat.of_canonical keccak binary
  · exact marshalBinary_eq
  · exact marshalBinary_refused
  · exact unmarshalBinary_binary
  · intro bytes tx accepted
    obtain ⟨valid,_,binaryEq⟩ := of_unmarshalBinary accepted
    exact ⟨valid,binaryEq⟩
  · exact unmarshalBinary_ne_outOfFuel

/-- `rlp.EncodeToBytes` and `rlp.DecodeBytes` on transactions. -/
theorem rlp_faithful :
    FaithfulFormat keccak (fun tx => (encodeRLP tx).toBytes)
      (decodeBytes "types.Transaction" decodeRLP) := by
  apply FaithfulFormat.of_canonical keccak wrapped
  · intro tx valid
    exact tx.encodeRLP_writes.toBytes_eq valid
  · intro tx invalid
    exact tx.encodeRLP_writes.toBytes_refused invalid
  · intro tx valid bounded
    obtain ⟨after,ran,consumed⟩ := decodeRLP_wrapped (reset_ready _) valid
      (append_nil _).symm (reset_allows bounded)
    exact decodeBytes_of_consumed ran consumed
  · intro bytes tx accepted
    obtain ⟨after,ran,nothingLeft⟩ := exists_of_decodeBytes accepted
    obtain ⟨valid,_,consumed⟩ := of_decodeRLP (reset_ready bytes) ran
    have whole : bytes = tx.wrapped ++ after.input := consumed.input
    rw [nothingLeft,append_nil] at whole
    exact ⟨valid,whole.symm⟩
  · intro bytes exhausted
    obtain ⟨after,failed⟩ := exists_of_decodeBytes_outOfFuel exhausted
    exact decodeRLP_ne_outOfFuel (reset_ready bytes) failed

/-- Both formats are faithful, and the second also inside of other values: the
transaction is read from the front of whatever follows in the stream. -/
theorem transaction_formats_faithful :
    FaithfulFormat keccak marshalBinary unmarshalBinary ∧
    FaithfulFormat keccak (fun tx => (encodeRLP tx).toBytes)
      (decodeBytes "types.Transaction" decodeRLP) ∧
    ∀ s : Stream, s.Ready →
      (∀ (tx : TxData) (bytes rest : List UInt8), (encodeRLP tx).toBytes = .ok bytes →
        s.input = bytes ++ rest → s.Allows bytes.length →
        ∃ after, decodeRLP s = .ok tx.normal after ∧ after.input = rest) ∧
      ∀ (after : Stream) (inner : TxData), decodeRLP s = .ok inner after →
        ∃ bytes, (encodeRLP inner).toBytes = .ok bytes ∧ s.input = bytes ++ after.input := by
  refine ⟨binary_faithful keccak,rlp_faithful keccak,?_⟩
  intro s ready
  constructor
  · intro tx bytes rest encoded input allows
    have valid : tx.NoNegative := by
      by_contra invalid
      rw [tx.encodeRLP_writes.toBytes_refused invalid] at encoded
      cases encoded
    rw [tx.encodeRLP_writes.toBytes_eq valid] at encoded
    cases encoded
    obtain ⟨after,ran,consumed⟩ := decodeRLP_wrapped ready valid input allows
    exact ⟨after,ran,consumed.rest_eq input⟩
  · intro after inner ran
    obtain ⟨valid,_,consumed⟩ := of_decodeRLP ready ran
    exact ⟨inner.wrapped,inner.encodeRLP_writes.toBytes_eq valid,consumed.input⟩

def creationTx : TxData :=
  .dynamicFee
    { chainID := some 1, nonce := 300, gasTipCap := none, gasFeeCap := some (2 ^ 70),
      gas := 21000, recipient := none, value := some 0, data := [1, 2],
      accessList := [⟨Vector.replicate 20 7, [Vector.replicate 32 9]⟩],
      v := some 1, r := some 200, s := none }

def byteSums (bytes : List UInt8) : Hash := .replicate 32 (bytes.foldl .add 0)

theorem creationTx_formats_faithful : ∃ bytes inner,
    marshalBinary creationTx = .ok bytes ∧ unmarshalBinary bytes = .ok inner ∧
      SameTransaction (setDecoded byteSums creationTx) (setDecoded byteSums inner) := by
  obtain ⟨bytes,encoded,decoded⟩ :=
    (transaction_formats_faithful byteSums).1.accepts (setDecoded _ creationTx) (by decide)
  have lengthEq : (marshalBinary creationTx).toOption.map length = some 88 := by decide +kernel
  have encodedTx : marshalBinary creationTx = .ok bytes := encoded
  rw [encodedTx] at lengthEq
  have shortBytes : bytes.length = 88 := Option.some.inj lengthEq
  obtain ⟨inner,decodedTx,same⟩ := decoded (by rw [shortBytes]; decide)
  exact ⟨bytes,inner,encoded,decodedTx,same⟩

/-- A received transaction has the hash of its binary form: of the bytes that
`UnmarshalBinary` was given for it, or that `DecodeRLP` found in the stream, where those
of a typed transaction are a string. -/
theorem received_hash :
    (∀ bytes tx, unmarshalBinary bytes = .ok tx →
      (setDecoded keccak tx).getHash.1 = keccak bytes) ∧
    ∀ (s after : Stream) tx, s.Ready → decodeRLP s = .ok tx after → ∃ binary,
      (s.input = binary ++ after.input ∨ s.input = encodeString binary ++ after.input) ∧
      unmarshalBinary binary = .ok tx ∧ (setDecoded keccak tx).getHash.1 = keccak binary := by
  constructor
  · intro bytes tx accepted
    obtain ⟨valid,_,rfl⟩ := of_unmarshalBinary accepted
    rw [getHash_eq]
    exact hash_eq keccak valid
  · intro s after tx ready ran
    obtain ⟨valid,normalEq,consumed⟩ := of_decodeRLP ready ran
    have form : tx.wrapped = tx.binary ∨ tx.wrapped = encodeString tx.binary := by
      cases tx with
      | legacy tx => exact .inl rfl
      | accessList tx | dynamicFee tx => exact .inr rfl
    have shorter : tx.binary.length ≤ tx.wrapped.length := by
      rcases form with form | form <;> rw [form]
      rw [encodeString]
      split <;> simp
    have bounded := (shorter.trans consumed.fits).trans_lt s.remaining.toNat_lt
    refine ⟨tx.binary,?_,?_,?_⟩
    · have inputEq := consumed.input
      rcases form with form | form <;> rw [form] at inputEq
      · exact .inl inputEq
      · exact .inr inputEq
    · rw [unmarshalBinary_binary valid bounded,normalEq]
    · rw [getHash_eq]
      exact hash_eq keccak valid

/-- A transaction in a list, with another element behind it. -/
theorem received_hash_in_list :
    let s := { reset (creationTx.wrapped ++ [5]) with stack := [91] }
    ∃ after binary, decodeRLP s = .ok creationTx.normal after ∧ after.input = [5] ∧
      unmarshalBinary binary = .ok creationTx.normal ∧
      (setDecoded byteSums creationTx.normal).getHash.1 = byteSums binary := by
  intro s
  have allows : s.Allows creationTx.wrapped.length := by
    refine ⟨by decide +kernel,?_⟩
    rintro limit ⟨⟩
    decide +kernel
  obtain ⟨after,ran,consumed⟩ := decodeRLP_wrapped ⟨rfl,rfl⟩ (by decide) rfl allows
  obtain ⟨binary,_,accepted,hashEq⟩ := (received_hash byteSums).2 s after _ ⟨rfl,rfl⟩ ran
  exact ⟨after,binary,ran,consumed.rest_eq rfl,accepted,hashEq⟩

end PioplatRelay.Types
