import PioplatRelay.Transactions

/-!
# Transactions survive their encodings

Each struct is decoded field by field into plain values, and its nil integers come
back as zero.  The two formats tell the structs apart by the first byte or by the
kind of the value, so what either accepts is what encoding gives.
-/

namespace PioplatRelay.Types

open BigEndian Rlp TypeWriter
open Rlp.Stream

variable {α β : Type}

/-! ### Encodings of fields -/

def encodeUint (i : UInt64) : List UInt8 := encodeString (minimal i.toNat)

def encodeBig (i : Nat) : List UInt8 := encodeString (minimal i)

def encodeArray {length : Nat} (array : Vector UInt8 length) : List UInt8 :=
  encodeString array.toList

def both (first : α → List UInt8) (second : β → List UInt8) : α × β → List UInt8 :=
  fun pair => first pair.1 ++ second pair.2

def enclose (payload : α → List UInt8) : α → List UInt8 :=
  fun value => listHeader (payload value).length ++ payload value

def encodeSlice (encode : α → List UInt8) : List α → List UInt8 :=
  enclose fun elements => elements.flatMap encode

def encodeAccessTuple (tuple : AccessTuple) : List UInt8 :=
  enclose (both encodeArray (encodeSlice encodeArray)) (tuple.address, tuple.storageKeys)

abbrev SignatureValues : Type := Nat × Nat × Nat

abbrev LegacyValues : Type :=
  UInt64 × Nat × UInt64 × Option Address × Nat × List UInt8 × SignatureValues

abbrev AccessListValues : Type :=
  Nat × UInt64 × Nat × UInt64 × Option Address × Nat × List UInt8 × AccessList × SignatureValues

abbrev DynamicFeeValues : Type :=
  Nat × UInt64 × Nat × Nat × UInt64 × Option Address × Nat × List UInt8 × AccessList ×
    SignatureValues

def encodeSignature : SignatureValues → List UInt8 := both encodeBig (both encodeBig encodeBig)

def encodeLegacy : LegacyValues → List UInt8 :=
  enclose (both encodeUint (both encodeBig (both encodeUint (both (encodeNilPtr encodeArray)
    (both encodeBig (both encodeString encodeSignature))))))

def encodeAccessListValues : AccessListValues → List UInt8 :=
  enclose (both encodeBig (both encodeUint (both encodeBig (both encodeUint
    (both (encodeNilPtr encodeArray) (both encodeBig (both encodeString
      (both (encodeSlice encodeAccessTuple) encodeSignature))))))))

def encodeDynamicFee : DynamicFeeValues → List UInt8 :=
  enclose (both encodeBig (both encodeUint (both encodeBig (both encodeBig (both encodeUint
    (both (encodeNilPtr encodeArray) (both encodeBig (both encodeString
      (both (encodeSlice encodeAccessTuple) encodeSignature)))))))))

/-! ### Values of structs -/

def normalInt : Option Int → Option Int
  | none => some 0
  | some i => some i

theorem some_bigIntValue {i : Option Int} (notNegative : NotNegative i) :
    some (bigIntValue i : Int) = normalInt i := by
  cases i with
  | none => rfl
  | some i => exact congrArg some (Int.toNat_of_nonneg notNegative)

namespace LegacyTx

def values (tx : LegacyTx) : LegacyValues :=
  (tx.nonce, bigIntValue tx.gasPrice, tx.gas, tx.recipient, bigIntValue tx.value, tx.data,
    bigIntValue tx.v, bigIntValue tx.r, bigIntValue tx.s)

def ofValues : LegacyValues → LegacyTx
  | (nonce, gasPrice, gas, recipient, value, data, v, r, s) =>
    ⟨nonce,some gasPrice,gas,recipient,some value,data,some v,some r,some s⟩

/-- The transaction with zero for its nil integers. -/
def normal (tx : LegacyTx) : LegacyTx :=
  { tx with
    gasPrice := normalInt tx.gasPrice, value := normalInt tx.value,
    v := normalInt tx.v, r := normalInt tx.r, s := normalInt tx.s }

def NoNegative (tx : LegacyTx) : Prop :=
  NotNegative tx.gasPrice ∧ NotNegative tx.value ∧
    NotNegative tx.v ∧ NotNegative tx.r ∧ NotNegative tx.s

instance (tx : LegacyTx) : Decidable tx.NoNegative := inferInstanceAs (Decidable (_ ∧ _))

end LegacyTx

namespace AccessListTx

variable (tx : AccessListTx)

def values : AccessListValues :=
  (bigIntValue tx.chainID, tx.nonce, bigIntValue tx.gasPrice, tx.gas, tx.recipient,
    bigIntValue tx.value, tx.data, tx.accessList,
    bigIntValue tx.v, bigIntValue tx.r, bigIntValue tx.s)

def ofValues : AccessListValues → AccessListTx
  | (chainID, nonce, gasPrice, gas, recipient, value, data, accessList, v, r, s) =>
    ⟨some chainID, nonce, some gasPrice, gas, recipient, some value, data, accessList,
      some v, some r, some s⟩

def normal : AccessListTx :=
  { tx with
    chainID := normalInt tx.chainID, gasPrice := normalInt tx.gasPrice,
    value := normalInt tx.value,
    v := normalInt tx.v, r := normalInt tx.r, s := normalInt tx.s }

def NoNegative : Prop :=
  NotNegative tx.chainID ∧ NotNegative tx.gasPrice ∧ NotNegative tx.value ∧
    NotNegative tx.v ∧ NotNegative tx.r ∧ NotNegative tx.s

instance : Decidable tx.NoNegative := inferInstanceAs (Decidable (_ ∧ _))

end AccessListTx

namespace DynamicFeeTx

variable (tx : DynamicFeeTx)

def values : DynamicFeeValues :=
  (bigIntValue tx.chainID, tx.nonce, bigIntValue tx.gasTipCap, bigIntValue tx.gasFeeCap, tx.gas,
    tx.recipient, bigIntValue tx.value, tx.data, tx.accessList,
    bigIntValue tx.v, bigIntValue tx.r, bigIntValue tx.s)

def ofValues : DynamicFeeValues → DynamicFeeTx
  | (chainID, nonce, gasTipCap, gasFeeCap, gas, recipient, value, data, accessList, v, r, s) =>
    ⟨some chainID, nonce, some gasTipCap, some gasFeeCap, gas, recipient, some value, data,
      accessList, some v, some r, some s⟩

def normal : DynamicFeeTx :=
  { tx with
    chainID := normalInt tx.chainID, gasTipCap := normalInt tx.gasTipCap,
    gasFeeCap := normalInt tx.gasFeeCap, value := normalInt tx.value,
    v := normalInt tx.v, r := normalInt tx.r, s := normalInt tx.s }

def NoNegative : Prop :=
  NotNegative tx.chainID ∧ NotNegative tx.gasTipCap ∧ NotNegative tx.gasFeeCap ∧
    NotNegative tx.value ∧ NotNegative tx.v ∧ NotNegative tx.r ∧ NotNegative tx.s

instance : Decidable tx.NoNegative := inferInstanceAs (Decidable (_ ∧ _))

end DynamicFeeTx

namespace TxData

def normal : TxData → TxData
  | legacy tx => legacy tx.normal
  | accessList tx => accessList tx.normal
  | dynamicFee tx => dynamicFee tx.normal

def NoNegative : TxData → Prop
  | legacy tx => tx.NoNegative
  | accessList tx => tx.NoNegative
  | dynamicFee tx => tx.NoNegative

instance (tx : TxData) : Decidable tx.NoNegative :=
  match tx with
  | legacy tx => inferInstanceAs (Decidable tx.NoNegative)
  | accessList tx => inferInstanceAs (Decidable tx.NoNegative)
  | dynamicFee tx => inferInstanceAs (Decidable tx.NoNegative)

end TxData

/-! ### Codecs of structs -/

section Fields

variable (bound : Nat) (typ name : String)

theorem uint_fields : Rlp.Fields bound encodeUint (decodeField typ name decodeUint64) :=
  ((uint_codec bound).wrapped "uint64").field typ name

theorem big_fields : Rlp.Fields bound encodeBig (decodeField typ name decodeBigIntPtr) :=
  ((bigInt_codec bound).wrapped "*big.Int").field typ name

theorem data_fields : Rlp.Fields bound encodeString (decodeField typ name decodeByteSlice) :=
  ((bytes_codec bound).wrapped "[]uint8").field typ name

theorem recipient_fields :
    Rlp.Fields bound (encodeNilPtr encodeArray) (decodeField typ name decodeRecipient) := by
  have nonempty : ∀ address : Address, address.toList ≠ [] := by
    intro address empty
    have lengths := congrArg List.length empty
    simp at lengths
  exact (nilPtr_codec "*common.Address" nonempty (byteArray_codec "common.Address" 20 bound)
    (byteArray_startsWithKind "common.Address" 20)).field typ name

theorem accessTuple_codec : Codec (bound + 2) encodeAccessTuple decodeAccessTuple := by
  let typ := "types.AccessTuple"
  have keys : Codec (bound + 1) (encodeSlice encodeArray)
      (decodeListSlice "[]common.Hash" (decodeByteArray "common.Hash" 32)) :=
    (byteArray_codec "common.Hash" 32 bound).slice "[]common.Hash"
  have fields := ((byteArray_codec "common.Address" 20 (bound + 1)).field typ "Address").pair
    (keys.field typ "StorageKeys")
  have codec := (fields.struct typ).map (fun pair => (⟨pair.1,pair.2⟩ : AccessTuple))
    (fun tuple => (tuple.address, tuple.storageKeys)) (fun _ => rfl) fun _ => rfl
  rw [← decodeStruct_map] at codec
  simp only [decodePair,bind_assoc] at codec
  exact codec

theorem accessList_fields : Rlp.Fields bound (encodeSlice encodeAccessTuple)
    (decodeField typ name decodeAccessList) := by
  have codec : Codec (bound + 3) (encodeSlice encodeAccessTuple) decodeAccessList :=
    (accessTuple_codec bound).slice "types.AccessList"
  exact (codec.of_le (Nat.le_add_right bound 3)).field typ name

def decodeSignature : Decoder SignatureValues :=
  decodePair (decodeField typ "V" decodeBigIntPtr)
    (decodePair (decodeField typ "R" decodeBigIntPtr) (decodeField typ "S" decodeBigIntPtr))

theorem signature_fields : Rlp.Fields bound encodeSignature (decodeSignature typ) :=
  (big_fields bound typ "V").pair ((big_fields bound typ "R").pair (big_fields bound typ "S"))

end Fields

/-- A struct of type `typ` whose writer and decoder agree on an encoding of its
values. -/
structure InnerCodec {T V : Type} (encode : V → List UInt8) (values : T → V) (ofValues : V → T)
    (writer : T → TypeWriter) (decoder : Decoder T) (normal : T → T) (noNegative : T → Prop) :
    Prop where
  writes : ∀ tx, (writer tx).Writes (encode (values tx)) (noNegative tx)
  decodes : ∃ decodeValues : Decoder V,
    decoder = (do
      let found ← decodeValues
      pure (ofValues found)) ∧ ∀ bound, Codec bound encode decodeValues
  values_ofValues : ∀ found, values (ofValues found) = found
  ofValues_values : ∀ tx, noNegative tx → ofValues (values tx) = normal tx
  noNegative_ofValues : ∀ found, noNegative (ofValues found)

section Writers

open TypeWriter.Writes

theorem accessTuple_writes (tuple : AccessTuple) :
    (writeAccessTuple tuple).Writes (encodeAccessTuple tuple) True :=
  ((byteArray tuple.address).fields_cons
    (Writes.slice byteArray tuple.storageKeys).fields_singleton).enclosed.congr rfl
      and_self_iff

theorem recipient_writes (recipient : Option Address) :
    (writePtr 0x80 writeByteArray recipient).Writes (encodeNilPtr encodeArray recipient) True :=
  ptr byteArray recipient

theorem accessList_writes (accessList : AccessList) :
    (writeSlice writeAccessTuple accessList).Writes (encodeSlice encodeAccessTuple accessList)
      True :=
  Writes.slice accessTuple_writes accessList

theorem signature_writes (v r s : Option Int) :
    (writeFields [writeBigIntPtr v, writeBigIntPtr r, writeBigIntPtr s]).Writes
      (encodeSignature (bigIntValue v, bigIntValue r, bigIntValue s))
      (NotNegative v ∧ NotNegative r ∧ NotNegative s) :=
  (bigIntPtr v).fields_cons ((bigIntPtr r).fields_cons (bigIntPtr s).fields_singleton)

theorem legacy_codec : InnerCodec encodeLegacy LegacyTx.values LegacyTx.ofValues writeLegacyTx
    decodeLegacyTx LegacyTx.normal LegacyTx.NoNegative where
  writes := by
    intro tx
    have fields := (Writes.uint tx.nonce).fields_cons
      ((bigIntPtr tx.gasPrice).fields_cons
      ((Writes.uint tx.gas).fields_cons
      ((recipient_writes tx.recipient).fields_cons
      ((bigIntPtr tx.value).fields_cons
      ((byteSlice tx.data).fields_cons
      (signature_writes tx.v tx.r tx.s))))))
    exact fields.enclosed.congr rfl (by simp [LegacyTx.NoNegative])
  decodes := by
    let typ := "types.LegacyTx"
    have fields (bound : Nat) := (uint_fields bound typ "Nonce").pair
      ((big_fields bound typ "GasPrice").pair
      ((uint_fields bound typ "Gas").pair
      ((recipient_fields bound typ "To").pair
      ((big_fields bound typ "Value").pair
      ((data_fields bound typ "Data").pair
      (signature_fields bound typ))))))
    refine ⟨_,?_,fun bound => ((fields bound).struct typ).of_le (Nat.le_succ bound)⟩
    rw [← decodeStruct_map]
    simp only [decodeSignature,decodePair,bind_assoc]
    rfl
  values_ofValues := fun _ => rfl
  ofValues_values := by
    rintro tx ⟨gasPrice,value,v,r,s⟩
    simp only [LegacyTx.ofValues,LegacyTx.values,LegacyTx.normal,some_bigIntValue, *]
  noNegative_ofValues := by
    intro found
    simp [LegacyTx.NoNegative,LegacyTx.ofValues,NotNegative]

theorem accessList_codec : InnerCodec encodeAccessListValues AccessListTx.values
    AccessListTx.ofValues writeAccessListTx decodeAccessListTx AccessListTx.normal
    AccessListTx.NoNegative where
  writes := by
    intro tx
    have fields := (bigIntPtr tx.chainID).fields_cons
      ((Writes.uint tx.nonce).fields_cons
      ((bigIntPtr tx.gasPrice).fields_cons
      ((Writes.uint tx.gas).fields_cons
      ((recipient_writes tx.recipient).fields_cons
      ((bigIntPtr tx.value).fields_cons
      ((byteSlice tx.data).fields_cons
      ((accessList_writes tx.accessList).fields_cons
      (signature_writes tx.v tx.r tx.s))))))))
    exact fields.enclosed.congr rfl (by simp [AccessListTx.NoNegative])
  decodes := by
    let typ := "types.AccessListTx"
    have fields (bound : Nat) := (big_fields bound typ "ChainID").pair
      ((uint_fields bound typ "Nonce").pair
      ((big_fields bound typ "GasPrice").pair
      ((uint_fields bound typ "Gas").pair
      ((recipient_fields bound typ "To").pair
      ((big_fields bound typ "Value").pair
      ((data_fields bound typ "Data").pair
      ((accessList_fields bound typ "AccessList").pair
      (signature_fields bound typ))))))))
    refine ⟨_,?_,fun bound => ((fields bound).struct typ).of_le (Nat.le_succ bound)⟩
    rw [← decodeStruct_map]
    simp only [decodeAccessListTx,decodeSignature,decodePair,AccessListTx.ofValues,bind_assoc,
      pure_bind]
    rfl
  values_ofValues := fun _ => rfl
  ofValues_values := by
    rintro tx ⟨chainID,gasPrice,value,v,r,s⟩
    simp only [AccessListTx.ofValues,AccessListTx.values,AccessListTx.normal,some_bigIntValue, *]
  noNegative_ofValues := by
    intro found
    simp [AccessListTx.NoNegative,AccessListTx.ofValues,NotNegative]

theorem dynamicFee_codec : InnerCodec encodeDynamicFee DynamicFeeTx.values DynamicFeeTx.ofValues
    writeDynamicFeeTx decodeDynamicFeeTx DynamicFeeTx.normal DynamicFeeTx.NoNegative where
  writes := by
    intro tx
    have fields := (bigIntPtr tx.chainID).fields_cons
      ((Writes.uint tx.nonce).fields_cons
      ((bigIntPtr tx.gasTipCap).fields_cons
      ((bigIntPtr tx.gasFeeCap).fields_cons
      ((Writes.uint tx.gas).fields_cons
      ((recipient_writes tx.recipient).fields_cons
      ((bigIntPtr tx.value).fields_cons
      ((byteSlice tx.data).fields_cons
      ((accessList_writes tx.accessList).fields_cons
      (signature_writes tx.v tx.r tx.s)))))))))
    exact fields.enclosed.congr rfl (by simp [DynamicFeeTx.NoNegative])
  decodes := by
    let typ := "types.DynamicFeeTx"
    have fields (bound : Nat) := (big_fields bound typ "ChainID").pair
      ((uint_fields bound typ "Nonce").pair
      ((big_fields bound typ "GasTipCap").pair
      ((big_fields bound typ "GasFeeCap").pair
      ((uint_fields bound typ "Gas").pair
      ((recipient_fields bound typ "To").pair
      ((big_fields bound typ "Value").pair
      ((data_fields bound typ "Data").pair
      ((accessList_fields bound typ "AccessList").pair
      (signature_fields bound typ)))))))))
    refine ⟨_,?_,fun bound => ((fields bound).struct typ).of_le (Nat.le_succ bound)⟩
    rw [← decodeStruct_map]
    simp only [decodeSignature,decodePair,bind_assoc]
    rfl
  values_ofValues := fun _ => rfl
  ofValues_values := by
    rintro tx ⟨chainID,gasTipCap,gasFeeCap,value,v,r,s⟩
    simp only [DynamicFeeTx.ofValues,DynamicFeeTx.values,DynamicFeeTx.normal,some_bigIntValue, *]
  noNegative_ofValues := by
    intro found
    simp [DynamicFeeTx.NoNegative,DynamicFeeTx.ofValues,NotNegative]

end Writers

end PioplatRelay.Types
