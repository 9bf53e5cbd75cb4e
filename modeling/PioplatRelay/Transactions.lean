import PioplatRelay.RlpWriters

/-!
# Transactions and their encodings

A transaction is one of three structs.  The canonical format is the encoding of
the struct, with the type of the transaction before it unless it is a legacy
transaction.  Inside of other values that of a typed transaction is wrapped in a
string.
-/

namespace PioplatRelay.Types

open Rlp

abbrev Address : Type := Vector UInt8 20

abbrev Hash : Type := Vector UInt8 32

structure AccessTuple where
  address : Address
  storageKeys : List Hash
  deriving DecidableEq

abbrev AccessList : Type := List AccessTuple

/-- Pointers to integers may be nil; a nil slice is taken as an empty one.  The field
`To` of the source is `recipient`. -/
structure LegacyTx where
  nonce : UInt64
  gasPrice : Option Int
  gas : UInt64
  recipient : Option Address
  value : Option Int
  data : List UInt8
  v : Option Int
  r : Option Int
  s : Option Int
  deriving DecidableEq

structure AccessListTx where
  chainID : Option Int
  nonce : UInt64
  gasPrice : Option Int
  gas : UInt64
  recipient : Option Address
  value : Option Int
  data : List UInt8
  accessList : AccessList
  v : Option Int
  r : Option Int
  s : Option Int
  deriving DecidableEq

structure DynamicFeeTx where
  chainID : Option Int
  nonce : UInt64
  gasTipCap : Option Int
  gasFeeCap : Option Int
  gas : UInt64
  recipient : Option Address
  value : Option Int
  data : List UInt8
  accessList : AccessList
  v : Option Int
  r : Option Int
  s : Option Int
  deriving DecidableEq

inductive TxData
  | legacy (tx : LegacyTx)
  | accessList (tx : AccessListTx)
  | dynamicFee (tx : DynamicFeeTx)
  deriving DecidableEq

def legacyTxType : UInt8 := 0

def accessListTxType : UInt8 := 1

def dynamicFeeTxType : UInt8 := 2

def TxData.txType : TxData → UInt8
  | .legacy _ => legacyTxType
  | .accessList _ => accessListTxType
  | .dynamicFee _ => dynamicFeeTxType

/-! ### Encoding -/

def writeAccessTuple (tuple : AccessTuple) : TypeWriter :=
  writeStruct [writeByteArray tuple.address, writeSlice writeByteArray tuple.storageKeys]

def writeLegacyTx (tx : LegacyTx) : TypeWriter :=
  writeStruct [
    writeUint tx.nonce,
    writeBigIntPtr tx.gasPrice,
    writeUint tx.gas,
    writePtr 0x80 writeByteArray tx.recipient,
    writeBigIntPtr tx.value,
    writeByteSlice tx.data,
    writeBigIntPtr tx.v,
    writeBigIntPtr tx.r,
    writeBigIntPtr tx.s]

def writeAccessListTx (tx : AccessListTx) : TypeWriter :=
  writeStruct [
    writeBigIntPtr tx.chainID,
    writeUint tx.nonce,
    writeBigIntPtr tx.gasPrice,
    writeUint tx.gas,
    writePtr 0x80 writeByteArray tx.recipient,
    writeBigIntPtr tx.value,
    writeByteSlice tx.data,
    writeSlice writeAccessTuple tx.accessList,
    writeBigIntPtr tx.v,
    writeBigIntPtr tx.r,
    writeBigIntPtr tx.s]

def writeDynamicFeeTx (tx : DynamicFeeTx) : TypeWriter :=
  writeStruct [
    writeBigIntPtr tx.chainID,
    writeUint tx.nonce,
    writeBigIntPtr tx.gasTipCap,
    writeBigIntPtr tx.gasFeeCap,
    writeUint tx.gas,
    writePtr 0x80 writeByteArray tx.recipient,
    writeBigIntPtr tx.value,
    writeByteSlice tx.data,
    writeSlice writeAccessTuple tx.accessList,
    writeBigIntPtr tx.v,
    writeBigIntPtr tx.r,
    writeBigIntPtr tx.s]

def TxData.writer : TxData → TypeWriter
  | .legacy tx => writeLegacyTx tx
  | .accessList tx => writeAccessListTx tx
  | .dynamicFee tx => writeDynamicFeeTx tx

def encodeTyped (tx : TxData) (w : List UInt8) : Except EncodeErr (List UInt8) :=
  tx.writer.toBuffer (w ++ [tx.txType])

def encodeRLP (tx : TxData) : TypeWriter := fun buf =>
  if tx.txType = legacyTxType then tx.writer buf
  else do
    let bytes ← encodeTyped tx []
    writeByteSlice bytes buf

def marshalBinary (tx : TxData) : Except EncodeErr (List UInt8) :=
  if tx.txType = legacyTxType then tx.writer.toBytes else encodeTyped tx []

/-! ### Hashes -/

/-- What a hasher that was given `held` is given by `Encode`; its error is not
looked at. -/
def hashed (writer : TypeWriter) (held : List UInt8) : List UInt8 :=
  match writer.toBuffer held with
  | .ok all => all
  | .error _ => held

variable (keccak : List UInt8 → Hash)

def rlpHash (tx : TxData) : Hash := keccak (hashed tx.writer [])

def prefixedRlpHash (first : UInt8) (tx : TxData) : Hash := keccak (hashed tx.writer [first])

def TxData.hash (tx : TxData) : Hash :=
  if tx.txType = legacyTxType then rlpHash keccak tx else prefixedRlpHash keccak tx.txType tx

/-- A transaction with the cache of its hash; nothing changes the struct inside of it.
The time of arrival and the caches of size and sender are not read by the functions
of this module. -/
structure Transaction (keccak : List UInt8 → Hash) where
  inner : TxData
  hash : Option Hash
  cached : ∀ held, hash = some held → held = inner.hash keccak

def Transaction.getHash {keccak : List UInt8 → Hash} (tx : Transaction keccak) :
    Hash × Transaction keccak :=
  match tx.hash with
  | some held => (held, tx)
  | none =>
    (tx.inner.hash keccak,
      ⟨tx.inner, some (tx.inner.hash keccak), fun _ same => (Option.some.inj same).symm⟩)

/-! ### Decoding -/

def decodeAccessTuple : Decoder AccessTuple :=
  let typ := "types.AccessTuple"
  decodeStruct typ do
    let address ← decodeField typ "Address" (decodeByteArray "common.Address" 20)
    let storageKeys ← decodeField typ "StorageKeys"
      (decodeListSlice "[]common.Hash" (decodeByteArray "common.Hash" 32))
    pure ⟨address,storageKeys⟩

/-- The decoder of a recipient; its tag says that nil is an empty value. -/
def decodeRecipient : Decoder (Option Address) :=
  decodeNilPtr "*common.Address" .string (decodeByteArray "common.Address" 20)

def decodeAccessList : Decoder AccessList := decodeListSlice "types.AccessList" decodeAccessTuple

def decodeLegacyTx : Decoder LegacyTx :=
  let typ := "types.LegacyTx"
  decodeStruct typ do
    let nonce ← decodeField typ "Nonce" decodeUint64
    let gasPrice ← decodeField typ "GasPrice" decodeBigIntPtr
    let gas ← decodeField typ "Gas" decodeUint64
    let recipient ← decodeField typ "To" decodeRecipient
    let value ← decodeField typ "Value" decodeBigIntPtr
    let data ← decodeField typ "Data" decodeByteSlice
    let v ← decodeField typ "V" decodeBigIntPtr
    let r ← decodeField typ "R" decodeBigIntPtr
    let s ← decodeField typ "S" decodeBigIntPtr
    pure ⟨nonce,some gasPrice,gas,recipient,some value,data,some v,some r,some s⟩

def decodeAccessListTx : Decoder AccessListTx :=
  let typ := "types.AccessListTx"
  decodeStruct typ do
    let chainID ← decodeField typ "ChainID" decodeBigIntPtr
    let nonce ← decodeField typ "Nonce" decodeUint64
    let gasPrice ← decodeField typ "GasPrice" decodeBigIntPtr
    let gas ← decodeField typ "Gas" decodeUint64
    let recipient ← decodeField typ "To" decodeRecipient
    let value ← decodeField typ "Value" decodeBigIntPtr
    let data ← decodeField typ "Data" decodeByteSlice
    let accessList ← decodeField typ "AccessList" decodeAccessList
    let v ← decodeField typ "V" decodeBigIntPtr
    let r ← decodeField typ "R" decodeBigIntPtr
    let s ← decodeField typ "S" decodeBigIntPtr
    pure ⟨some chainID, nonce, some gasPrice, gas, recipient, some value, data, accessList,
      some v, some r, some s⟩

def decodeDynamicFeeTx : Decoder DynamicFeeTx :=
  let typ := "types.DynamicFeeTx"
  decodeStruct typ do
    let chainID ← decodeField typ "ChainID" decodeBigIntPtr
    let nonce ← decodeField typ "Nonce" decodeUint64
    let gasTipCap ← decodeField typ "GasTipCap" decodeBigIntPtr
    let gasFeeCap ← decodeField typ "GasFeeCap" decodeBigIntPtr
    let gas ← decodeField typ "Gas" decodeUint64
    let recipient ← decodeField typ "To" decodeRecipient
    let value ← decodeField typ "Value" decodeBigIntPtr
    let data ← decodeField typ "Data" decodeByteSlice
    let accessList ← decodeField typ "AccessList" decodeAccessList
    let v ← decodeField typ "V" decodeBigIntPtr
    let r ← decodeField typ "R" decodeBigIntPtr
    let s ← decodeField typ "S" decodeBigIntPtr
    pure ⟨some chainID, nonce, some gasTipCap, some gasFeeCap, gas, recipient, some value, data,
      accessList, some v, some r, some s⟩

/-- `decodeTyped`: the first byte says which struct follows. -/
def decodeTyped : List UInt8 → Except DecodeErr TxData
  | [] => .error (.other "empty typed transaction bytes")
  | first :: rest =>
    if first = accessListTxType then
      (decodeBytes "types.AccessListTx" decodeAccessListTx rest).map .accessList
    else if first = dynamicFeeTxType then
      (decodeBytes "types.DynamicFeeTx" decodeDynamicFeeTx rest).map .dynamicFee
    else .error (.other "transaction type not supported")

def liftExcept {α : Type} : Except DecodeErr α → Decoder α
  | .ok value => pure value
  | .error error => Decoder.fail error

/-- `DecodeRLP`: a list is a legacy transaction and a string a typed one. -/
def decodeRLP : Decoder TxData := do
  let (kind, _) ← Stream.kind
  match kind with
  | .list => do
      let inner ← decode "types.LegacyTx" decodeLegacyTx
      pure (.legacy inner)
  | .string => do
      let bytes ← Stream.bytes
      liftExcept (decodeTyped bytes)
  | .byte => Decoder.fail .expectedList

/-- `UnmarshalBinary`: typed transactions start with a byte below `0x80`. -/
def unmarshalBinary (bytes : List UInt8) : Except DecodeErr TxData :=
  if bytes.length > 0 ∧ bytes.headD 0 > 0x7F then
    (decodeBytes "types.LegacyTx" decodeLegacyTx bytes).map .legacy
  else decodeTyped bytes

def setDecoded (inner : TxData) : Transaction keccak := ⟨inner, none, fun _ same => nomatch same⟩

end PioplatRelay.Types
