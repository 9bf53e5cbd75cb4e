import PioplatRelay.TransactionRoundTrip

/-!
# Headers and their encoding

A header is written by a generated function and read by reflection.  Its base fee
came with a later fork: it stands at the end of the list or is left out.
-/

namespace PioplatRelay.Types

open BigEndian Rlp TypeWriter Writes
open Rlp.Stream

abbrev Bloom : Type := Vector UInt8 256

abbrev BlockNonce : Type := Vector UInt8 8

/-- Pointers to integers may be nil; a nil slice is taken as an empty one. -/
structure Header where
  parentHash : Hash
  uncleHash : Hash
  coinbase : Address
  root : Hash
  txHash : Hash
  receiptHash : Hash
  bloom : Bloom
  difficulty : Option Int
  number : Option Int
  gasLimit : UInt64
  gasUsed : UInt64
  time : UInt64
  extra : List UInt8
  mixDigest : Hash
  nonce : BlockNonce
  baseFee : Option Int
  deriving DecidableEq

def writeOptionalBigInt : Option Int → TypeWriter
  | none => fun buf => .ok buf
  | some i => writeBigIntPtr (some i)

def writeHeader (obj : Header) : TypeWriter :=
  writeEnclosed [
    writeByteSlice obj.parentHash.toList,
    writeByteSlice obj.uncleHash.toList,
    writeByteSlice obj.coinbase.toList,
    writeByteSlice obj.root.toList,
    writeByteSlice obj.txHash.toList,
    writeByteSlice obj.receiptHash.toList,
    writeByteSlice obj.bloom.toList,
    writeBigIntPtr obj.difficulty,
    writeBigIntPtr obj.number,
    writeUint obj.gasLimit,
    writeUint obj.gasUsed,
    writeUint obj.time,
    writeByteSlice obj.extra,
    writeByteSlice obj.mixDigest.toList,
    writeByteSlice obj.nonce.toList,
    writeOptionalBigInt obj.baseFee]

def decodeHeader : Decoder Header :=
  let typ := "types.Header"
  let hash := decodeByteArray "common.Hash" 32
  decodeStruct typ do
    let parentHash ← decodeField typ "ParentHash" hash
    let uncleHash ← decodeField typ "UncleHash" hash
    let coinbase ← decodeField typ "Coinbase" (decodeByteArray "common.Address" 20)
    let root ← decodeField typ "Root" hash
    let txHash ← decodeField typ "TxHash" hash
    let receiptHash ← decodeField typ "ReceiptHash" hash
    let bloom ← decodeField typ "Bloom" (decodeByteArray "types.Bloom" 256)
    let difficulty ← decodeField typ "Difficulty" decodeBigIntPtr
    let number ← decodeField typ "Number" decodeBigIntPtr
    let gasLimit ← decodeField typ "GasLimit" decodeUint64
    let gasUsed ← decodeField typ "GasUsed" decodeUint64
    let time ← decodeField typ "Time" decodeUint64
    let extra ← decodeField typ "Extra" decodeByteSlice
    let mixDigest ← decodeField typ "MixDigest" hash
    let nonce ← decodeField typ "Nonce" (decodeByteArray "types.BlockNonce" 8)
    let baseFee ← decodeOptional "BaseFee" decodeBigIntPtr
    pure ⟨parentHash, uncleHash, coinbase, root, txHash, receiptHash, bloom, some difficulty,
      some number, gasLimit, gasUsed, time, extra, mixDigest, nonce,
      baseFee.map fun (fee : Nat) => (fee : Int)⟩

/-! ### Values of headers -/

/-- The hashes, the account and the filter at the front of a header. -/
abbrev HeaderRoots : Type := Hash × Hash × Address × Hash × Hash × Hash × Bloom

abbrev HeaderNumbers : Type := Nat × Nat × UInt64 × UInt64 × UInt64

abbrev HeaderSeal : Type := List UInt8 × Hash × BlockNonce

abbrev HeaderValues : Type := (HeaderRoots × HeaderNumbers × HeaderSeal) × Option Nat

def encodeRoots : HeaderRoots → List UInt8 :=
  both encodeArray (both encodeArray (both encodeArray (both encodeArray (both encodeArray
    (both encodeArray encodeArray)))))

def encodeNumbers : HeaderNumbers → List UInt8 :=
  both encodeBig (both encodeBig (both encodeUint (both encodeUint encodeUint)))

def encodeSeal : HeaderSeal → List UInt8 := both encodeString (both encodeArray encodeArray)

def encodeHeader : HeaderValues → List UInt8 :=
  enclose (both (both encodeRoots (both encodeNumbers encodeSeal)) (encodeOptional encodeBig))

namespace Header

def values (header : Header) : HeaderValues :=
  (((header.parentHash, header.uncleHash, header.coinbase, header.root, header.txHash,
      header.receiptHash, header.bloom),
    (bigIntValue header.difficulty, bigIntValue header.number, header.gasLimit, header.gasUsed,
      header.time),
    (header.extra, header.mixDigest, header.nonce)), header.baseFee.map Int.toNat)

def ofValues : HeaderValues → Header
  | (((parentHash, uncleHash, coinbase, root, txHash, receiptHash, bloom),
      (difficulty, number, gasLimit, gasUsed, time), (extra, mixDigest, nonce)), baseFee) =>
      ⟨parentHash, uncleHash, coinbase, root, txHash, receiptHash, bloom, some difficulty,
        some number, gasLimit, gasUsed, time, extra, mixDigest, nonce,
        baseFee.map fun (fee : Nat) => (fee : Int)⟩

def normal (header : Header) : Header :=
  { header with difficulty := normalInt header.difficulty, number := normalInt header.number }

def NoNegative (header : Header) : Prop :=
  NotNegative header.difficulty ∧ NotNegative header.number ∧ NotNegative header.baseFee

instance (header : Header) : Decidable header.NoNegative := inferInstanceAs (Decidable (_ ∧ _))

end Header

/-! ### The codec of headers -/

theorem optionalBigInt_writes (i : Option Int) :
    (writeOptionalBigInt i).Writes (encodeOptional encodeBig (i.map Int.toNat))
      (NotNegative i) := by
  cases i with
  | none => exact fields_nil
  | some i => exact bigIntPtr (some i)

theorem header_writes (header : Header) :
    (writeHeader header).Writes (encodeHeader header.values) header.NoNegative := by
  have sealed := (byteSlice header.extra).fields_cons
    ((byteSlice header.mixDigest.toList).fields_cons
    ((byteSlice header.nonce.toList).fields_cons
    (optionalBigInt_writes header.baseFee).fields_singleton))
  have numbered := (bigIntPtr header.difficulty).fields_cons
    ((bigIntPtr header.number).fields_cons
    ((Writes.uint header.gasLimit).fields_cons
    ((Writes.uint header.gasUsed).fields_cons
    ((Writes.uint header.time).fields_cons sealed))))
  have fields := (byteSlice header.parentHash.toList).fields_cons
    ((byteSlice header.uncleHash.toList).fields_cons
    ((byteSlice header.coinbase.toList).fields_cons
    ((byteSlice header.root.toList).fields_cons
    ((byteSlice header.txHash.toList).fields_cons
    ((byteSlice header.receiptHash.toList).fields_cons
    ((byteSlice header.bloom.toList).fields_cons numbered))))))
  apply fields.enclosed.congr
  · simp [encodeHeader,encodeRoots,encodeNumbers,encodeSeal,enclose,both,encodeArray,encodeBig,
      encodeUint,Header.values]
  · simp [Header.NoNegative]

theorem map_toNat_map_cast (fee : Option Nat) :
    (fee.map fun (fee : Nat) => (fee : Int)).map Int.toNat = fee ∧
      NotNegative (fee.map fun (fee : Nat) => (fee : Int)) := by
  cases fee with
  | none => exact ⟨rfl,trivial⟩
  | some fee => exact ⟨rfl,Int.natCast_nonneg fee⟩

theorem map_cast_map_toNat {fee : Option Int} (notNegative : NotNegative fee) :
    (fee.map Int.toNat).map (fun (fee : Nat) => (fee : Int)) = fee := by
  cases fee with
  | none => rfl
  | some fee => exact congrArg some (Int.toNat_of_nonneg notNegative)

section Fields

variable (bound : Nat) (typ name : String)

theorem array_fields (arrayTyp : String) (length : Nat) :
    Rlp.Fields bound encodeArray (decodeField typ name (decodeByteArray arrayTyp length)) :=
  (byteArray_codec arrayTyp length bound).field typ name

def decodeRoots : Decoder HeaderRoots :=
  let hash := decodeByteArray "common.Hash" 32
  decodePair (decodeField typ "ParentHash" hash)
    (decodePair (decodeField typ "UncleHash" hash)
    (decodePair (decodeField typ "Coinbase" (decodeByteArray "common.Address" 20))
    (decodePair (decodeField typ "Root" hash)
    (decodePair (decodeField typ "TxHash" hash)
    (decodePair (decodeField typ "ReceiptHash" hash)
    (decodeField typ "Bloom" (decodeByteArray "types.Bloom" 256)))))))

def decodeNumbers : Decoder HeaderNumbers :=
  decodePair (decodeField typ "Difficulty" decodeBigIntPtr)
    (decodePair (decodeField typ "Number" decodeBigIntPtr)
    (decodePair (decodeField typ "GasLimit" decodeUint64)
    (decodePair (decodeField typ "GasUsed" decodeUint64)
    (decodeField typ "Time" decodeUint64))))

def decodeSeal : Decoder HeaderSeal :=
  decodePair (decodeField typ "Extra" decodeByteSlice)
    (decodePair (decodeField typ "MixDigest" (decodeByteArray "common.Hash" 32))
    (decodeField typ "Nonce" (decodeByteArray "types.BlockNonce" 8)))

theorem roots_fields : Rlp.Fields bound encodeRoots (decodeRoots typ) :=
  (array_fields bound typ "ParentHash" "common.Hash" 32).pair
    ((array_fields bound typ "UncleHash" "common.Hash" 32).pair
    ((array_fields bound typ "Coinbase" "common.Address" 20).pair
    ((array_fields bound typ "Root" "common.Hash" 32).pair
    ((array_fields bound typ "TxHash" "common.Hash" 32).pair
    ((array_fields bound typ "ReceiptHash" "common.Hash" 32).pair
    (array_fields bound typ "Bloom" "types.Bloom" 256))))))

theorem numbers_fields : Rlp.Fields bound encodeNumbers (decodeNumbers typ) :=
  (big_fields bound typ "Difficulty").pair
    ((big_fields bound typ "Number").pair
    ((uint_fields bound typ "GasLimit").pair
    ((uint_fields bound typ "GasUsed").pair (uint_fields bound typ "Time"))))

theorem seal_fields : Rlp.Fields bound encodeSeal (decodeSeal typ) :=
  (data_fields bound typ "Extra").pair
    ((array_fields bound typ "MixDigest" "common.Hash" 32).pair
    (array_fields bound typ "Nonce" "types.BlockNonce" 8))

end Fields

theorem header_codec : InnerCodec encodeHeader Header.values Header.ofValues writeHeader
    decodeHeader Header.normal Header.NoNegative where
  writes := header_writes
  decodes := by
    let typ := "types.Header"
    refine ⟨decodeStruct typ (decodePair
      (decodePair (decodeRoots typ) (decodePair (decodeNumbers typ) (decodeSeal typ)))
      (decodeOptional "BaseFee" decodeBigIntPtr)),?_,?_⟩
    · rw [← decodeStruct_map]
      simp only [decodeHeader,decodeRoots,decodeNumbers,decodeSeal,decodePair,
        Header.ofValues,bind_assoc,pure_bind]
      rfl
    · intro bound
      have front := (roots_fields bound typ).pair
        ((numbers_fields bound typ).pair (seal_fields bound typ))
      have last : Codec bound encodeBig decodeBigIntPtr := (bigInt_codec bound).wrapped "*big.Int"
      exact (front.structOptional typ "BaseFee" last).of_le (Nat.le_succ bound)
  values_ofValues := by
    intro found
    simp only [Header.values,Header.ofValues,(map_toNat_map_cast found.2).1]
    rfl
  ofValues_values := by
    rintro header ⟨difficulty,number,baseFee⟩
    simp [Header.ofValues,Header.values,Header.normal,some_bigIntValue difficulty,
      some_bigIntValue number,map_cast_map_toNat baseFee]
  noNegative_ofValues := by
    intro found
    exact ⟨Int.natCast_nonneg _,Int.natCast_nonneg _,(map_toNat_map_cast found.2).2⟩

end PioplatRelay.Types
