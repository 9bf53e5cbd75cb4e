import PioplatRelay.TransactionRoundTrip

/-!
# The size of a transaction

A transaction keeps the size it had when it was decoded; the size of one that was
built is counted on the first call of `Size`, without the type byte.
-/

namespace PioplatRelay.Types

open Rlp Decoder TxData List Rlp.Stream

structure SizedTx where
  inner : TxData
  /-- What `size` keeps, if it was stored. -/
  size : Option Nat

def listSize (contentSize : Nat) : Nat :=
  (if contentSize < 56 then 1 else 1 + intsize contentSize) + contentSize

namespace SizedTx

def setDecoded (inner : TxData) (size : Nat) : SizedTx :=
  ⟨inner, if size > 0 then some size else none⟩

/-- `NewTx`: the copy has zero for each integer that was nil. -/
def newTx (inner : TxData) : SizedTx := setDecoded inner.normal 0

def decodeRLP : Decoder SizedTx := do
  let (kind, size) ← Stream.kind
  match kind with
  | .list => do
      let inner ← decode "types.LegacyTx" decodeLegacyTx
      pure (setDecoded (.legacy inner) (listSize size.toNat))
  | .string => do
      let bytes ← Stream.bytes
      let inner ← liftExcept (decodeTyped bytes)
      pure (setDecoded inner bytes.length)
  | .byte => Decoder.fail .expectedList

def unmarshalBinary (bytes : List UInt8) : Except DecodeErr SizedTx :=
  (Types.unmarshalBinary bytes).map (setDecoded · bytes.length)

/-- `Size`, with the transaction that keeps the answer. -/
def getSize (tx : SizedTx) : Nat × SizedTx :=
  match tx.size with
  | some size => (size, tx)
  | none =>
      let c := (hashed tx.inner.writer []).length
      (c, ⟨tx.inner,some c⟩)

/-- The transactions of a program, and whether they were decoded or built. -/
inductive Made : Bool → SizedTx → Prop
  | newTx (inner : TxData) : Made false (newTx inner)
  | decodeRLP {s after : Stream} {tx : SizedTx} (ready : s.Ready)
      (ran : decodeRLP s = .ok tx after) : Made true tx
  | unmarshalBinary {bytes : List UInt8} {tx : SizedTx}
      (ran : unmarshalBinary bytes = .ok tx) : Made true tx
  | getSize {decoded : Bool} {tx : SizedTx} (made : Made decoded tx) :
      Made decoded (getSize tx).2

variable {decoded : Bool} {tx : SizedTx} {s u v : Stream} {x y bytes : List UInt8}

theorem listHeader_unique {a b : UInt64} (ready : s.Ready)
    (first : Consumed s u (listHeader a.toNat ++ x))
    (second : Consumed s v (listHeader b.toNat ++ y)) : a = b := by
  have tagged : ∀ {size : UInt64} {w : Stream} {z : List UInt8},
      Consumed s w (listHeader size.toNat ++ z) →
        ∃ after, readTag (s.input.headD 0) { s with input := s.input.tail, stack := [] } =
          .ok (.list, size) after := by
    intro size w z consumed
    obtain ⟨byte,front,headEq⟩ := exists_cons_of_ne_nil (header_ne_nil 0xC0 0xF7 size.toNat)
    have fits := consumed.fits
    have input := consumed.input
    rw [listHeader,headEq,cons_append,length_cons,length_append] at fits
    rw [listHeader,headEq,append_assoc,cons_append] at input
    have isHead : headOf .list size 0 = byte :: front := headEq
    rw [input]
    -- with no list open, only the input matters
    obtain ⟨after,tag,_⟩ := readTag_complete ready.limited ready.rearmed isHead rfl (by simp)
      (s := { s with input := front ++ (z ++ w.input), stack := [] })
      ⟨by grind,by simp [listLimit]⟩
    exact ⟨after,tag⟩
  obtain ⟨after,tag⟩ := tagged first
  obtain ⟨after',tag'⟩ := tagged second
  rw [tag] at tag'
  cases tag'
  rfl

theorem getSize_setDecoded (inner : TxData) {size : Nat} (positive : 0 < size) :
    (setDecoded inner size).getSize.1 = size := by
  rw [setDecoded,if_pos positive]
  rfl

theorem binary_length_pos (tx : TxData) : 0 < tx.binary.length := by
  cases tx with
  | legacy tx => exact length_pos_iff.mpr (legacy tx).body_ne_nil
  | accessList tx => exact Nat.succ_pos _
  | dynamicFee tx => exact Nat.succ_pos _

theorem body_length_eq_iff (tx : TxData) :
    tx.body.length = tx.binary.length ↔ tx.txType = legacyTxType := by
  cases tx with
  | legacy tx => exact iff_of_true rfl rfl
  | accessList tx => exact iff_of_false (Nat.ne_add_one _) (accessList_typed tx)
  | dynamicFee tx => exact iff_of_false (Nat.ne_add_one _) (dynamicFee_typed tx)

theorem of_marshalBinary {tx : TxData} (marshalled : marshalBinary tx = .ok bytes) :
    tx.NoNegative ∧ tx.binary = bytes := by
  have valid : tx.NoNegative := by
    by_contra invalid
    rw [marshalBinary_refused invalid] at marshalled
    cases marshalled
  rw [marshalBinary_eq valid] at marshalled
  exact ⟨valid,Except.ok.inj marshalled⟩

theorem getSize_of_decodeRLP (ready : s.Ready) (ran : decodeRLP s = .ok tx u) :
    tx.getSize.1 = tx.inner.binary.length := by
  obtain ⟨⟨kind,size⟩,between,header,rest⟩ := exists_of_bind_ok ran
  cases kind with
  | byte => cases rest
  | list =>
    obtain ⟨inner,read,innerRan,finish⟩ := exists_of_bind_ok rest
    cases finish
    have fromStart := (decodeLegacyTx_startsWithKind.mapErr _ ready header).symm.trans innerRan
    obtain ⟨_,_,consumed,_⟩ := legacy_codec.sound ready (decode_eq_ok_iff.mp fromStart)
    have consumedHeader := (kind_sound ready header).1
    have lengthEq : (legacy inner).binary.length = listSize size.toNat := by
      obtain ⟨payload,binaryEq⟩ : ∃ payload : List UInt8,
        encodeLegacy inner.values = listHeader payload.length ++ payload := ⟨_,rfl⟩
      have fits := consumed.fits
      rw [binaryEq] at consumed
      rw [binaryEq,length_append] at fits
      have sizeNat : (UInt64.ofNat payload.length).toNat = payload.length :=
        UInt64.toNat_ofNat_of_lt' ((by omega : _ ≤ s.remaining.toNat).trans_lt s.remaining.toNat_lt)
      rw [← sizeNat] at consumed
      have sizeEq := listHeader_unique ready (by rwa [append_nil]) consumed
      rw [binary,body,binaryEq,length_append,listHeader_length,listSize,sizeEq,sizeNat]
    rw [← lengthEq]
    exact getSize_setDecoded _ (binary_length_pos _)
  | string =>
    obtain ⟨bytes,read,bytesRan,finish⟩ := exists_of_bind_ok rest
    cases typedEq : decodeTyped bytes with
    | error error =>
      rw [typedEq] at finish
      cases finish
    | ok inner =>
      rw [typedEq] at finish
      cases finish
      obtain ⟨_,_,_,binaryEq⟩ := of_decodeTyped typedEq
      rw [← binaryEq]
      exact getSize_setDecoded inner (binary_length_pos inner)

theorem Made.getSize_eq (made : Made decoded tx) :
    tx.getSize.1 = if decoded then tx.inner.binary.length else
      (hashed tx.inner.writer []).length := by
  induction made with
  | newTx inner => rfl
  | decodeRLP ready ran => exact getSize_of_decodeRLP ready ran
  | unmarshalBinary ran =>
    obtain ⟨inner,found,rfl⟩ := exists_of_map_ok ran
    rw [← (of_unmarshalBinary found).2.2]
    exact getSize_setDecoded inner (binary_length_pos inner)
  | @getSize decoded tx made ih => obtain ⟨inner,_ | size⟩ := tx <;> exact ih

/-- A transaction that was decoded has the size of its canonical encoding; one that
was built has it only if it is a legacy transaction, and otherwise decoding changes
the size. -/
theorem getSize_eq_binary_iff (made : Made decoded tx)
    (marshalled : marshalBinary tx.inner = .ok bytes) :
    (tx.getSize.1 = bytes.length ↔ decoded = true ∨ tx.inner.txType = legacyTxType) ∧
      ∀ back, Made true back → marshalBinary back.inner = .ok bytes →
        (back.getSize.1 = tx.getSize.1 ↔
          decoded = true ∨ tx.inner.txType = legacyTxType) := by
  obtain ⟨valid,rfl⟩ := of_marshalBinary marshalled
  have exact : tx.getSize.1 = tx.inner.binary.length ↔
      decoded = true ∨ tx.inner.txType = legacyTxType := by
    rw [made.getSize_eq,hashed,tx.inner.writer_writes.toBuffer_eq valid]
    cases decoded with
    | true => exact iff_of_true rfl (.inl rfl)
    | false => exact (body_length_eq_iff tx.inner).trans (by simp)
  refine ⟨exact,?_⟩
  intro back backMade backMarshalled
  rw [backMade.getSize_eq,if_pos rfl,(of_marshalBinary backMarshalled).2]
  exact eq_comm.trans exact

theorem newTx_typed_size_differs :
    (marshalBinary (newTx creationTx).inner).toOption.map length = some 88 ∧
      (newTx creationTx).getSize.1 = 87 := by
  decide +kernel

def transferTx : TxData := .legacy ⟨1, some 5, 21000, none, some 9, [], none, none, none⟩

theorem newTx_legacy_size : ∃ bytes, marshalBinary (newTx transferTx).inner = .ok bytes ∧
    (newTx transferTx).getSize.1 = bytes.length := by
  have marshalled : marshalBinary transferTx.normal = .ok _ := marshalBinary_eq (by decide)
  exact ⟨_,marshalled,(getSize_eq_binary_iff (.newTx transferTx) marshalled).1.mpr (.inr rfl)⟩

end SizedTx

end PioplatRelay.Types
