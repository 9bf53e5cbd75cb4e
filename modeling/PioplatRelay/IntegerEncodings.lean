import PioplatRelay.RlpRaw
import PioplatRelay.RlpWriters

/-!
# One encoding for every integer

Three encoders write integers and two decoders read them.  All encoders give the
string of the minimal bytes, and neither decoder accepts anything else for the
integer.
-/

namespace PioplatRelay.Rlp

open BigEndian Nat List

/-- The decoder gives the number for its encoding, leaving the bytes after it, and for
no other bytes. -/
def Decodes {α : Type} (decoder : Decoder α) (number : α) (encoding : List UInt8) : Prop :=
  ∀ s : Stream, s.Ready → (∀ rest, s.input = encoding ++ rest → s.Allows encoding.length →
      ∃ after, decoder s = .ok number after ∧ after.input = rest) ∧
    ∀ after, decoder s = .ok number after → s.input = encoding ++ after.input

theorem Codec.decodes {α : Type} {encode : α → List UInt8} {decoder : Decoder α}
    (codec : ∀ bound, Codec bound encode decoder) (number : α) :
    Decodes decoder number (encode number) := by
  intro s ready
  have inside := lt_succ_self s.input.length
  constructor
  · intro rest inputEq allowed
    obtain ⟨after,decoded,consumed,_⟩ := (codec _).complete ready inside inputEq allowed
    refine ⟨after,decoded,?_⟩
    rw [consumed.input] at inputEq
    exact append_cancel_left inputEq
  · intro after decoded
    exact ((codec _).sound ready inside decoded).1.input

/-- Every integer has one encoding, that of its minimal bytes, which all encoders write
and which is all that the decoders take for it. -/
theorem integer_encodings (buf : EncBuffer) (dst : List UInt8) (n : Nat) (word : UInt64) :
    (buf.writeBigInt n = buf.write (encodeString (minimal n)) ∧
      Decodes Stream.decodeBigInt n (encodeString (minimal n))) ∧
    buf.writeUint64 word = buf.write (encodeString (minimal word.toNat)) ∧
      appendUint64 dst word = dst ++ encodeString (minimal word.toNat) ∧
      Decodes (Stream.uint 64) word (encodeString (minimal word.toNat)) :=
  ⟨⟨buf.writeBigInt_eq n,Codec.decodes bigInt_codec n⟩,buf.writeUint64_eq word,
    appendUint64_eq dst word,Codec.decodes uint_codec word⟩

end PioplatRelay.Rlp
