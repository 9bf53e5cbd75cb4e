import PioplatRelay.RlpStream

/-!
# What stream operations consume

The effect of an operation that succeeds is the byte string it consumes: the
input, the input limit and the limit of the innermost list go down by its length
(`Stream.Consumed`).  For headers this gives `Stream.kind_sound` and
`Stream.kind_complete`: exactly the canonical headers are accepted.
-/

namespace PioplatRelay.Rlp

open BigEndian Decoder UInt64 List Nat

/-! ### Outcomes of composed operations -/

namespace Decoder

variable {α β : Type} {first : Decoder α} {next : α → Decoder β} {s after : Stream}

variable {result : α} {error : DecodeErr} {change : DecodeErr → DecodeErr}

theorem bind_of_ok (ran : first s = .ok result after) : (first >>= next) s = next result after := by
  simp [bind,ran]

theorem bind_of_err (failed : first s = .err error after) :
    (first >>= next) s = .err error after := by
  simp [bind,failed]

theorem exists_of_bind_ok {result : β} (ran : (first >>= next) s = .ok result after) :
    ∃ value between, first s = .ok value between ∧ next value between = .ok result after := by
  cases firstRan : first s with
  | ok value between =>
    rw [bind_of_ok firstRan] at ran
    exact ⟨value,between,rfl,ran⟩
  | err error between =>
    rw [bind_of_err firstRan] at ran
    cases ran

theorem bind_err_cases (failed : (first >>= next) s = .err error after) :
    first s = .err error after ∨
      ∃ value between, first s = .ok value between ∧ next value between = .err error after := by
  cases firstRan : first s with
  | ok value between =>
    rw [bind_of_ok firstRan] at failed
    exact .inr ⟨value,between,rfl,failed⟩
  | err other between =>
    rw [bind_of_err firstRan] at failed
    cases failed
    exact .inl rfl

theorem ite_fail_eq_ok_iff {condition : Prop} [Decidable condition] :
    (if condition then fail error else first) s = .ok result after ↔
      ¬condition ∧ first s = .ok result after := by
  split <;> simp_all [fail]

theorem mapErr_of_ok (ran : first s = .ok result after) :
    first.mapErr change s = .ok result after := by
  rw [mapErr,ran]

theorem mapErr_eq_ok_iff :
    first.mapErr change s = .ok result after ↔ first s = .ok result after := by
  rw [mapErr]
  cases first s <;> simp

theorem exists_of_mapErr_err (failed : first.mapErr change s = .err error after) :
    ∃ cause, first s = .err cause after ∧ change cause = error := by
  rw [mapErr] at failed
  cases ran : first s with
  | ok result between =>
    rw [ran] at failed
    cases failed
  | err cause between =>
    rw [ran] at failed
    cases failed
    exact ⟨cause,rfl,rfl⟩

end Decoder

/-- Errors that stand for a failure, and not for the end of a list. -/
def DecodeErr.Plain (error : DecodeErr) : Prop := error ≠ .eol ∧ error ≠ .outOfFuel

instance (error : DecodeErr) : Decidable error.Plain := inferInstanceAs (Decidable (_ ∧ _))

def Decoder.Plain {α : Type} (decoder : Decoder α) : Prop :=
  ∀ ⦃s error after⦄, decoder s = .err error after → error.Plain

namespace Decoder.Plain

variable {α β : Type} {first : Decoder α} {next : α → Decoder β}

theorem pure (result : α) : (Pure.pure result : Decoder α).Plain := by
  intro s error after failed
  cases failed

theorem fail {error : DecodeErr} (plain : error.Plain) : (fail error : Decoder α).Plain := by
  intro s other after failed
  cases failed
  exact plain

theorem bind (firstPlain : first.Plain) (nextPlain : ∀ value, (next value).Plain) :
    (first >>= next).Plain := by
  intro s error after failed
  rcases bind_err_cases failed with firstFailed | ⟨value,between,_,nextFailed⟩
  · exact firstPlain firstFailed
  · exact nextPlain value nextFailed

theorem mapErr {change : DecodeErr → DecodeErr} (plain : first.Plain)
    (kept : ∀ error, error.Plain → (change error).Plain) : (first.mapErr change).Plain := by
  intro s error after failed
  obtain ⟨cause,failedFirst,rfl⟩ := exists_of_mapErr_err failed
  exact kept cause (plain failedFirst)

theorem ite {condition : Prop} [Decidable condition] {yes no : Decoder α} (yesPlain : yes.Plain)
    (noPlain : no.Plain) : (if condition then yes else no).Plain := by
  split
  · exact yesPlain
  · exact noPlain

end Decoder.Plain

/-! ### Unsigned limits -/

theorem uint64_sub_ofNat_add (limit : UInt64) (first second : Nat) :
    limit - UInt64.ofNat first - UInt64.ofNat second = limit - UInt64.ofNat (first + second) := by
  rw [ofNat_add]
  grind

theorem uint64_toNat_sub_ofNat {limit : UInt64} {count : Nat} (le : count ≤ limit.toNat) :
    (limit - UInt64.ofNat count).toNat = limit.toNat - count := by
  have bounded : count < 2 ^ 64 := le.trans_lt limit.toNat_lt
  have countEq : (UInt64.ofNat count).toNat = count := by
    rw [toNat_ofNat']
    exact mod_eq_of_lt bounded
  rw [UInt64.toNat_sub_of_le,countEq]
  rw [le_iff_toNat_le,countEq]
  exact le

namespace Stream

/-- The second stream is the first after `bytes` have been consumed. -/
structure Consumed (s after : Stream) (bytes : List UInt8) : Prop where
  limited : after.limited = true
  input : s.input = bytes ++ after.input
  fits : bytes.length ≤ s.remaining.toNat
  remaining : after.remaining = s.remaining - UInt64.ofNat bytes.length
  stack : after.stack = s.stack.modifyHead (· - UInt64.ofNat bytes.length)

/-- The limits of the stream leave room for `count` bytes. -/
structure Allows (s : Stream) (count : Nat) : Prop where
  remaining : count ≤ s.remaining.toNat
  list : ∀ limit, s.listLimit = some limit → count ≤ limit.toNat

/-- A stream before a value, as after `Reset` and after every value. -/
structure Ready (s : Stream) : Prop where
  limited : s.limited = true
  rearmed : s.kindAhead = none

theorem modifyHead_sub_zero (stack : List UInt64) :
    stack.modifyHead (· - UInt64.ofNat 0) = stack := by
  cases stack with
  | nil => rfl
  | cons limit rest => simp

variable {s after : Stream} {bytes : List UInt8} {byte : UInt8} {size : UInt64} {lengthSize : UInt8}

theorem Consumed.nil (limited : after.limited = true)
    (input : after.input = s.input) (remaining : after.remaining = s.remaining)
    (stack : after.stack = s.stack) : Consumed s after [] where
  limited := limited
  input := input.symm
  fits := zero_le _
  remaining := by simp [remaining]
  stack := by
    rw [stack]
    exact (modifyHead_sub_zero s.stack).symm

theorem Consumed.trans {s between after : Stream} {front back : List UInt8}
    (first : Consumed s between front) (second : Consumed between after back) :
    Consumed s after (front ++ back) where
  limited := second.limited
  input := by rw [first.input,second.input,append_assoc]
  fits := by
    have later := second.fits
    rw [first.remaining,uint64_toNat_sub_ofNat first.fits] at later
    have earlier := first.fits
    rw [length_append]
    omega
  remaining := by
    rw [second.remaining,first.remaining,uint64_sub_ofNat_add,length_append]
  stack := by
    rw [second.stack,first.stack,length_append]
    cases s.stack with
    | nil => rfl
    | cons limit rest => simp [uint64_sub_ofNat_add]

theorem Consumed.congr_right {s after other : Stream}
    (consumed : Consumed s after bytes) (limited : other.limited = after.limited)
    (input : other.input = after.input) (remaining : other.remaining = after.remaining)
    (stack : other.stack = after.stack) : Consumed s other bytes :=
  ⟨limited.trans consumed.limited,by rw [input]; exact consumed.input,consumed.fits,
    remaining.trans consumed.remaining,stack.trans consumed.stack⟩

theorem Consumed.rest_eq {rest : List UInt8} (consumed : Consumed s after bytes)
    (input : s.input = bytes ++ rest) : after.input = rest :=
  append_cancel_left (consumed.input.symm.trans input)

theorem Consumed.allows {count : Nat}
    (consumed : Consumed s after bytes) (allows : s.Allows (bytes.length + count)) :
    after.Allows count where
  remaining := by
    have room := allows.remaining
    rw [consumed.remaining,uint64_toNat_sub_ofNat consumed.fits]
    omega
  list := by
    intro limit limitEq
    rw [listLimit,consumed.stack] at limitEq
    cases stackEq : s.stack with
    | nil =>
      rw [stackEq] at limitEq
      cases limitEq
    | cons outer rest =>
      have room := allows.list outer (by rw [listLimit,stackEq]; rfl)
      rw [stackEq] at limitEq
      cases limitEq
      rw [uint64_toNat_sub_ofNat (by omega)]
      omega

theorem Allows.of_le {s : Stream} {count less : Nat} (allows : s.Allows count)
    (le : less ≤ count) : s.Allows less :=
  ⟨le.trans allows.remaining,fun limit limitEq => le.trans (allows.list limit limitEq)⟩

/-! ### Reads -/

variable {n : UInt64} {rest : List UInt8} {byteval : UInt8}

theorem willRead_eq (limited : s.limited = true) (allows : s.Allows n.toNat) :
    willRead n s = .ok () { s with
      kindAhead := none
      stack := s.stack.modifyHead (· - n)
      remaining := s.remaining - n } := by
  have enough : ¬ n > s.remaining := by
    rw [gt_iff_lt,lt_iff_toNat_lt,not_lt]
    exact allows.remaining
  rw [willRead]
  cases stackEq : s.stack with
  | nil => simp [willRead.limitRemaining,limited,enough]
  | cons limit rest =>
    have inList : ¬ n > limit := by
      rw [gt_iff_lt,lt_iff_toNat_lt,not_lt]
      exact allows.list limit (by rw [listLimit,stackEq]; rfl)
    simp [willRead.limitRemaining,limited,enough,inList]

theorem allows_of_willRead (limited : s.limited = true)
    (ran : willRead n s = .ok () after) : s.Allows n.toNat := by
  have remainingOf : ∀ ⦃t : Stream⦄, willRead.limitRemaining n t = .ok () after →
      t.limited = true → n.toNat ≤ t.remaining.toNat := by
    intro t checked limited
    rw [willRead.limitRemaining,if_pos limited] at checked
    split at checked
    · cases checked
    · rename_i enough
      rw [gt_iff_lt,lt_iff_toNat_lt,not_lt] at enough
      exact enough
  rw [willRead] at ran
  cases stackEq : s.stack with
  | nil =>
    simp only [stackEq] at ran
    have room := remainingOf ran limited
    refine ⟨room,?_⟩
    intro limit limitEq
    rw [listLimit,stackEq] at limitEq
    cases limitEq
  | cons limit rest =>
    simp only [stackEq] at ran
    split at ran
    · cases ran
    · rename_i inList
      have room := remainingOf ran limited
      refine ⟨room,?_⟩
      intro other otherEq
      rw [listLimit,stackEq] at otherEq
      cases otherEq
      rw [gt_iff_lt,lt_iff_toNat_lt,not_lt] at inList
      exact inList

theorem willRead_plain (n : UInt64) : (willRead n).Plain := by
  have remainingPlain : ∀ ⦃t : Stream⦄ ⦃error after⦄,
      willRead.limitRemaining n t = .err error after → error.Plain := by
    intro t error after failed
    rw [willRead.limitRemaining] at failed
    split at failed
    · split at failed
      · cases failed
        decide
      · cases failed
    · cases failed
  intro s error after failed
  rw [willRead] at failed
  split at failed
  · split at failed
    · cases failed
      decide
    · exact remainingPlain failed
  · exact remainingPlain failed

theorem nextBytes_plain (count : Nat) : (nextBytes count).Plain := by
  intro s error after failed
  rw [nextBytes] at failed
  split at failed
  · cases failed
    decide
  · cases failed

theorem nextByte_plain : nextByte.Plain := by
  intro s error after failed
  rw [nextByte] at failed
  split at failed
  · cases failed
    decide
  · cases failed

theorem readFull_plain (n : UInt64) : (readFull n).Plain :=
  (willRead_plain n).bind fun _ => nextBytes_plain n.toNat

theorem readByte_plain : readByte.Plain := (willRead_plain 1).bind fun _ => nextByte_plain

section

variable (limited : s.limited = true)

include limited

theorem readFull_complete (input : s.input = bytes ++ rest) (lengthEq : bytes.length = n.toNat)
    (allows : s.Allows n.toNat) : ∃ after, readFull n s = .ok bytes after ∧ Consumed s after bytes ∧
      after.kindAhead = none := by
  refine ⟨⟨rest,s.remaining - n,s.sizeAhead,s.kinderr,s.stack.modifyHead (· - n),none,
    s.byteval,s.limited⟩,?_,?_,rfl⟩
  · have enough : ¬ (bytes ++ rest).length < n.toNat := by
      rw [length_append]
      omega
    rw [readFull,bind_of_ok (willRead_eq limited allows),nextBytes]
    simp only [input]
    rw [if_neg enough,take_left' lengthEq,drop_left' lengthEq]
  · have countEq : UInt64.ofNat bytes.length = n := by rw [lengthEq,UInt64.ofNat_toNat]
    constructor
    · exact limited
    · exact input
    · rw [lengthEq]
      exact allows.remaining
    · rw [countEq]
    · rw [countEq]

theorem readFull_sound (ran : readFull n s = .ok bytes after) :
    bytes.length = n.toNat ∧ s.Allows n.toNat ∧ Consumed s after bytes ∧
      after.kindAhead = none ∧ after.byteval = s.byteval := by
  obtain ⟨_,between,checked,taken⟩ := exists_of_bind_ok ran
  have allows := allows_of_willRead limited checked
  rw [willRead_eq limited allows] at checked
  cases checked
  rw [nextBytes] at taken
  split at taken
  · cases taken
  · rename_i enough
    simp only at enough
    cases taken
    have lengthEq : (s.input.take n.toNat).length = n.toNat := by
      rw [length_take]
      omega
    have countEq : UInt64.ofNat (s.input.take n.toNat).length = n := by
      rw [lengthEq,UInt64.ofNat_toNat]
    refine ⟨lengthEq,allows,⟨limited,?_,?_,?_,?_⟩,rfl,rfl⟩
    · exact (take_append_drop _ _).symm
    · rw [lengthEq]
      exact allows.remaining
    · rw [countEq]
    · rw [countEq]

theorem readByte_complete (input : s.input = byte :: rest) (allows : s.Allows 1) :
    ∃ after, readByte s = .ok byte after ∧ Consumed s after [byte] ∧ after.kindAhead = none := by
  refine ⟨⟨rest,s.remaining - 1,s.sizeAhead,s.kinderr,s.stack.modifyHead (· - 1),none,
    s.byteval,s.limited⟩,?_,⟨limited,input,allows.remaining,rfl,rfl⟩,rfl⟩
  have checked : willRead 1 s = _ := willRead_eq limited allows
  rw [readByte,bind_of_ok checked,nextByte]
  simp [input]

theorem readByte_sound (ran : readByte s = .ok byte after) :
    Consumed s after [byte] ∧ after.kindAhead = none ∧ after.byteval = s.byteval := by
  obtain ⟨_,between,checked,taken⟩ := exists_of_bind_ok ran
  have allows := allows_of_willRead limited checked
  rw [willRead_eq limited allows] at checked
  cases checked
  rw [nextByte] at taken
  split at taken
  · cases taken
  · rename_i first rest input
    cases taken
    exact ⟨⟨limited,input,allows.remaining,rfl,rfl⟩,rfl,rfl⟩

/-! ### Headers -/

/-- A number of `size` bytes is read; the bytes have no leading zero from two
bytes on. -/
theorem readUint_sound {size : UInt8} {number : UInt64} (small : size ≤ 8)
    (ran : readUint size s = .ok number after) :
    ∃ bytes, bytes.length = size.toNat ∧ Consumed s after bytes ∧ after.kindAhead = none ∧
      after.byteval = s.byteval ∧ number.toNat = value bytes ∧
      (2 ≤ bytes.length → NoLeadingZero bytes) := by
  have sizeLe : size.toNat ≤ 8 := small
  rw [readUint] at ran
  split at ran
  · rename_i isZero
    cases ran
    exact ⟨[],by rw [isZero]; rfl,Consumed.nil limited rfl rfl rfl,rfl,rfl,rfl,by simp⟩
  · split at ran
    · rename_i isOne
      obtain ⟨byte,between,read,rest⟩ := exists_of_bind_ok ran
      cases rest
      obtain ⟨consumed,rearmed,bytevalEq⟩ := readByte_sound limited read
      refine ⟨[byte],by rw [isOne]; rfl,consumed,rearmed,bytevalEq,?_,by simp⟩
      rw [value_singleton,UInt8.toNat_toUInt64]
    · obtain ⟨bytes,between,read,rest⟩ := exists_of_bind_ok ran
      obtain ⟨lengthEq,_,consumed,rearmed,bytevalEq⟩ := readFull_sound limited read
      rw [UInt8.toNat_toUInt64] at lengthEq
      obtain ⟨noZero,rest⟩ := ite_fail_eq_ok_iff.mp rest
      cases rest
      refine ⟨bytes,lengthEq,consumed,rearmed,bytevalEq,?_,fun _ => noZero⟩
      rw [value_replicate_zero_append,toNat_ofNat']
      have bounded := value_lt bytes
      have widen : 256 ^ bytes.length ≤ 256 ^ 8 := Nat.pow_le_pow_right (by omega) (by omega)
      exact mod_eq_of_lt (by omega)

theorem readUint_complete {size : UInt8} (lengthEq : bytes.length = size.toNat)
    (canonical : NoLeadingZero bytes) (input : s.input = bytes ++ rest)
    (allows : s.Allows bytes.length) :
    ∃ after, readUint size s = .ok (UInt64.ofNat (value bytes)) after ∧
      Consumed s after bytes ∧ after.kindAhead = none := by
  rw [readUint]
  split
  · rename_i isZero
    have noBytes : bytes = [] := by
      rw [← length_eq_zero_iff,lengthEq,isZero]
      rfl
    rw [noBytes]
    exact ⟨{ s with kindAhead := none },rfl,Consumed.nil limited rfl rfl rfl,rfl⟩
  · split
    · rename_i isOne
      obtain ⟨byte,rfl⟩ := length_eq_one_iff.mp (lengthEq.trans (congrArg UInt8.toNat isOne))
      obtain ⟨after,read,consumed,rearmed⟩ := readByte_complete limited input allows
      refine ⟨after,?_,consumed,rearmed⟩
      have byteEq : UInt64.ofNat byte.toNat = byte.toUInt64 := by
        apply UInt64.toNat_inj.mp
        rw [toNat_ofNat',UInt8.toNat_toUInt64]
        exact mod_eq_of_lt (byte.toNat_lt.trans (by decide))
      rw [bind_of_ok read,value_singleton,byteEq]
      rfl
    · have countEq : bytes.length = size.toUInt64.toNat := by
        rw [lengthEq,UInt8.toNat_toUInt64]
      rw [countEq] at allows
      obtain ⟨after,read,consumed,rearmed⟩ := readFull_complete limited input countEq allows
      refine ⟨after,?_,consumed,rearmed⟩
      rw [bind_of_ok read,if_neg canonical,value_replicate_zero_append]
      rfl

end

theorem readUint_plain (size : UInt8) : (readUint size).Plain := by
  apply Plain.ite
  · intro s error after failed
    cases failed
  · apply Plain.ite
    · exact readByte_plain.bind fun byte => Plain.pure _
    · apply (readFull_plain _).bind
      intro bytes
      exact Plain.ite (Plain.fail (by decide)) (Plain.pure _)

/-- The long form of a header: the length takes `lengthSize` bytes. -/
theorem readLongSize_sound (limited : s.limited = true) (small : lengthSize ≤ 8)
    (ran : readLongSize lengthSize s = .ok size after) :
    Consumed s after (minimal size.toNat) ∧ after.kindAhead = none ∧
      after.byteval = s.byteval ∧ 56 ≤ size.toNat ∧
      (minimal size.toNat).length = lengthSize.toNat := by
  obtain ⟨number,between,read,rest⟩ := exists_of_bind_ok ran
  obtain ⟨bytes,lengthEq,consumed,rearmed,bytevalEq,numberEq,canonical⟩ :=
    readUint_sound limited small read
  obtain ⟨large,rest⟩ := ite_fail_eq_ok_iff.mp rest
  cases rest
  have above : 56 ≤ size.toNat := Nat.le_of_not_lt large
  have noZero := noLeadingZero_of_value canonical fun _ => by omega
  have bytesEq : minimal size.toNat = bytes := by rw [numberEq,minimal_value noZero]
  rw [bytesEq]
  exact ⟨consumed,rearmed,bytevalEq,above,lengthEq⟩

theorem readLongSize_complete (limited : s.limited = true) (large : 56 ≤ size.toNat)
    (lengthEq : (minimal size.toNat).length = lengthSize.toNat)
    (input : s.input = minimal size.toNat ++ rest) (allows : s.Allows (minimal size.toNat).length) :
    ∃ after, readLongSize lengthSize s = .ok size after ∧
      Consumed s after (minimal size.toNat) ∧ after.kindAhead = none := by
  obtain ⟨after,read,consumed,rearmed⟩ :=
    readUint_complete limited lengthEq (minimal_noLeadingZero _) input allows
  rw [value_minimal,UInt64.ofNat_toNat] at read
  refine ⟨after,?_,consumed,rearmed⟩
  have notSmall : ¬ size < 56 := not_lt.mpr large
  rw [readLongSize,bind_of_ok read,if_neg notSmall]
  rfl

theorem readLongSize_plain (lengthSize : UInt8) : (readLongSize lengthSize).Plain := by
  apply (readUint_plain lengthSize).bind
  intro size
  exact Plain.ite (Plain.fail (by decide)) (Plain.pure _)

def headOf (kind : Kind) (size : UInt64) (byteval : UInt8) : List UInt8 :=
  match kind with
  | .byte => [byteval]
  | .string => stringHeader size.toNat
  | .list => listHeader size.toNat

theorem header_of_short {smalltag largetag byte : UInt8} (above : smalltag ≤ byte)
    (below : byte.toNat < smalltag.toNat + 56) :
    header smalltag largetag (byte - smalltag).toUInt64.toNat = [byte] := by
  have small : (byte - smalltag).toNat < 56 := by
    rw [UInt8.toNat_sub_of_le byte smalltag above]
    omega
  have back : smalltag + (byte - smalltag) = byte := by grind
  rw [UInt8.toNat_toUInt64,header,if_pos small,UInt8.ofNat_toNat,back]

theorem header_of_long {smalltag largetag byte : UInt8} {size : Nat} (large : 56 ≤ size)
    (lengthEq : (minimal size).length = (byte - largetag).toNat) :
    header smalltag largetag size = byte :: minimal size := by
  have back : largetag + (byte - largetag) = byte := by grind
  rw [header,if_neg (by omega),lengthEq,UInt8.ofNat_toNat,back]

variable {k : Kind}

theorem readTag_sound (limited : s.limited = true) (rearmed : s.kindAhead = none)
    (ran : readTag byte s = .ok (k, size) after) :
    ∃ rest, headOf k size after.byteval = byte :: rest ∧ Consumed s after rest ∧
      after.kindAhead = none ∧ (k = .byte → size = 0 ∧ after.byteval < 0x80) := by
  rw [readTag] at ran
  split at ran
  · rename_i isByte
    cases ran
    exact ⟨[],rfl,Consumed.nil limited rfl rfl rfl,rearmed,fun _ => ⟨rfl,isByte⟩⟩
  split at ran
  · rename_i notByte isShort
    cases ran
    refine ⟨[],?_,Consumed.nil limited rfl rfl rfl,rearmed,by simp⟩
    exact header_of_short (Nat.le_of_not_lt notByte) isShort
  split at ran
  · rename_i _ notShort isLong
    obtain ⟨number,between,read,rest⟩ := exists_of_bind_ok ran
    cases rest
    have lengthLe : byte - 0xB7 ≤ 8 := by grind
    obtain ⟨consumed,rearmed',_,large,lengthEq⟩ := readLongSize_sound limited lengthLe read
    exact ⟨_,header_of_long large lengthEq,consumed,rearmed',by simp⟩
  split at ran
  · rename_i _ _ notString isShort
    cases ran
    refine ⟨[],?_,Consumed.nil limited rfl rfl rfl,rearmed,by simp⟩
    exact header_of_short (Nat.le_of_not_lt notString) isShort
  · rename_i _ _ _ notShort
    obtain ⟨number,between,read,rest⟩ := exists_of_bind_ok ran
    cases rest
    have lengthLe : byte - 0xF7 ≤ 8 := by grind
    obtain ⟨consumed,rearmed',_,large,lengthEq⟩ := readLongSize_sound limited lengthLe read
    exact ⟨_,header_of_long large lengthEq,consumed,rearmed',by simp⟩

theorem readTag_plain (byte : UInt8) : (readTag byte).Plain := by
  have longPlain : ∀ (kind : Kind) (lengthSize : UInt8),
      (do let size ← readLongSize lengthSize
          pure (kind, size) : Decoder (Kind × UInt64)).Plain := by
    intro kind lengthSize
    exact (readLongSize_plain lengthSize).bind fun size => Plain.pure _
  apply Plain.ite
  · intro s error after failed
    cases failed
  apply Plain.ite (Plain.pure _)
  apply Plain.ite (longPlain .string _)
  exact Plain.ite (Plain.pure _) (longPlain .list _)

theorem tag_short (smalltag : UInt8) {size : Nat} (small : size < 56)
    (room : smalltag.toNat + 56 ≤ 256) :
    (smalltag + UInt8.ofNat size).toNat = smalltag.toNat + size ∧
      (smalltag + UInt8.ofNat size - smalltag).toUInt64 = UInt64.ofNat size := by
  have sizeEq : (UInt8.ofNat size).toNat = size := by
    rw [UInt8.toNat_ofNat']
    omega
  have back : smalltag + UInt8.ofNat size - smalltag = UInt8.ofNat size := by grind
  constructor
  · rw [UInt8.toNat_add,sizeEq]
    omega
  · rw [back]
    apply UInt64.toNat_inj.mp
    rw [UInt8.toNat_toUInt64,sizeEq,toNat_ofNat']
    omega

theorem tag_long (largetag : UInt8) {length : Nat} (small : length ≤ 8)
    (room : largetag.toNat + 8 < 256) :
    (largetag + UInt8.ofNat length).toNat = largetag.toNat + length ∧
      (largetag + UInt8.ofNat length - largetag).toNat = length := by
  have lengthEq : (UInt8.ofNat length).toNat = length := by
    rw [UInt8.toNat_ofNat']
    omega
  have back : largetag + UInt8.ofNat length - largetag = UInt8.ofNat length := by grind
  constructor
  · rw [UInt8.toNat_add,lengthEq]
    omega
  · rw [back,lengthEq]

theorem readTag_complete {front : List UInt8} (limited : s.limited = true)
    (rearmed : s.kindAhead = none)
    (headEq : headOf k size byteval = byte :: front) (input : s.input = front ++ rest)
    (isByte : k = .byte → size = 0 ∧ byteval < 0x80) (allows : s.Allows front.length) :
    ∃ after, readTag byte s = .ok (k, size) after ∧ Consumed s after front ∧
      after.kindAhead = none ∧ (k = .byte → after.byteval = byteval) := by
  have wordBound : (minimal size.toNat).length ≤ 8 :=
    minimal_length_le_iff.mpr size.toNat_lt
  have sizeBack : UInt64.ofNat size.toNat = size := UInt64.ofNat_toNat
  cases k with
  | byte =>
    rw [headOf,cons.injEq] at headEq
    obtain ⟨rfl,rfl⟩ := headEq
    obtain ⟨rfl,small⟩ := isByte rfl
    rw [readTag,if_pos small]
    exact ⟨{ s with byteval := byteval },rfl,Consumed.nil limited rfl rfl rfl,rearmed,
      fun _ => rfl⟩
  | string =>
    rw [headOf,stringHeader,header] at headEq
    split at headEq
    · rename_i small
      rw [cons.injEq] at headEq
      obtain ⟨rfl,rfl⟩ := headEq
      obtain ⟨tagEq,sizeEq⟩ := tag_short 0x80 small (by decide)
      refine ⟨s,?_,Consumed.nil limited rfl rfl rfl,rearmed,by simp⟩
      rw [readTag,if_neg,if_pos,sizeEq,sizeBack]
      · rfl
      all_goals
        simp only [UInt8.lt_iff_toNat_lt,tagEq,UInt8.reduceToNat]
        omega
    · rename_i large
      rw [cons.injEq] at headEq
      obtain ⟨rfl,rfl⟩ := headEq
      obtain ⟨tagEq,lengthEq⟩ := tag_long 0xB7 wordBound (by decide)
      obtain ⟨after,read,consumed,rearmed'⟩ := readLongSize_complete limited
        (Nat.le_of_not_lt large) lengthEq.symm input allows
      have positive : 0 < (minimal size.toNat).length := minimal_length_pos (by omega)
      refine ⟨after,?_,consumed,rearmed',by simp⟩
      rw [readTag,if_neg,if_neg,if_pos,bind_of_ok read]
      · rfl
      all_goals
        simp only [UInt8.lt_iff_toNat_lt,tagEq,UInt8.reduceToNat]
        omega
  | list =>
    rw [headOf,listHeader,header] at headEq
    split at headEq
    · rename_i small
      rw [cons.injEq] at headEq
      obtain ⟨rfl,rfl⟩ := headEq
      obtain ⟨tagEq,sizeEq⟩ := tag_short 0xC0 small (by decide)
      refine ⟨s,?_,Consumed.nil limited rfl rfl rfl,rearmed,by simp⟩
      rw [readTag,if_neg,if_neg,if_neg,if_pos,sizeEq,sizeBack]
      · rfl
      all_goals
        simp only [UInt8.lt_iff_toNat_lt,tagEq,UInt8.reduceToNat]
        omega
    · rename_i large
      rw [cons.injEq] at headEq
      obtain ⟨rfl,rfl⟩ := headEq
      obtain ⟨tagEq,lengthEq⟩ := tag_long 0xF7 wordBound (by decide)
      obtain ⟨after,read,consumed,rearmed'⟩ := readLongSize_complete limited
        (Nat.le_of_not_lt large) lengthEq.symm input allows
      have positive : 0 < (minimal size.toNat).length := minimal_length_pos (by omega)
      refine ⟨after,?_,consumed,rearmed',by simp⟩
      rw [readTag,if_neg,if_neg,if_neg,if_neg,bind_of_ok read]
      · rfl
      all_goals
        simp only [UInt8.lt_iff_toNat_lt,tagEq,UInt8.reduceToNat]
        omega

theorem toplevelEOF_eq_ok_iff {α : Type} {decoder : Decoder α} {result : α} :
    toplevelEOF decoder s = .ok result after ↔ decoder s = .ok result after := by
  rw [toplevelEOF]
  cases decoder s with
  | ok other between => simp
  | err error between =>
    simp only [reduceCtorEq,iff_false]
    split <;> simp

theorem toplevelEOF_plain {α : Type} {decoder : Decoder α} (plain : decoder.Plain) :
    (toplevelEOF decoder).Plain := by
  intro s error after failed
  rw [toplevelEOF] at failed
  cases ran : decoder s with
  | ok result between =>
    rw [ran] at failed
    cases failed
  | err cause between =>
    rw [ran] at failed
    simp only at failed
    split at failed
    · cases failed
      decide
    · cases failed
      exact plain ran

theorem readKind_plain : readKind.Plain := by
  apply (toplevelEOF_plain readByte_plain).bind
  intro byte
  have setPlain : (setByteval 0).Plain := by
    intro s error after failed
    cases failed
  exact setPlain.bind fun _ => readTag_plain byte

theorem readKind_sound (limited : s.limited = true) (ran : readKind s = .ok (k, size) after) :
    Consumed s after (headOf k size after.byteval) ∧ after.kindAhead = none ∧
      (k = .byte → size = 0 ∧ after.byteval < 0x80) := by
  obtain ⟨byte,between,read,rest⟩ := exists_of_bind_ok ran
  obtain ⟨consumedByte,rearmed,_⟩ := readByte_sound limited (toplevelEOF_eq_ok_iff.mp read)
  obtain ⟨_,reset,resetEq,tagged⟩ := exists_of_bind_ok rest
  cases resetEq
  have consumedReset : Consumed s { between with byteval := 0 } [byte] :=
    consumedByte.congr_right rfl rfl rfl rfl
  obtain ⟨front,headEq,consumedTag,rearmed',isByte⟩ :=
    readTag_sound consumedReset.limited rearmed tagged
  refine ⟨?_,rearmed',isByte⟩
  rw [headEq]
  exact consumedReset.trans consumedTag

theorem readKind_complete (limited : s.limited = true)
    (input : s.input = headOf k size byteval ++ rest)
    (isByte : k = .byte → size = 0 ∧ byteval < 0x80)
    (allows : s.Allows (headOf k size byteval).length) : ∃ after, readKind s = .ok (k, size) after ∧
      Consumed s after (headOf k size byteval) ∧ after.kindAhead = none ∧
      (k = .byte → after.byteval = byteval) := by
  cases headEq : headOf k size byteval with
  | nil =>
    cases k with
    | byte => cases headEq
    | string => exact absurd headEq (header_ne_nil _ _ _)
    | list => exact absurd headEq (header_ne_nil _ _ _)
  | cons byte front =>
    rw [headEq] at input allows
    obtain ⟨between,read,consumedByte,rearmed⟩ :=
      readByte_complete limited input (allows.of_le (by simp))
    have consumedReset : Consumed s { between with byteval := 0 } [byte] :=
      consumedByte.congr_right rfl rfl rfl rfl
    have inputReset : between.input = front ++ rest := consumedByte.rest_eq input
    have allowsReset : ({ between with byteval := 0 } : Stream).Allows front.length := by
      apply consumedReset.allows
      rw [length_singleton,add_comm]
      exact allows
    obtain ⟨after,tagged,consumedTag,rearmed',bytevalEq⟩ :=
      readTag_complete consumedReset.limited rearmed headEq inputReset isByte allowsReset
    refine ⟨after,?_,consumedReset.trans consumedTag,rearmed',bytevalEq⟩
    rw [readKind,bind_of_ok (toplevelEOF_eq_ok_iff.mpr read)]
    exact tagged

/-! ### The kind of the value ahead -/

/-- The header of the value ahead has been read and is kept. -/
structure Ahead (s : Stream) (kind : Kind) (size : UInt64) : Prop where
  kindAhead : s.kindAhead = some kind
  sizeAhead : s.sizeAhead = size
  kinderr : s.kinderr = none
  isByte : kind = .byte → size = 0 ∧ s.byteval < 0x80

theorem Ahead.kind_eq (ahead : s.Ahead k size) : Stream.kind s = .ok (k, size) s := by
  simp [Stream.kind,ahead.kindAhead,ahead.kinderr,ahead.sizeAhead]

theorem kind_at_end (ready : s.Ready) (atEnd : s.listLimit = some 0) : kind s = .err .eol s := by
  simp only [kind,ready.rearmed]
  rw [if_pos atEnd]

theorem kind_sound (ready : s.Ready) (ran : kind s = .ok (k, size) after) :
    Consumed s after (headOf k size after.byteval) ∧ after.Ahead k size := by
  simp only [kind,ready.rearmed] at ran
  split at ran
  · cases ran
  · cases read : readKind s with
    | err error between =>
      rw [read] at ran
      cases ran
    | ok header between =>
      obtain ⟨consumed,_,isByte⟩ := readKind_sound ready.limited read
      simp only [read] at ran
      split at ran
      · cases ran
      · cases ran
        exact ⟨consumed.congr_right rfl rfl rfl rfl,rfl,rfl,rfl,isByte⟩

theorem kind_complete (ready : s.Ready) (input : s.input = headOf k size byteval ++ rest)
    (isByte : k = .byte → size = 0 ∧ byteval < 0x80)
    (allows : s.Allows ((headOf k size byteval).length + size.toNat)) :
    ∃ after, kind s = .ok (k, size) after ∧ Consumed s after (headOf k size byteval) ∧
      after.Ahead k size ∧ (k = .byte → after.byteval = byteval) := by
  have headPos : 0 < (headOf k size byteval).length := by
    cases k with
    | byte => exact one_pos
    | string => exact length_pos_iff.mpr (header_ne_nil _ _ _)
    | list => exact length_pos_iff.mpr (header_ne_nil _ _ _)
  obtain ⟨after,read,consumed,rearmed,bytevalEq⟩ :=
    readKind_complete ready.limited input isByte (allows.of_le (le_add_right _ _))
  have notAtEnd : s.listLimit ≠ some 0 := by
    intro atEnd
    have room := allows.list 0 atEnd
    rw [UInt64.toNat_zero] at room
    omega
  have limitOk : s.listLimit.any (size > ·) = false := by
    cases limitEq : s.listLimit with
    | none => rfl
    | some limit =>
      have room := allows.list limit limitEq
      rw [Option.any_some,decide_eq_false_iff_not,gt_iff_lt,lt_iff_toNat_lt]
      omega
  have remainingOk : ¬ size > after.remaining := by
    have room := (consumed.allows allows).remaining
    rw [gt_iff_lt,lt_iff_toNat_lt]
    omega
  refine ⟨{ after with kindAhead := some k, sizeAhead := size, kinderr := none },?_,
    consumed.congr_right rfl rfl rfl rfl,⟨rfl,rfl,rfl,?_⟩,bytevalEq⟩
  · simp only [kind,ready.rearmed]
    rw [if_neg notAtEnd,read]
    simp [sizeError,limitOk,remainingOk]
  · intro isByteKind
    obtain ⟨sizeEq,small⟩ := isByte isByteKind
    exact ⟨sizeEq,(bytevalEq isByteKind).symm ▸ small⟩

/-- The only error of `kind` that is not a failure is the end of the list, and it
leaves the stream unchanged. -/
theorem kind_err_cases {error : DecodeErr} (ready : s.Ready) (failed : kind s = .err error after) :
    error = .eol ∧ after = s ∧ s.listLimit = some 0 ∨ error.Plain := by
  simp only [kind,ready.rearmed] at failed
  split at failed
  · rename_i atEnd
    cases failed
    exact .inl ⟨rfl,rfl,atEnd⟩
  · right
    cases read : readKind s with
    | err cause between =>
      rw [read] at failed
      cases failed
      exact readKind_plain read
    | ok header between =>
      simp only [read] at failed
      split at failed
      · rename_i cause tooLarge
        cases failed
        rw [sizeError] at tooLarge
        split at tooLarge
        · cases tooLarge
          decide
        · split at tooLarge
          · cases tooLarge
            decide
          · cases tooLarge
      · cases failed

end Stream

end PioplatRelay.Rlp
