import PioplatRelay.RlpStreamReads

/-!
# Codecs over the stream

A decoder is a codec for an encoding when, before any value, it accepts exactly
the encodings and consumes them.  At the end of a list it reports just that, and
the stream is unchanged.  Codecs are put together from those of strings and numbers
by lists and by structs.  The loops of the model have fuel for the input, so that a
decoder may be known to work on inputs shorter than a `bound` only.
-/

namespace PioplatRelay.Rlp

open BigEndian List Decoder UInt64 Nat
open Rlp.Stream

variable {α β : Type}

structure Codec (bound : Nat) (encode : α → List UInt8) (decoder : Decoder α) : Prop where
  nonempty : ∀ value, encode value ≠ []
  complete : ∀ {s : Stream} {value : α} {rest : List UInt8}, s.Ready →
    s.input.length < bound → s.input = encode value ++ rest → s.Allows (encode value).length →
    ∃ after, decoder s = .ok value after ∧ Consumed s after (encode value) ∧
      after.kindAhead = none
  sound : ∀ {s after : Stream} {value : α}, s.Ready → s.input.length < bound →
    decoder s = .ok value after → Consumed s after (encode value) ∧ after.kindAhead = none
  errors : ∀ {s after : Stream} {error : DecodeErr}, s.Ready → s.input.length < bound →
    decoder s = .err error after →
    error = .eol ∧ after = s ∧ s.listLimit = some 0 ∨ error.Plain
  atEnd : ∀ {s : Stream}, s.Ready → s.input.length < bound → s.listLimit = some 0 →
    decoder s = .err .eol s

/-- What stands between the ends of a list.  `size` is the size of the list. -/
structure Body (bound : Nat) (payload : α → List UInt8) (body : UInt64 → Decoder α) :
    Prop where
  complete : ∀ {s : Stream} {value : α} {rest : List UInt8}, s.Ready →
    s.input.length < bound → s.input = payload value ++ rest → s.Allows (payload value).length →
    s.listLimit = some (UInt64.ofNat (payload value).length) →
    ∃ after, body (UInt64.ofNat (payload value).length) s = .ok value after ∧
      Consumed s after (payload value) ∧ after.kindAhead = none
  sound : ∀ {s after : Stream} {size : UInt64} {value : α}, s.Ready →
    s.input.length < bound → s.listLimit = some size → body size s = .ok value after →
    Consumed s after (payload value) ∧ after.kindAhead = none
  plain : ∀ {s after : Stream} {size : UInt64} {error : DecodeErr}, s.Ready →
    s.input.length < bound → body size s = .err error after → error.Plain

variable {s after : Stream} {bytes : List UInt8} {error : DecodeErr}
  {next : Kind × UInt64 → Decoder α} {bound : Nat} {size : UInt64}

theorem Stream.Consumed.length_eq (consumed : Consumed s after bytes) :
    s.input.length = bytes.length + after.input.length := by
  rw [consumed.input,length_append]

theorem wrapStreamError_plain (typ : String) (plain : error.Plain) :
    (wrapStreamError typ error).Plain := by
  cases error <;> first | exact plain | exact ⟨by simp [wrapStreamError],by simp [wrapStreamError]⟩

theorem addErrorContext_plain (ctx : String) (plain : error.Plain) :
    (addErrorContext ctx error).Plain := by
  cases error <;> first | exact plain | exact ⟨by simp [addErrorContext],by simp [addErrorContext]⟩

/-! ### Values that start with their kind -/

/-- A decoder that starts with `kind` is a codec if what follows reads the payload
that belongs to the header. -/
theorem Codec.of_kind {encode : α → List UInt8} (nonempty : ∀ value, encode value ≠ [])
    (complete : ∀ value, (encode value).length < 2 ^ 64 → ∃ kind size byteval payload,
      encode value = headOf kind size byteval ++ payload ∧ payload.length = size.toNat ∧
      (kind = .byte → size = 0 ∧ byteval < 0x80) ∧
      ∀ {s : Stream} {rest : List UInt8}, s.limited = true → s.Ahead kind size →
        (kind = .byte → s.byteval = byteval) → s.input = payload ++ rest →
        s.Allows payload.length →
        ∃ after, next (kind, size) s = .ok value after ∧ Consumed s after payload ∧
          after.kindAhead = none)
    (sound : ∀ {s after : Stream} {kind : Kind} {size : UInt64} {value : α},
      s.limited = true → s.Ahead kind size → next (kind, size) s = .ok value after →
      ∃ payload, encode value = headOf kind size s.byteval ++ payload ∧
        Consumed s after payload ∧ after.kindAhead = none) (plain : ∀ header, (next header).Plain) :
    Codec bound encode (kind >>= next) where
  nonempty := nonempty
  complete := by
    intro s value rest ready _ input allows
    obtain ⟨kind,size,byteval,payload,encodeEq,lengthEq,isByte,reads⟩ :=
      complete value (allows.remaining.trans_lt s.remaining.toNat_lt)
    rw [encodeEq,append_assoc] at input
    rw [encodeEq,length_append] at allows
    obtain ⟨between,header,consumedHeader,ahead,bytevalEq⟩ :=
      kind_complete ready input isByte (by rwa [← lengthEq])
    have inputRest : between.input = payload ++ rest :=
      consumedHeader.rest_eq input
    obtain ⟨after,read,consumed,rearmed⟩ := reads consumedHeader.limited ahead bytevalEq
      inputRest (consumedHeader.allows allows)
    refine ⟨after,?_,?_,rearmed⟩
    · rw [bind_of_ok header,read]
    · rw [encodeEq]
      exact consumedHeader.trans consumed
  sound := by
    intro s after value ready _ ran
    obtain ⟨⟨kind,size⟩,between,header,read⟩ := exists_of_bind_ok ran
    obtain ⟨consumedHeader,ahead⟩ := kind_sound ready header
    obtain ⟨payload,encodeEq,consumed,rearmed⟩ := sound consumedHeader.limited ahead read
    refine ⟨?_,rearmed⟩
    rw [encodeEq]
    exact consumedHeader.trans consumed
  errors := by
    intro s after error ready _ failed
    rcases bind_err_cases failed with headerFailed | ⟨header,between,_,nextFailed⟩
    · exact kind_err_cases ready headerFailed
    · exact .inr (plain header nextFailed)
  atEnd := by
    intro s ready _ atEnd
    exact bind_of_err (kind_at_end ready atEnd)

theorem readString_plain (size : UInt64) : (readString size).Plain :=
  (readFull_plain size).bind fun _ =>
    Plain.ite (Plain.fail (by decide)) (Plain.pure _)

theorem readString_complete {s : Stream} {bytes rest : List UInt8}
    (limited : s.limited = true) (headed : selfEncoded bytes = false)
    (lengthEq : bytes.length = size.toNat) (input : s.input = bytes ++ rest)
    (allows : s.Allows bytes.length) :
    ∃ after, readString size s = .ok bytes after ∧ Consumed s after bytes ∧
      after.kindAhead = none := by
  rw [lengthEq] at allows
  obtain ⟨after,read,consumed,rearmed⟩ := readFull_complete limited input lengthEq allows
  refine ⟨after,?_,consumed,rearmed⟩
  rw [readString,bind_of_ok read,headed]
  rfl

theorem readString_sound (limited : s.limited = true) (ran : readString size s = .ok bytes after) :
    encodeString bytes = stringHeader size.toNat ++ bytes ∧ Consumed s after bytes ∧
      after.kindAhead = none := by
  obtain ⟨read,between,readEq,checked⟩ := exists_of_bind_ok ran
  obtain ⟨lengthEq,_,consumed,rearmed,_⟩ := readFull_sound limited readEq
  obtain ⟨headed,checked⟩ := ite_fail_eq_ok_iff.mp checked
  cases checked
  refine ⟨?_,consumed,rearmed⟩
  rw [encodeString_of_not_selfEncoded (Bool.eq_false_iff.mpr headed),lengthEq]

theorem encodeString_cases (bytes : List UInt8) :
    (∃ byte, bytes = [byte] ∧ byte < 0x80 ∧ encodeString bytes = [byte]) ∨
      selfEncoded bytes = false ∧ encodeString bytes = stringHeader bytes.length ++ bytes := by
  cases headed : selfEncoded bytes with
  | false => exact .inr ⟨rfl,encodeString_of_not_selfEncoded headed⟩
  | true =>
    left
    unfold selfEncoded at headed
    split at headed
    · rename_i byte
      exact ⟨byte,rfl,of_decide_eq_true headed,encodeString_singleton (of_decide_eq_true headed)⟩
    · cases headed

theorem encodeString_ne_nil (bytes : List UInt8) : encodeString bytes ≠ [] := by
  rcases encodeString_cases bytes with ⟨byte,_,_,encodeEq⟩ | ⟨_,encodeEq⟩
  · rw [encodeEq]
    exact cons_ne_nil _ _
  · rw [encodeEq]
    intro isNil
    exact header_ne_nil _ _ _ (append_eq_nil_iff.mp isNil).1

/-- The header of a string whose encoding fits into a machine word. -/
theorem encodeString_headed (headed : selfEncoded bytes = false)
    (bounded : (encodeString bytes).length < 2 ^ 64) :
    encodeString bytes = headOf .string (UInt64.ofNat bytes.length) 0 ++ bytes ∧
      bytes.length = (UInt64.ofNat bytes.length).toNat := by
  have encodeEq := encodeString_of_not_selfEncoded headed
  rw [encodeEq,length_append] at bounded
  have lengthEq : (UInt64.ofNat bytes.length).toNat = bytes.length :=
    UInt64.toNat_ofNat_of_lt' (show _ < 2 ^ 64 by omega)
  rw [encodeEq,headOf,lengthEq]
  exact ⟨rfl,rfl⟩

/-- A string decoder: the byte of the tag, or the bytes behind the header, are
turned into the value whose string they are. -/
theorem Codec.of_string (toBytes : α → List UInt8)
    (byteComplete : ∀ {value : α} {s : Stream}, toBytes value = [s.byteval] →
      s.byteval < 0x80 → next (.byte, 0) s = .ok value { s with kindAhead := none })
    (stringComplete : ∀ {value : α} {s : Stream} {rest : List UInt8}, s.limited = true →
      selfEncoded (toBytes value) = false → s.input = toBytes value ++ rest →
      (toBytes value).length = (UInt64.ofNat (toBytes value).length).toNat →
      s.Allows (toBytes value).length →
      ∃ after, next (.string, UInt64.ofNat (toBytes value).length) s = .ok value after ∧
        Consumed s after (toBytes value) ∧ after.kindAhead = none)
    (byteSound : ∀ {s after : Stream} {value : α}, s.byteval < 0x80 →
      next (.byte, 0) s = .ok value after →
      toBytes value = [s.byteval] ∧ after = { s with kindAhead := none })
    (stringSound : ∀ {s after : Stream} {size : UInt64} {value : α}, s.limited = true →
      next (.string, size) s = .ok value after →
      encodeString (toBytes value) = stringHeader size.toNat ++ toBytes value ∧
        Consumed s after (toBytes value) ∧ after.kindAhead = none)
    (listFails : ∀ size s value after, next (.list, size) s ≠ .ok value after)
    (plain : ∀ header, (next header).Plain) :
    Codec bound (fun value => encodeString (toBytes value)) (kind >>= next) := by
  apply Codec.of_kind
  · intro value
    exact encodeString_ne_nil _
  · intro value bounded
    rcases encodeString_cases (toBytes value) with ⟨byte,bytesEq,small,encodeEq⟩ | ⟨headed,_⟩
    · refine ⟨.byte,0,byte,[],encodeEq,rfl,fun _ => ⟨rfl,small⟩,?_⟩
      intro s rest limited _ bytevalEq _ _
      have byteEq := bytevalEq rfl
      refine ⟨{ s with kindAhead := none },?_,Consumed.nil limited rfl rfl rfl,rfl⟩
      apply byteComplete
      · rw [bytesEq,byteEq]
      · rwa [byteEq]
    · obtain ⟨encodeEq,lengthEq⟩ := encodeString_headed headed bounded
      refine ⟨.string,_,0,toBytes value,encodeEq,lengthEq,by simp,?_⟩
      intro s rest limited _ _ input allows
      exact stringComplete limited headed input lengthEq allows
  · intro s after kind size value limited ahead ran
    cases kind with
    | byte =>
      obtain ⟨rfl,small⟩ := ahead.isByte rfl
      obtain ⟨bytesEq,rfl⟩ := byteSound small ran
      refine ⟨[],?_,Consumed.nil limited rfl rfl rfl,rfl⟩
      rw [bytesEq,encodeString_singleton small]
      rfl
    | string =>
      obtain ⟨encodeEq,consumed,rearmed⟩ := stringSound limited ran
      exact ⟨_,encodeEq,consumed,rearmed⟩
    | list => exact absurd ran (listFails size s value after)
  · exact plain

theorem bytes_codec (bound : Nat) : Codec bound encodeString Stream.bytes := by
  apply Codec.of_string id
  · intro bytes s bytesEq _
    have single : bytes = [s.byteval] := bytesEq
    subst single
    rfl
  · intro bytes s rest limited headed input lengthEq allows
    exact readString_complete limited headed lengthEq input allows
  · intro s after bytes _ ran
    cases ran
    exact ⟨rfl,rfl⟩
  · intro s after size bytes limited ran
    exact readString_sound limited ran
  · intro size s bytes after ran
    cases ran
  · rintro ⟨kind,size⟩
    cases kind with
    | byte =>
      intro s error after failed
      cases failed
    | string => exact readString_plain size
    | list => exact Plain.fail (by decide)

/-! ### Lists -/

/-- The stream inside a list of the given size, right behind its header. -/
def Entered (s inside : Stream) (size : UInt64) : Prop :=
  ∃ between, Consumed s between (listHeader size.toNat) ∧ inside = { between with
    stack := size :: between.stack.modifyHead (· - size)
    kindAhead := none
    sizeAhead := 0 }

namespace Entered

variable {s inside : Stream} {size : UInt64}

section

variable (entered : Entered s inside size)

include entered

theorem ready : inside.Ready := by
  obtain ⟨between,consumed,rfl⟩ := entered
  exact ⟨consumed.limited,rfl⟩

theorem listLimit_eq : inside.listLimit = some size := by
  obtain ⟨between,_,rfl⟩ := entered
  rfl

theorem input_eq : s.input = listHeader size.toNat ++ inside.input := by
  obtain ⟨between,consumed,rfl⟩ := entered
  exact consumed.input

theorem shorter : inside.input.length < s.input.length := by
  have headPos := length_pos_iff.mpr (header_ne_nil 0xC0 0xF7 size.toNat)
  rw [entered.input_eq,length_append,listHeader]
  omega

theorem allows (room : s.Allows ((listHeader size.toNat).length + size.toNat)) :
    inside.Allows size.toNat := by
  have limitEq := entered.listLimit_eq
  obtain ⟨between,consumed,rfl⟩ := entered
  refine ⟨(consumed.allows room).remaining,?_⟩
  intro limit isLimit
  cases isLimit
  exact le_rfl

/-- The size of a list is the length of what was decoded in it.  The limits may
wrap around, but less than a machine word of input remains. -/
theorem closed {read : Stream} {payload : List UInt8} {rest : List UInt64}
    (consumed : Consumed inside read payload) (stackEq : read.stack = 0 :: rest) :
    Consumed s { read with stack := rest, kindAhead := none, sizeAhead := 0 }
      (listHeader payload.length ++ payload) := by
  obtain ⟨between,consumedHeader,rfl⟩ := entered
  have both := consumed.stack
  rw [stackEq,modifyHead_cons,List.cons.injEq] at both
  have sizeEq : size = UInt64.ofNat payload.length := by grind
  have sizeNat : size.toNat = payload.length := by
    rw [sizeEq]
    exact UInt64.toNat_ofNat_of_lt' (consumed.fits.trans_lt (toNat_lt _))
  rw [sizeNat] at consumedHeader
  apply consumedHeader.trans
  refine { consumed with stack := ?_ }
  rw [← sizeEq]
  exact both.2

end

end Entered

theorem list_sound (ready : s.Ready) (ran : list s = .ok size after) :
    Entered s after size ∧ ∃ between, kind s = .ok (.list, size) between := by
  obtain ⟨⟨kind,headerSize⟩,between,header,entered⟩ := exists_of_bind_ok ran
  obtain ⟨consumed,_⟩ := kind_sound ready header
  simp only at entered
  split at entered
  · rename_i isList
    cases entered
    subst isList
    exact ⟨⟨between,consumed,rfl⟩,between,header⟩
  · cases entered

theorem list_complete {s : Stream} {rest : List UInt8} (ready : s.Ready)
    (input : s.input = listHeader size.toNat ++ rest)
    (allows : s.Allows ((listHeader size.toNat).length + size.toNat)) :
    ∃ inside, list s = .ok size inside ∧ Entered s inside size := by
  have header : ∃ between, kind s = .ok (.list, size) between ∧
      Consumed s between (listHeader size.toNat) ∧ between.Ahead .list size ∧
      (Kind.list = .byte → between.byteval = 0) :=
    kind_complete ready input (by simp) allows
  obtain ⟨between,kindEq,consumed,_,_⟩ := header
  refine ⟨_,?_,between,consumed,rfl⟩
  rw [list,bind_of_ok kindEq]
  rfl

theorem list_err_cases (ready : s.Ready) (failed : list s = .err error after) :
    error = .eol ∧ after = s ∧ s.listLimit = some 0 ∨ error.Plain := by
  rcases bind_err_cases failed with headerFailed | ⟨header,between,_,nextFailed⟩
  · exact kind_err_cases ready headerFailed
  · simp only at nextFailed
    split at nextFailed
    · cases nextFailed
    · cases nextFailed
      exact .inr (by decide)

theorem listEnd_plain : listEnd.Plain := by
  intro s error after failed
  rw [listEnd] at failed
  split at failed
  · cases failed
    decide
  · split at failed
    · cases failed
      decide
    · cases failed

theorem listEnd_eq_ok {s : Stream} {rest : List UInt64} (stackEq : s.stack = 0 :: rest) :
    listEnd s = .ok () { s with stack := rest, kindAhead := none, sizeAhead := 0 } := by
  simp [listEnd,stackEq]

theorem listEnd_sound (ran : listEnd s = .ok () after) :
    ∃ rest, s.stack = 0 :: rest ∧
      after = { s with stack := rest, kindAhead := none, sizeAhead := 0 } := by
  rw [listEnd] at ran
  split at ran
  · cases ran
  · rename_i limit rest stackEq
    split at ran
    · cases ran
    · rename_i notPositive
      cases ran
      have limitZero : limit = 0 := by
        apply UInt64.toNat_inj.mp
        exact le_zero.mp (Nat.le_of_not_lt notPositive)
      exact ⟨rest,by rw [stackEq,limitZero],rfl⟩

/-- Elements between the ends of a list are a codec of the list. -/
theorem Body.enclosed {payload : α → List UInt8} {body : UInt64 → Decoder α}
    (typ : String) {endError : DecodeErr → DecodeErr}
    (keepsPlain : ∀ error, error.Plain → (endError error).Plain) (codec : Body bound payload body) :
    Codec (bound + 1) (fun value => listHeader (payload value).length ++ payload value)
      (decodeEnclosed typ endError body) where
  nonempty := by
    intro value isNil
    exact header_ne_nil _ _ _ (append_eq_nil_iff.mp isNil).1
  complete := by
    intro s value rest ready short input allows
    rw [length_append] at allows
    have payloadLt : (payload value).length < 2 ^ 64 := by
      have room := allows.remaining
      have bounded := s.remaining.toNat_lt
      omega
    have sizeNat := UInt64.toNat_ofNat_of_lt' payloadLt
    rw [append_assoc,← sizeNat] at input
    obtain ⟨inside,listEq,entered⟩ := list_complete ready input (by rwa [sizeNat])
    have insideInput : inside.input = payload value ++ rest :=
      append_cancel_left (entered.input_eq.symm.trans input)
    have insideAllows := entered.allows (by rwa [sizeNat])
    rw [sizeNat] at insideAllows
    obtain ⟨read,bodyEq,consumed,_⟩ := codec.complete entered.ready
      (by have := entered.shorter; omega) insideInput insideAllows entered.listLimit_eq
    -- The payload fills the list exactly, so that its limit is zero at the end.
    obtain ⟨outer,stackEq⟩ : ∃ outer, read.stack = 0 :: outer := by
      obtain ⟨between,_,rfl⟩ := entered
      have stackEq := consumed.stack
      rw [modifyHead_cons,UInt64.sub_self] at stackEq
      exact ⟨_,stackEq⟩
    refine ⟨_,?_,entered.closed consumed stackEq,rfl⟩
    rw [decodeEnclosed,bind_of_ok (mapErr_of_ok listEq),bind_of_ok bodyEq,
      bind_of_ok (mapErr_of_ok (listEnd_eq_ok stackEq))]
    rfl
  sound := by
    intro s after value ready short ran
    obtain ⟨size,inside,listRan,rest⟩ := exists_of_bind_ok ran
    obtain ⟨entered,_⟩ := list_sound ready (mapErr_eq_ok_iff.mp listRan)
    obtain ⟨value',read,bodyRan,ended⟩ := exists_of_bind_ok rest
    obtain ⟨_,closed,endRan,finish⟩ := exists_of_bind_ok ended
    cases finish
    obtain ⟨outer,stackEq,rfl⟩ := listEnd_sound (mapErr_eq_ok_iff.mp endRan)
    obtain ⟨consumed,_⟩ := codec.sound entered.ready (by have := entered.shorter; omega)
      entered.listLimit_eq bodyRan
    exact ⟨entered.closed consumed stackEq,rfl⟩
  errors := by
    intro s after error ready short failed
    rcases bind_err_cases failed with listFailed | ⟨size,inside,listRan,rest⟩
    · obtain ⟨cause,causeFailed,rfl⟩ := exists_of_mapErr_err listFailed
      rcases list_err_cases ready causeFailed with ⟨rfl,afterEq,atEnd⟩ | plain
      · exact .inl ⟨rfl,afterEq,atEnd⟩
      · exact .inr (wrapStreamError_plain typ plain)
    · right
      obtain ⟨entered,_⟩ := list_sound ready (mapErr_eq_ok_iff.mp listRan)
      rcases bind_err_cases rest with bodyFailed | ⟨value,read,_,ended⟩
      · exact codec.plain entered.ready (by have := entered.shorter; omega) bodyFailed
      · rcases bind_err_cases ended with endFailed | ⟨_,closed,_,finish⟩
        · exact listEnd_plain.mapErr keepsPlain endFailed
        · cases finish
  atEnd := by
    intro s ready _ atEnd
    have listEq : list s = .err .eol s := bind_of_err (kind_at_end ready atEnd)
    rw [decodeEnclosed,bind_of_err]
    rw [mapErr,listEq]
    rfl

/-! ### Slices -/

section Slices

variable {encode : α → List UInt8} {elemdec : Decoder α} {rounds i : Nat} {elements : List α}

theorem sliceLoop_of_eol (ended : elemdec s = .err .eol after) :
    sliceLoop elemdec (rounds + 1) i s = .ok [] after := by
  simp [sliceLoop,ended]

theorem sliceLoop_of_err (failed : elemdec s = .err error after) (plain : error.Plain) :
    sliceLoop elemdec (rounds + 1) i s =
      .err (addErrorContext ("[" ++ toString i ++ "]") error) after := by
  simp only [sliceLoop,failed]
  rw [if_neg plain.1]

theorem sliceLoop_of_ok {element : α} (decoded : elemdec s = .ok element after) :
    sliceLoop elemdec (rounds + 1) i s =
      (do let elements ← sliceLoop elemdec rounds (i + 1)
          pure (element :: elements) : Decoder (List α)) after := by
  simp [sliceLoop,decoded]

section

variable (codec : Codec bound encode elemdec)

include codec

theorem sliceLoop_sound (ready : s.Ready)
    (short : s.input.length < bound) (ran : sliceLoop elemdec rounds i s = .ok elements after) :
    Consumed s after (elements.flatMap encode) ∧ after.kindAhead = none := by
  induction rounds generalizing i s elements with
  | zero => cases ran
  | succ rounds ih =>
    cases decoded : elemdec s with
    | err error between =>
      rcases codec.errors ready short decoded with ⟨rfl,rfl,_⟩ | plain
      · rw [sliceLoop_of_eol decoded] at ran
        cases ran
        exact ⟨Consumed.nil ready.limited rfl rfl rfl,ready.rearmed⟩
      · rw [sliceLoop_of_err decoded plain] at ran
        cases ran
    | ok element between =>
      rw [sliceLoop_of_ok decoded] at ran
      obtain ⟨consumed,rearmed⟩ := codec.sound ready short decoded
      obtain ⟨later,read,loopRan,finish⟩ := exists_of_bind_ok ran
      cases finish
      have lengths := consumed.length_eq
      obtain ⟨consumedLater,rearmedLater⟩ :=
        ih ⟨consumed.limited,rearmed⟩ (by omega) loopRan
      exact ⟨consumed.trans consumedLater,rearmedLater⟩

theorem sliceLoop_complete {rest : List UInt8}
    (ready : s.Ready) (short : s.input.length < bound) (enough : s.input.length < rounds)
    (input : s.input = elements.flatMap encode ++ rest)
    (allows : s.Allows (elements.flatMap encode).length)
    (filled : s.listLimit = some (UInt64.ofNat (elements.flatMap encode).length)) :
    ∃ after, sliceLoop elemdec rounds i s = .ok elements after ∧
      Consumed s after (elements.flatMap encode) ∧ after.kindAhead = none := by
  induction elements generalizing rounds i s with
  | nil =>
    obtain ⟨rounds,rfl⟩ := exists_eq_succ_of_ne_zero (ne_zero_of_lt enough)
    have ended := codec.atEnd ready short filled
    exact ⟨s,sliceLoop_of_eol ended,Consumed.nil ready.limited rfl rfl rfl,ready.rearmed⟩
  | cons element elements ih =>
    obtain ⟨rounds,rfl⟩ := exists_eq_succ_of_ne_zero (ne_zero_of_lt enough)
    rw [flatMap_cons] at input allows filled
    rw [append_assoc] at input
    rw [length_append] at allows
    obtain ⟨between,decoded,consumed,rearmed⟩ :=
      codec.complete ready short input (allows.of_le (le_add_right _ _))
    have betweenInput : between.input = elements.flatMap encode ++ rest := consumed.rest_eq input
    have betweenFilled :
        between.listLimit = some (UInt64.ofNat (elements.flatMap encode).length) := by
      rw [listLimit] at filled ⊢
      rw [consumed.stack,head?_modifyHead,filled,length_append,ofNat_add,Option.map_some]
      congr 1
      grind
    have positive := length_pos_iff.mpr (codec.nonempty element)
    have lengths := consumed.length_eq
    have roundsLeft : between.input.length < rounds := by omega
    obtain ⟨after,loopEq,consumedLater,rearmedLater⟩ := ih ⟨consumed.limited,rearmed⟩
      (by omega) roundsLeft betweenInput (consumed.allows allows) betweenFilled
    refine ⟨after,?_,consumed.trans consumedLater,rearmedLater⟩
    rw [sliceLoop_of_ok decoded]
    exact bind_of_ok loopEq

theorem sliceLoop_err_plain (ready : s.Ready)
    (short : s.input.length < bound) (enough : s.input.length < rounds)
    (failed : sliceLoop elemdec rounds i s = .err error after) : error.Plain := by
  induction rounds generalizing i s with
  | zero => omega
  | succ rounds ih =>
    cases decoded : elemdec s with
    | err cause between =>
      rcases codec.errors ready short decoded with ⟨rfl,rfl,_⟩ | plain
      · rw [sliceLoop_of_eol decoded] at failed
        cases failed
      · rw [sliceLoop_of_err decoded plain] at failed
        cases failed
        exact addErrorContext_plain _ plain
    | ok element between =>
      rw [sliceLoop_of_ok decoded] at failed
      obtain ⟨consumed,rearmed⟩ := codec.sound ready short decoded
      have positive := length_pos_iff.mpr (codec.nonempty element)
      have lengths := consumed.length_eq
      rcases bind_err_cases failed with loopFailed | ⟨later,read,_,finish⟩
      · exact ih ⟨consumed.limited,rearmed⟩ (by omega) (by omega) loopFailed
      · cases finish

theorem slice_body : Body bound (fun elements => elements.flatMap encode)
      (fun size => if size = 0 then pure [] else decodeSliceElems elemdec) where
  complete := by
    intro s elements rest ready short input allows filled
    split
    · rename_i isZero
      -- An empty list has no elements: each would take a byte.
      have lengthZero : (elements.flatMap encode).length = 0 := by
        have back := UInt64.toNat_ofNat_of_lt' (allows.remaining.trans_lt s.remaining.toNat_lt)
        rw [isZero] at back
        exact back.symm
      have noElements : elements = [] := by
        cases elements with
        | nil => rfl
        | cons element elements =>
          have positive := length_pos_iff.mpr (codec.nonempty element)
          rw [flatMap_cons,length_append] at lengthZero
          omega
      subst noElements
      exact ⟨s,rfl,Consumed.nil ready.limited rfl rfl rfl,ready.rearmed⟩
    · exact sliceLoop_complete codec ready short (lt_succ_self _) input allows filled
  sound := by
    intro s after size elements ready short _ ran
    split at ran
    · cases ran
      exact ⟨Consumed.nil ready.limited rfl rfl rfl,ready.rearmed⟩
    · exact sliceLoop_sound codec ready short ran
  plain := by
    intro s after size error ready short failed
    split at failed
    · cases failed
    · exact sliceLoop_err_plain codec ready short (lt_succ_self _) failed

end

theorem Codec.slice (typ : String) (codec : Codec bound encode elemdec) : Codec (bound + 1)
      (fun elements => listHeader (elements.flatMap encode).length ++ elements.flatMap encode)
      (decodeListSlice typ elemdec) :=
  (slice_body codec).enclosed typ fun _ plain => plain

end Slices

end PioplatRelay.Rlp
