import PioplatRelay.RlpCodecs
import PioplatRelay.RlpEncOutput

/-!
# Items and their encodings

`decodeInterface` is a codec for the recursive encoding of items, and the writer
of such values adds exactly that encoding to the buffer.  So decoding undoes
encoding, and whatever is accepted is the encoding of the result.
-/

namespace PioplatRelay.Rlp

open Rlp.Stream Item Decoder EncBuffer List

variable {α β : Type}

/-! ### Looking at the kind first -/

variable {s after : Stream} {decoder : Decoder α} {typ : String} {value : α} {bytes : List UInt8}
  {depth bound : Nat} {encode : α → List UInt8}

theorem Decoder.bind_congr {first : Decoder α} {next : α → Decoder β} {t : Stream}
    (same : first s = first t) : (first >>= next) s = (first >>= next) t := by
  cases ran : first t with
  | ok value after => rw [bind_of_ok ran,bind_of_ok (same.trans ran)]
  | err error after => rw [bind_of_err ran,bind_of_err (same.trans ran)]

/-- The decoder does the same after its header has been read. -/
def StartsWithKind (decoder : Decoder α) : Prop :=
  ∀ ⦃s between header⦄, s.Ready → Stream.kind s = .ok header between → decoder between = decoder s

theorem startsWithKind_bind (next : Kind × UInt64 → Decoder α) :
    StartsWithKind (Stream.kind >>= next) := by
  intro s between header ready ran
  apply Decoder.bind_congr
  rw [ran]
  exact (kind_sound ready ran).2.kind_eq

theorem StartsWithKind.mapErr (starts : StartsWithKind decoder) (change : DecodeErr → DecodeErr) :
    StartsWithKind (decoder.mapErr change) := by
  intro s between header ready ran
  rw [Decoder.mapErr,Decoder.mapErr,starts ready ran]

theorem StartsWithKind.bind (starts : StartsWithKind decoder) (next : α → Decoder β) :
    StartsWithKind (decoder >>= next) := by
  intro s between header ready ran
  exact Decoder.bind_congr (starts ready ran)

theorem decodeEnclosed_startsWithKind (typ : String) (endError : DecodeErr → DecodeErr)
    (elements : UInt64 → Decoder α) : StartsWithKind (decodeEnclosed typ endError elements) :=
  ((startsWithKind_bind _).mapErr _).bind _

theorem bytes_startsWithKind : StartsWithKind Stream.bytes := startsWithKind_bind _

theorem exists_kind_of_enclosed_ok {endError : DecodeErr → DecodeErr}
    {elements : UInt64 → Decoder α} (ready : s.Ready)
    (ran : decodeEnclosed typ endError elements s = .ok value after) :
    ∃ size between, Stream.kind s = .ok (.list, size) between := by
  obtain ⟨size,inside,listRan,_⟩ := exists_of_bind_ok ran
  obtain ⟨_,between,header⟩ := list_sound ready (mapErr_eq_ok_iff.mp listRan)
  exact ⟨size,between,header⟩

theorem exists_kind_of_bytes_ok (ran : Stream.bytes s = .ok bytes after) :
    ∃ kind size between, Stream.kind s = .ok (kind, size) between ∧ kind ≠ .list := by
  obtain ⟨⟨kind,size⟩,between,header,rest⟩ := exists_of_bind_ok ran
  refine ⟨kind,size,between,header,?_⟩
  rintro rfl
  cases rest

/-! ### Interfaces -/

theorem Item.encodeAll_eq_flatMap (items : List Item) :
    encodeAll items = items.flatMap Item.encode := by
  induction items with
  | nil => simp
  | cons item items ih => rw [encodeAll_cons,flatMap_cons,ih]

theorem Item.encode_list_eq (elements : List Item) : (list elements).encode =
      listHeader (elements.flatMap Item.encode).length ++ elements.flatMap Item.encode := by
  rw [encode_list,encodeAll_eq_flatMap]

theorem Item.encode_ne_nil (item : Item) : item.encode ≠ [] := by
  cases item with
  | str bytes =>
    rw [encode_str]
    exact encodeString_ne_nil bytes
  | list elements =>
    rw [encode_list]
    intro isNil
    exact header_ne_nil _ _ _ (append_eq_nil_iff.mp isNil).1

theorem decodeInterface_of_list {between : Stream} {size : UInt64} (ready : s.Ready)
    (header : Stream.kind s = .ok (.list, size) between) :
    decodeInterface (depth + 1) s =
      (do let elements ← decodeListSlice "[]interface {}" (decodeInterface depth)
          pure (.list elements) : Decoder Item) s := by
  rw [decodeInterface,bind_of_ok header]
  exact Decoder.bind_congr (decodeEnclosed_startsWithKind _ _ _ ready header)

theorem decodeInterface_of_string {between : Stream} {kind : Kind} {size : UInt64} (ready : s.Ready)
    (header : Stream.kind s = .ok (kind, size) between) (notList : kind ≠ .list) :
    decodeInterface (depth + 1) s =
      (do let bytes ← Stream.bytes
          pure (.str bytes) : Decoder Item) s := by
  rw [decodeInterface,bind_of_ok header]
  simp only
  rw [if_neg notList]
  exact Decoder.bind_congr (bytes_startsWithKind ready header)

theorem decodeInterface_of_err {error : DecodeErr} (failed : Stream.kind s = .err error after) :
    decodeInterface (depth + 1) s = .err error after :=
  bind_of_err failed

/-- Every value is a codec as deep as the fuel allows; an input has no more
levels than bytes. -/
theorem interface_codec (depth : Nat) : Codec depth Item.encode (decodeInterface depth) := by
  induction depth with
  | zero =>
    constructor
    · exact encode_ne_nil
    all_goals
      intros
      omega
  | succ depth ih =>
    have lists := ih.slice "[]interface {}"
    have strings := bytes_codec (depth + 1)
    constructor
    case nonempty => exact encode_ne_nil
    case complete =>
      intro s item rest ready short input allows
      cases item with
      | str bytes =>
        rw [encode_str] at input allows ⊢
        obtain ⟨after,read,consumed⟩ := strings.complete ready short input allows
        obtain ⟨kind,size,between,header,notList⟩ := exists_kind_of_bytes_ok read
        refine ⟨after,?_,consumed⟩
        rw [decodeInterface_of_string ready header notList,bind_of_ok read]
        rfl
      | list elements =>
        rw [encode_list_eq] at input allows ⊢
        obtain ⟨after,read,consumed⟩ := lists.complete ready short input allows
        obtain ⟨size,between,header⟩ := exists_kind_of_enclosed_ok ready read
        refine ⟨after,?_,consumed⟩
        rw [decodeInterface_of_list ready header,bind_of_ok read]
        rfl
    case sound =>
      intro s after item ready short ran
      obtain ⟨⟨kind,size⟩, between, header, _⟩ := exists_of_bind_ok ran
      by_cases isList : kind = .list
      · subst isList
        rw [decodeInterface_of_list ready header] at ran
        obtain ⟨elements,read,listRan,finish⟩ := exists_of_bind_ok ran
        cases finish
        rw [encode_list_eq]
        exact lists.sound ready short listRan
      · rw [decodeInterface_of_string ready header isList] at ran
        obtain ⟨bytes,read,bytesRan,finish⟩ := exists_of_bind_ok ran
        cases finish
        rw [encode_str]
        exact strings.sound ready short bytesRan
    case errors =>
      intro s after error ready short failed
      cases header : Stream.kind s with
      | err cause between =>
        rw [decodeInterface_of_err header] at failed
        cases failed
        exact kind_err_cases ready header
      | ok pair between =>
        obtain ⟨kind,size⟩ := pair
        by_cases isList : kind = .list
        · subst isList
          rw [decodeInterface_of_list ready header] at failed
          rcases bind_err_cases failed with listFailed | ⟨_,_,_,finish⟩
          · exact lists.errors ready short listFailed
          · cases finish
        · rw [decodeInterface_of_string ready header isList] at failed
          rcases bind_err_cases failed with bytesFailed | ⟨_,_,_,finish⟩
          · exact strings.errors ready short bytesFailed
          · cases finish
    case atEnd =>
      intro s ready _ atEnd
      exact decodeInterface_of_err (kind_at_end ready atEnd)

/-! ### Whole inputs -/

theorem reset_ready (bytes : List UInt8) : (reset bytes).Ready := ⟨rfl,rfl⟩

theorem decode_eq_ok_iff : decode typ decoder s = .ok value after ↔ decoder s = .ok value after :=
  mapErr_eq_ok_iff

theorem reset_allows (bounded : bytes.length < 2 ^ 64) : (reset bytes).Allows bytes.length := by
  constructor
  · exact (UInt64.toNat_ofNat_of_lt' bounded).ge
  · intro limit limitEq
    cases limitEq

theorem decodeBytes_of_consumed (ran : decoder (reset bytes) = .ok value after)
    (consumed : Consumed (reset bytes) after bytes) :
    decodeBytes typ decoder bytes = .ok value := by
  have lengths := consumed.length_eq
  have allRead : ¬ after.input.length > 0 := by
    rw [reset] at lengths
    simp only at lengths
    omega
  rw [decodeBytes,decode_eq_ok_iff.mpr ran]
  simp only
  rw [if_neg allRead]

theorem exists_of_decodeBytes (accepted : decodeBytes typ decoder bytes = .ok value) :
    ∃ after, decoder (reset bytes) = .ok value after ∧ after.input = [] := by
  rw [decodeBytes] at accepted
  split at accepted
  · cases accepted
  · rename_i result after ran
    split at accepted
    · cases accepted
    · rename_i allRead
      cases accepted
      exact ⟨after,decode_eq_ok_iff.mp ran,length_eq_zero_iff.mp (by omega)⟩

theorem Codec.decodeBytes_encode (typ : String) (codec : Codec bound encode decoder)
    (short : (encode value).length < bound) (bounded : (encode value).length < 2 ^ 64) :
    decodeBytes typ decoder (encode value) = .ok value := by
  obtain ⟨after,ran,consumed,_⟩ := codec.complete (reset_ready _) short
    (append_nil _).symm (reset_allows bounded)
  exact decodeBytes_of_consumed ran consumed

theorem Codec.eq_encode_of_decodeBytes (codec : Codec bound encode decoder)
    (short : bytes.length < bound) (accepted : decodeBytes typ decoder bytes = .ok value) :
    encode value = bytes := by
  obtain ⟨after,ran,nothingLeft⟩ := exists_of_decodeBytes accepted
  obtain ⟨consumed,_⟩ := codec.sound (reset_ready bytes) short ran
  have whole : bytes = encode value ++ after.input := consumed.input
  rw [whole,nothingLeft,append_nil]

theorem exists_of_decodeBytes_outOfFuel
    (exhausted : decodeBytes typ decoder bytes = .error .outOfFuel) :
    ∃ after, decoder (reset bytes) = .err .outOfFuel after := by
  rw [decodeBytes] at exhausted
  split at exhausted
  · rename_i error after failed
    cases exhausted
    obtain ⟨cause,causeFailed,changed⟩ := exists_of_mapErr_err failed
    split at changed
    · cases changed
    · rw [changed] at causeFailed
      exact ⟨after,causeFailed⟩
  · split at exhausted <;> cases exhausted

/-- The fuel of the model's loops is never used up. -/
theorem Codec.decodeBytes_ne_outOfFuel (codec : Codec bound encode decoder)
    (short : bytes.length < bound) : decodeBytes typ decoder bytes ≠ .error .outOfFuel := by
  intro exhausted
  obtain ⟨after,failed⟩ := exists_of_decodeBytes_outOfFuel exhausted
  rcases codec.errors (reset_ready bytes) short failed with ⟨isEol,_⟩ | plain
  · cases isEol
  · exact plain.2 rfl

/-! ### The writer -/

theorem writeInterface_list_cons (first : Item) (elements : List Item) (buf : EncBuffer) :
    writeInterface (.list (first :: elements)) buf =
      (writeElements (first :: elements) buf.list.1).bind (·.listEnd buf.list.2) := by
  rw [writeInterface,writeElements]
  cases writeInterface first buf.list.1 with
  | none => rfl
  | some between => cases writeElements elements between <;> rfl

theorem writeElements_appended (items : List Item) (buf : EncBuffer) :
    ∃ after, writeElements items buf = some after ∧ Appended buf after (encodeAll items) := by
  induction items using sequence_induction generalizing buf with
  | nil =>
    refine ⟨buf,by rw [writeElements],?_⟩
    rw [encodeAll_nil]
    exact Appended.refl buf
  | str bytes rest ih =>
    obtain ⟨after,wrote,appended⟩ := ih (buf.writeBytes bytes)
    refine ⟨after,?_,?_⟩
    · rw [writeElements,writeInterface]
      exact wrote
    · rw [writeBytes_eq] at appended
      rw [encodeAll_cons,encode_str]
      exact (Appended.write buf _).trans appended
  | list elements rest elementsIH restIH =>
    obtain ⟨ended,wroteList,listAppended⟩ : ∃ ended,
        writeInterface (.list elements) buf = some ended ∧
          Appended buf ended (list elements).encode := by
      cases elements with
      | nil =>
        -- The empty list is written without a header of its own.
        refine ⟨buf.write [0xC0],by rw [writeInterface],?_⟩
        exact Appended.write buf [0xC0]
      | cons first elements =>
        obtain ⟨inner,wroteInner,innerAppended⟩ := elementsIH buf.list.1
        obtain ⟨ended,endEq,endAppended⟩ := innerAppended.listEnd
        refine ⟨ended,?_,?_⟩
        · rw [writeInterface_list_cons,wroteInner]
          exact endEq
        · rw [encode_list]
          exact endAppended
    obtain ⟨after,wrote,appended⟩ := restIH ended
    refine ⟨after,?_,?_⟩
    · rw [writeElements,wroteList]
      exact wrote
    · rw [encodeAll_cons]
      exact listAppended.trans appended

theorem encodeToBytes_eq (item : Item) : encodeToBytes item = some item.encode := by
  obtain ⟨after,wrote,appended⟩ := writeElements_appended [item] .empty
  rw [encodeAll_cons,encodeAll_nil,append_nil] at appended
  rw [writeElements] at wrote
  cases wroteItem : writeInterface item .empty with
  | none =>
    rw [wroteItem] at wrote
    cases wrote
  | some buf =>
    rw [wroteItem,Option.bind_eq_bind,Option.bind_some,writeElements] at wrote
    cases wrote
    rw [encodeToBytes,wroteItem]
    exact appended.makeBytes_eq

/-- Decoding undoes encoding; what is accepted is the encoding of the result; and
an input is accepted or rejected in the fuel that the model has. -/
theorem encoding_bijective :
    (∀ item : Item, item.encode.length < 2 ^ 63 → ∃ bytes, encodeToBytes item = some bytes ∧
      decodeBytesInterface bytes = .ok item) ∧
    (∀ (bytes : List UInt8) (item : Item), decodeBytesInterface bytes = .ok item →
      encodeToBytes item = some bytes) ∧
    ∀ bytes : List UInt8, decodeBytesInterface bytes ≠ .error .outOfFuel := by
  refine ⟨?_,?_,?_⟩
  · intro item bounded
    refine ⟨item.encode,encodeToBytes_eq item,?_⟩
    exact (interface_codec _).decodeBytes_encode _ (Nat.lt_succ_self _) (by omega)
  · intro bytes item accepted
    have encodeEq :=
      (interface_codec _).eq_encode_of_decodeBytes (Nat.lt_succ_self _) accepted
    rw [encodeToBytes_eq,encodeEq]
  · intro bytes
    exact (interface_codec _).decodeBytes_ne_outOfFuel (Nat.lt_succ_self _)

/-- A list of a string, an empty list and a list with an empty string. -/
theorem nested_item_decodes : decodeBytesInterface [0xC6, 0x82, 1, 2, 0xC0, 0xC1, 0x80] =
      .ok (.list [.str [1, 2], .list [], .list [.str []]]) := by
  obtain ⟨bytes,encoded,decoded⟩ :=
    encoding_bijective.1 (.list [.str [1,2],.list [],.list [.str []]]) (by decide)
  rw [encodeToBytes_eq] at encoded
  cases encoded
  exact decoded

end PioplatRelay.Rlp
