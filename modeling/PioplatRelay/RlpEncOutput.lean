import PioplatRelay.RlpEncBuffer

/-!
# The output of the encoder buffer

`copyTo`, `writeTo` and the reader each put string data and list headers
together again.  The result of all three is the encoding that was added to the
buffer; and every well-bracketed sequence of operations adds the encoding of a
sequence of items.
-/

namespace PioplatRelay

open List Option Nat

namespace Rlp

namespace EncBuffer

def output (buf : EncBuffer) : List UInt8 := interleave buf.str 0 buf.lheads

variable {buf : EncBuffer} {bytes : List UInt8}

theorem Appended.ordered (appended : Appended empty buf bytes) :
    Ordered buf.str.length 0 buf.lheads := by
  obtain ⟨data,heads,strEq,headsEq,renders⟩ := appended.renders
  have dataEq : buf.str = data := by simpa [empty] using strEq
  have ordered : Ordered buf.str.length (0 + data.length) [] := by
    rw [dataEq,zero_add]
    exact le_rfl
  simpa [headsEq,empty] using renders.ordered ordered

theorem Appended.output_eq (appended : Appended empty buf bytes) : buf.output = bytes := by
  obtain ⟨data,heads,strEq,headsEq,renders⟩ := appended.renders
  have dataEq : buf.str = data := by simpa [empty] using strEq
  have ordered : Ordered data.length (0 + data.length) [] := by
    rw [zero_add]
    exact le_rfl
  have held : data.drop 0 = data ++ [] := by simp
  have whole := renders.interleave_eq held ordered
  simpa [output,dataEq,headsEq,empty,interleave] using whole

theorem Appended.size_eq_length (appended : Appended empty buf bytes) :
    buf.size = bytes.length := by
  simpa [empty,size] using appended.size_eq

/-! ### `copyTo` -/

theorem copyHead_eq {strpos : Nat} {head : ListHead} {done first second blank : List UInt8}
    (ordered : strpos ≤ head.offset) (bounded : head.offset ≤ buf.str.length)
    (firstEq : first.length = ((buf.str.take head.offset).drop strpos).length)
    (secondEq : second.length = head.encode.length) :
    buf.copyHead ⟨done ++ (first ++ (second ++ blank)), done.length, strpos⟩ head =
      some ⟨done ++ (buf.str.take head.offset).drop strpos ++ head.encode ++ blank,
        (done ++ (buf.str.take head.offset).drop strpos ++ head.encode).length, head.offset⟩ := by
  have pieceLength : ((buf.str.take head.offset).drop strpos).length = head.offset - strpos := by
    rw [length_drop,length_take,min_eq_left bounded]
  have room : min ((done ++ (first ++ (second ++ blank))).length - done.length)
      ((buf.str.take head.offset).drop strpos).length = head.offset - strpos := by
    simp only [length_append]
    omega
  have firstCopy := copyAt_append done first (second ++ blank)
    ((buf.str.take head.offset).drop strpos) rfl firstEq.symm
  have secondCopy := copyAt_append (done ++ (buf.str.take head.offset).drop strpos) second blank
    head.encode rfl secondEq.symm
  rw [length_append,pieceLength,append_assoc] at secondCopy
  simp only [copyHead,slice_of_le ordered bounded,bind_eq_bind,bind_some,room]
  rw [slice_of_le (by simp) le_rfl,bind_some,
    slice_of_le (by omega) (by simp only [length_append]; omega),bind_some,
    firstCopy,secondCopy]
  simp [length_append,pieceLength,append_assoc,Nat.add_sub_cancel' ordered,add_assoc]

theorem foldlM_copyHead_eq {heads : List ListHead} {strpos : Nat} {blank : List UInt8}
    (done : List UInt8) (ordered : Ordered buf.str.length strpos heads)
    (fits : blank.length = (interleave buf.str strpos heads).length) :
    (heads.foldlM buf.copyHead ⟨done ++ blank,done.length,strpos⟩ >>= fun state => do
        let rest ← slice buf.str state.strpos buf.str.length
        let _ ← slice state.dst state.pos state.dst.length
        some (copyAt state.dst state.pos rest)) =
      some (done ++ interleave buf.str strpos heads) := by
  induction heads generalizing strpos done blank with
  | nil =>
    have lastCopy := copyAt_append done blank [] (buf.str.drop strpos) rfl fits.symm
    simp only [append_nil] at lastCopy
    simp only [foldlM_nil,pure_bind,slice_of_le ordered le_rfl,bind_eq_bind,bind_some,take_length]
    rw [slice_of_le (by simp) le_rfl,bind_some,lastCopy,interleave]
  | cons head heads ih =>
    rw [interleave,length_append,length_append] at fits
    -- Cut the part of the target that is still blank where this round writes.
    obtain ⟨first,others,rfl,firstEq⟩ : ∃ first others, blank = first ++ others ∧
        first.length = ((buf.str.take head.offset).drop strpos).length :=
      exists_append_of_le_length (by omega)
    obtain ⟨second,later,rfl,secondEq⟩ : ∃ second later, others = second ++ later ∧
        second.length = head.encode.length :=
      exists_append_of_le_length (by rw [length_append] at fits; omega)
    simp only [length_append] at fits
    rw [foldlM_cons,copyHead_eq ordered.1 ordered.2.le firstEq secondEq,
      bind_eq_bind,bind_eq_bind,bind_some,← bind_eq_bind,
      ih _ ordered.2 (by omega),interleave]
    simp

theorem copyTo_eq {dst : List UInt8} (ordered : Ordered buf.str.length 0 buf.lheads)
    (fits : dst.length = buf.output.length) : buf.copyTo dst = some buf.output :=
  foldlM_copyHead_eq [] ordered fits

theorem Appended.makeBytes_eq (appended : Appended empty buf bytes) :
    buf.makeBytes = some bytes := by
  rw [makeBytes,copyTo_eq appended.ordered,appended.output_eq]
  rw [length_replicate,appended.output_eq,appended.size_eq_length]

end EncBuffer

/-! ### The pieces of the output -/

/-- What `writeTo` and the reader hand out one after the other: the string data
between two headers, if there is any, and each header. -/
def pieces (str : List UInt8) : Nat → List ListHead → List (List UInt8)
  | strpos, [] => if strpos < str.length then [str.drop strpos] else []
  | strpos, head :: heads =>
    (if strpos < head.offset then [(str.take head.offset).drop strpos] else []) ++
      head.encode :: pieces str head.offset heads

variable {heads : List ListHead} {strpos : Nat} {ops : List Op} {depth : Nat}

theorem pieces_flatten {str : List UInt8} (ordered : Ordered str.length strpos heads) :
    (pieces str strpos heads).flatten = interleave str strpos heads := by
  induction heads generalizing strpos with
  | nil =>
    rw [pieces,interleave]
    split
    · simp
    · rw [flatten_nil,drop_of_length_le (by omega)]
  | cons head heads ih =>
    rw [pieces,interleave,flatten_append,flatten_cons,ih ordered.2]
    split
    · simp
    · rw [drop_of_length_le (by rw [length_take]; omega),flatten_nil]

theorem ne_nil_of_mem_pieces {str piece : List UInt8}
    (ordered : Ordered str.length strpos heads) (isPiece : piece ∈ pieces str strpos heads) :
    piece ≠ [] := by
  induction heads generalizing strpos with
  | nil =>
    rw [pieces] at isPiece
    split at isPiece
    · rename_i ahead
      rw [mem_singleton] at isPiece
      rw [isPiece,Ne,drop_eq_nil_iff]
      omega
    · cases isPiece
  | cons head heads ih =>
    rw [pieces,mem_append,mem_cons] at isPiece
    rcases isPiece with before | rfl | later
    · split at before
      · rename_i ahead
        have bounded := ordered.2.le
        rw [mem_singleton] at before
        rw [before,Ne,drop_eq_nil_iff,length_take]
        omega
      · cases before
    · rw [ListHead.encode_eq]
      exact header_ne_nil _ _ _
    · exact ih ordered.2 later

theorem pieces_length_le (str : List UInt8) (strpos : Nat) (heads : List ListHead) :
    (pieces str strpos heads).length ≤ 2 * heads.length + 1 := by
  induction heads generalizing strpos with
  | nil =>
    rw [pieces]
    split <;> simp
  | cons head heads ih =>
    have later := ih head.offset
    rw [pieces,length_append,length_cons,length_cons]
    split <;> simp only [length_singleton,length_nil] <;> omega

/-! ### `writeTo` -/

namespace EncBuffer

variable {Target Err : Type} {writer : Writer Target Err} {held : Target → List UInt8}

variable {buf : EncBuffer}

theorem writeData_accepting {strpos high : Nat}
    (accepting : writer.Accepting held) (ordered : strpos ≤ high)
    (bounded : high ≤ buf.str.length) (target : Target) :
    ∃ after, writeData writer buf strpos high target = some (after, high, none) ∧
      held after = held target ++ (buf.str.take high).drop strpos := by
  rw [writeData]
  split
  · have pieceLength : strpos + ((buf.str.take high).drop strpos).length = high := by
      rw [length_drop,length_take,min_eq_left bounded]
      omega
    obtain ⟨resultEq,heldEq⟩ := accepting target ((buf.str.take high).drop strpos)
    refine ⟨(writer.write target ((buf.str.take high).drop strpos)).1,?_,heldEq⟩
    simp only [slice_of_le ordered bounded,bind_eq_bind,bind_some,resultEq,pieceLength]
  · rename_i here
    refine ⟨target,?_,?_⟩
    · rw [le_antisymm ordered (Nat.le_of_not_lt here)]
    · rw [drop_of_length_le (by rw [length_take]; omega),append_nil]

theorem writeHeads_accepting {heads : List ListHead} {strpos : Nat}
    (accepting : writer.Accepting held) (ordered : Ordered buf.str.length strpos heads)
    (target : Target) : ∃ after, writeHeads writer buf heads strpos target = some (after, none) ∧
      held after = held target ++ interleave buf.str strpos heads := by
  induction heads generalizing strpos target with
  | nil =>
    obtain ⟨after,dataEq,heldEq⟩ := writeData_accepting accepting ordered le_rfl target
    rw [take_length] at heldEq
    exact ⟨after,by rw [writeHeads,dataEq]; rfl,heldEq⟩
  | cons head heads ih =>
    obtain ⟨between,dataEq,betweenHeld⟩ :=
      writeData_accepting accepting ordered.1 ordered.2.le target
    obtain ⟨headEq,headHeld⟩ := accepting between head.encode
    obtain ⟨after,afterEq,afterHeld⟩ := ih ordered.2 (writer.write between head.encode).1
    refine ⟨after,?_,?_⟩
    · rw [writeHeads,dataEq,bind_eq_bind,bind_some]
      simpa [headEq] using afterEq
    · rw [afterHeld,headHeld,betweenHeld,interleave]
      simp

theorem Appended.writeTo_accepting {bytes : List UInt8}
    (appended : Appended empty buf bytes) (accepting : writer.Accepting held) (target : Target) :
    ∃ after, buf.writeTo writer target = some (after, none) ∧
      held after = held target ++ bytes := by
  rw [← appended.output_eq]
  exact writeHeads_accepting accepting appended.ordered target

end EncBuffer

/-! ### The reader -/

namespace EncReader

def ahead (reader : EncReader) : List (List UInt8) :=
  match reader.buf with
  | none => []
  | some buf => reader.piece.toList ++ pieces buf.str reader.strpos (buf.lheads.drop reader.lhpos)

/-- The reader stands at a place of its buffer, with the headers after it in order. -/
def Placed (reader : EncReader) : Prop :=
  ∀ buf, reader.buf = some buf → Ordered buf.str.length reader.strpos (buf.lheads.drop reader.lhpos)

theorem ahead_length_lt_rounds (reader : EncReader) : reader.ahead.length < reader.rounds := by
  rw [ahead,rounds]
  cases reader.buf with
  | none => simp
  | some buf =>
    have count := pieces_length_le buf.str reader.strpos (buf.lheads.drop reader.lhpos)
    have pending := reader.piece.length_toList_le
    simp only [length_append,length_drop] at count ⊢
    omega

variable {reader : EncReader}

theorem next_of_ahead_nil (atEnd : reader.ahead = []) : reader.next = some (none, reader) := by
  rcases reader with ⟨buf,lhpos,strpos,piece⟩
  cases buf with
  | none => rfl
  | some buf =>
    simp only [ahead,append_eq_nil_iff] at atEnd
    cases piece with
    | some piece => simp at atEnd
    | none =>
      have noPieces := atEnd.2
      simp only [next]
      cases headAt : buf.lheads[lhpos]? with
      | some head =>
        have bound := (List.getElem?_eq_some_iff.mp headAt).1
        rw [drop_eq_getElem_cons bound,pieces] at noPieces
        simp at noPieces
      | none =>
        rw [drop_of_length_le (List.getElem?_eq_none_iff.mp headAt),pieces] at noPieces
        split at noPieces
        · cases noPieces
        · rename_i finished
          simp only
          rw [if_neg finished]

/-- The next piece is handed out, and whatever part of it is kept comes before
the pieces behind it. -/
theorem next_of_ahead_cons {piece : List UInt8} {later : List (List UInt8)} (placed : reader.Placed)
    (aheadEq : reader.ahead = piece :: later) :
    ∃ after, reader.next = some (some piece, after) ∧ ∀ kept : Option (List UInt8),
      ({ after with piece := kept } : EncReader).Placed ∧
        ({ after with piece := kept } : EncReader).ahead = kept.toList ++ later := by
  rcases reader with ⟨buf,lhpos,strpos,pending⟩
  cases buf with
  | none => cases aheadEq
  | some buf =>
    have ordered := placed buf rfl
    simp only [ahead] at aheadEq
    cases pending with
    | some pending =>
      rcases aheadEq with ⟨rfl,rfl⟩
      exact ⟨_,rfl,fun kept => ⟨placed,rfl⟩⟩
    | none =>
      simp only [toList_none,nil_append] at aheadEq
      simp only [next]
      cases headAt : buf.lheads[lhpos]? with
      | some head =>
        have bound := List.getElem?_eq_some_iff.mp headAt
        have dropEq : buf.lheads.drop lhpos = head :: buf.lheads.drop (lhpos + 1) := by
          rw [drop_eq_getElem_cons bound.1,bound.2]
        rw [dropEq] at ordered
        rw [dropEq,pieces] at aheadEq
        by_cases dataFirst : strpos < head.offset
        · -- String data stands before the header, which comes right after it.
          rw [if_pos dataFirst,singleton_append,cons.injEq] at aheadEq
          rcases aheadEq with ⟨rfl,rfl⟩
          simp only
          rw [if_pos dataFirst,slice_of_le dataFirst.le ordered.2.le]
          refine ⟨_,rfl,fun kept => ⟨?_,?_⟩⟩
          · intro other otherEq
            cases otherEq
            change Ordered _ head.offset (buf.lheads.drop lhpos)
            rw [dropEq]
            exact ⟨le_rfl,ordered.2⟩
          · change kept.toList ++ pieces buf.str head.offset (buf.lheads.drop lhpos) = _
            rw [dropEq,pieces,if_neg (lt_irrefl _),nil_append]
        · have posEq : strpos = head.offset :=
            le_antisymm ordered.1 (Nat.le_of_not_lt dataFirst)
          rw [if_neg dataFirst,nil_append,cons.injEq] at aheadEq
          rcases aheadEq with ⟨rfl,rfl⟩
          simp only
          rw [if_neg dataFirst]
          refine ⟨_,rfl,fun kept => ⟨?_,?_⟩⟩
          · intro other otherEq
            cases otherEq
            exact posEq ▸ ordered.2
          · rw [← posEq]
            rfl
      | none =>
        have noHeads := drop_of_length_le (List.getElem?_eq_none_iff.mp headAt)
        rw [noHeads,pieces] at aheadEq
        split at aheadEq
        · rename_i dataLeft
          rcases aheadEq with ⟨rfl,rfl⟩
          simp only
          rw [if_pos dataLeft,slice_of_le dataLeft.le le_rfl,take_length]
          refine ⟨_,rfl,fun kept => ⟨?_,?_⟩⟩
          · intro other otherEq
            cases otherEq
            change Ordered _ buf.str.length (buf.lheads.drop lhpos)
            rw [noHeads]
            exact le_rfl
          · change kept.toList ++ pieces buf.str buf.str.length (buf.lheads.drop lhpos) = _
            rw [noHeads,pieces,if_neg (lt_irrefl _)]
        · cases aheadEq

/-- The loop of `Read` fills the buffer from the pieces ahead; it reports the end
exactly when they fit. -/
theorem readLoop_eq {parts : List (List UInt8)} {rounds room : Nat} (copied : List UInt8)
    (placed : reader.Placed) (aheadEq : reader.ahead = parts)
    (nonempty : ∀ piece ∈ parts, piece ≠ []) (enough : parts.length < rounds)
    (fits : copied.length ≤ room) : ∃ after, readLoop rounds room copied reader =
        some (copied ++ parts.flatten.take (room - copied.length),
          decide (parts.flatten.length ≤ room - copied.length), after) ∧
      after.Placed ∧ (∀ piece ∈ after.ahead, piece ≠ []) ∧
      after.ahead.flatten = parts.flatten.drop (room - copied.length) := by
  induction parts generalizing reader rounds copied with
  | nil =>
    obtain ⟨rounds,rfl⟩ := Nat.exists_eq_add_of_lt enough
    rw [length_nil,zero_add,readLoop,next_of_ahead_nil aheadEq]
    refine ⟨{ reader with piece := none, buf := none },by simp,?_,?_,?_⟩
    · intro buf bufEq
      cases bufEq
    · simp [ahead]
    · simp [ahead]
  | cons piece parts ih =>
    obtain ⟨rounds,rfl⟩ : ∃ before, rounds = before + 1 :=
      exists_eq_succ_of_ne_zero (ne_of_gt (zero_lt_of_lt enough))
    obtain ⟨between,nextEq,kept⟩ := next_of_ahead_cons placed aheadEq
    rw [readLoop,nextEq,bind_eq_bind,bind_some]
    simp only [flatten_cons]
    by_cases cut : room - copied.length < piece.length
    · -- The buffer is full inside this piece.
      have nnEq : min (room - copied.length) piece.length = room - copied.length :=
        min_eq_left cut.le
      have restPlaced := kept (some (piece.drop (room - copied.length)))
      rw [nnEq,if_pos cut]
      refine ⟨{ between with piece := some (piece.drop (room - copied.length)) },?_,
        restPlaced.1,?_,?_⟩
      · rw [take_append_of_le_length cut.le,decide_eq_false]
        rw [length_append]
        omega
      · rw [restPlaced.2]
        intro other isPart
        rcases mem_cons.mp isPart with rfl | later
        · rw [Ne,drop_eq_nil_iff]
          omega
        · exact nonempty other (mem_cons_of_mem _ later)
      · rw [restPlaced.2,drop_append_of_le_length cut.le]
        rfl
    · have nnEq : min (room - copied.length) piece.length = piece.length :=
        min_eq_right (Nat.le_of_not_lt cut)
      have restPlaced := kept none
      rw [nnEq,if_neg (lt_irrefl _),take_length]
      obtain ⟨after,afterEq,afterPlaced⟩ := ih (copied ++ piece) restPlaced.1 restPlaced.2
        (fun other isPart => nonempty other (mem_cons_of_mem _ isPart))
        (lt_of_succ_lt_succ enough) (by rw [length_append]; omega)
      have leftEq : room - (copied ++ piece).length = room - copied.length - piece.length := by
        rw [length_append]
        omega
      rw [leftEq] at afterEq afterPlaced
      refine ⟨after,?_,afterPlaced.1,afterPlaced.2.1,?_⟩
      · have endEq : parts.flatten.length ≤ room - copied.length - piece.length ↔
            (piece ++ parts.flatten).length ≤ room - copied.length := by
          rw [length_append]
          omega
        rw [afterEq,take_append,take_of_length_le (Nat.le_of_not_lt cut),
          append_assoc,decide_eq_decide.mpr endEq]
      · rw [afterPlaced.2.2,drop_append,drop_of_length_le (Nat.le_of_not_lt cut),nil_append]

theorem reads_eq {rooms : List Nat} (placed : reader.Placed)
    (nonempty : ∀ piece ∈ reader.ahead, piece ≠ []) : ∃ results, reads rooms reader = some results ∧
      (results.map Prod.fst).flatten = reader.ahead.flatten.take rooms.sum ∧
      ∀ last, results.getLast? = some last →
        (last.2 = true ↔ reader.ahead.flatten.length ≤ rooms.sum) := by
  induction rooms generalizing reader with
  | nil => exact ⟨[],rfl,by simp,by simp⟩
  | cons room rooms ih =>
    obtain ⟨after,readEq,afterPlaced,afterNonempty,afterAhead⟩ :=
      readLoop_eq [] placed rfl nonempty reader.ahead_length_lt_rounds (zero_le room)
    obtain ⟨results,readsEq,bytesEq,lastEq⟩ := ih afterPlaced afterNonempty
    rw [length_nil,Nat.sub_zero,nil_append] at readEq
    rw [length_nil,Nat.sub_zero] at afterAhead
    rw [afterAhead] at bytesEq lastEq
    simp only [reads,read,readEq,readsEq,bind_eq_bind,bind_some]
    refine ⟨_,rfl,?_,?_⟩
    · rw [map_cons,flatten_cons,bytesEq,sum_cons,take_add]
    · intro last isLast
      cases results with
      | nil =>
        -- No later read: the sizes after this one sum up to nothing.
        have noRooms : rooms = [] := by
          cases rooms with
          | nil => rfl
          | cons other rooms =>
            rw [reads] at readsEq
            cases found : after.read other with
            | none => simp [found] at readsEq
            | some result =>
              cases rest : reads rooms result.2.2 with
              | none => simp [found,rest] at readsEq
              | some results => simp [found,rest] at readsEq
        simp only [getLast?_singleton,Option.some.injEq] at isLast
        rw [← isLast,noRooms]
        simp
      | cons result results =>
        rw [lastEq last isLast,length_drop,sum_cons]
        omega

end EncReader

theorem EncBuffer.Appended.reads_eq {buf : EncBuffer} {bytes : List UInt8}
    (appended : EncBuffer.Appended .empty buf bytes) (rooms : List Nat) :
    ∃ results, EncReader.reads rooms buf.reader = some results ∧
      (results.map Prod.fst).flatten = bytes.take rooms.sum ∧
      ∀ last, results.getLast? = some last → (last.2 = true ↔ bytes.length ≤ rooms.sum) := by
  have ordered := appended.ordered
  have placed : buf.reader.Placed := by
    intro other otherEq
    cases otherEq
    exact ordered
  have aheadEq : buf.reader.ahead = pieces buf.str 0 buf.lheads := rfl
  have outputEq : buf.reader.ahead.flatten = bytes := by
    rw [aheadEq,pieces_flatten ordered]
    exact appended.output_eq
  rw [← outputEq]
  apply EncReader.reads_eq placed
  intro piece isPiece
  exact ne_nil_of_mem_pieces ordered isPiece

/-! ### Well-bracketed sequences -/

/-- `depth` unmatched ends follow, each behind a sequence that stands for items. -/
def Closes : Nat → List Op → Prop
  | 0, ops => ∃ items, Represents ops items
  | depth + 1, ops => ∃ inner items rest, ops = inner ++ .listEnd :: rest ∧
      Represents inner items ∧ Closes depth rest

/-- What stands for items can be put in front of a sequence that closes. -/
theorem Closes.prepend (closes : Closes depth ops) (front : List Op)
    (grows : ∀ inner items, Represents inner items →
      ∃ more, Represents (front ++ inner) more) : Closes depth (front ++ ops) := by
  cases depth with
  | zero =>
    obtain ⟨items,represents⟩ := closes
    exact grows ops items represents
  | succ depth =>
    obtain ⟨inner,items,rest,rfl,represents,closesRest⟩ := closes
    obtain ⟨more,moreRepresents⟩ := grows inner items represents
    exact ⟨front ++ inner,more,rest,by rw [append_assoc],moreRepresents,closesRest⟩

theorem closes_of_wellBracketed (balanced : wellBracketed depth ops = true) : Closes depth ops := by
  induction ops generalizing depth with
  | nil =>
    have depthZero : depth = 0 := by simpa [wellBracketed] using balanced
    rw [depthZero]
    exact ⟨[],.nil⟩
  | cons op ops ih =>
    cases op with
    | writeBytes bytes =>
      have closes : Closes depth ops := ih (by simpa [wellBracketed] using balanced)
      apply closes.prepend [.writeBytes bytes]
      intro inner items represents
      exact ⟨_,.bytes bytes represents⟩
    | writeUint64 i =>
      have closes : Closes depth ops := ih (by simpa [wellBracketed] using balanced)
      apply closes.prepend [.writeUint64 i]
      intro inner items represents
      exact ⟨_,.uint i represents⟩
    | list =>
      have closes : Closes (depth + 1) ops := ih (by simpa [wellBracketed] using balanced)
      obtain ⟨inner,elements,rest,rfl,elementsOf,closesRest⟩ := closes
      have shape : Op.list :: (inner ++ .listEnd :: rest) =
          (.list :: inner ++ [.listEnd]) ++ rest := by
        simp
      rw [shape]
      apply closesRest.prepend
      intro later items represents
      refine ⟨.list elements :: items,?_⟩
      simpa using Represents.list elementsOf represents
    | listEnd =>
      cases depth with
      | zero => simp [wellBracketed] at balanced
      | succ depth => exact ⟨[],[],ops,rfl,.nil,ih (by simpa [wellBracketed] using balanced)⟩

theorem exists_represents (balanced : wellBracketed 0 ops = true) : ∃ items, Represents ops items :=
  closes_of_wellBracketed balanced

/-- A sequence of operations adds the encoding of its items to the buffer, and
leaves the open lists as they were. -/
theorem Represents.runAll_appended {items : List Item}
    (represents : Represents ops items) (buf : EncBuffer) (indices : List Nat) :
    ∃ after, runAll Session.step ⟨buf,indices⟩ ops = some ⟨after,indices⟩ ∧
      EncBuffer.Appended buf after (Item.encodeAll items) := by
  induction represents generalizing buf indices with
  | nil => exact ⟨buf,rfl,by simpa using EncBuffer.Appended.refl buf⟩
  | bytes bytes _ ih =>
    obtain ⟨after,ran,appended⟩ := ih (buf.writeBytes bytes) indices
    refine ⟨after,ran,?_⟩
    rw [EncBuffer.writeBytes_eq] at appended
    rw [Item.encodeAll_cons,Item.encode_str]
    exact (EncBuffer.Appended.write buf _).trans appended
  | uint i _ ih =>
    obtain ⟨after,ran,appended⟩ := ih (buf.writeUint64 i) indices
    refine ⟨after,ran,?_⟩
    rw [EncBuffer.writeUint64_eq] at appended
    rw [Item.encodeAll_cons,Item.uint,Item.encode_str]
    exact (EncBuffer.Appended.write buf _).trans appended
  | list _ _ elementsIH restIH =>
    obtain ⟨inner,innerRan,innerAppended⟩ := elementsIH buf.list.1 (buf.list.2 :: indices)
    obtain ⟨ended,endEq,endAppended⟩ := innerAppended.listEnd
    obtain ⟨after,ran,appended⟩ := restIH ended indices
    refine ⟨after,?_,?_⟩
    · rw [cons_append,runAll_cons,Session.step,bind_some,runAll_append,
        innerRan,bind_some,runAll_cons,Session.step]
      simp only [endEq]
      exact ran
    · rw [Item.encodeAll_cons,Item.encode_list]
      exact endAppended.trans appended

/-- A well-bracketed sequence of operations stands for items; the size of the
buffer is the length of their encoding, and the bytes made, written and read
are that encoding, whatever the sizes of the reads. -/
theorem outputs_eq_encoding {ops : List Op} (balanced : wellBracketed 0 ops = true) :
    ∃ items buf, Represents ops items ∧ runAll Session.step ⟨.empty, []⟩ ops = some ⟨buf, []⟩ ∧
      buf.size = (Item.encodeAll items).length ∧ buf.makeBytes = some (Item.encodeAll items) ∧
      (∀ {Target Err : Type} (writer : Writer Target Err) (held : Target → List UInt8),
        writer.Accepting held → ∀ target, ∃ after, buf.writeTo writer target = some (after, none) ∧
          held after = held target ++ Item.encodeAll items) ∧
      ∀ rooms : List Nat, ∃ results, EncReader.reads rooms buf.reader = some results ∧
        (results.map Prod.fst).flatten = (Item.encodeAll items).take rooms.sum ∧
        ∀ last, results.getLast? = some last →
          (last.2 = true ↔ (Item.encodeAll items).length ≤ rooms.sum) := by
  obtain ⟨items,represents⟩ := exists_represents balanced
  obtain ⟨buf,ran,appended⟩ := represents.runAll_appended .empty []
  refine ⟨items,buf,represents,ran,appended.size_eq_length,appended.makeBytes_eq,?_,
    appended.reads_eq⟩
  intro Target Err writer held accepting target
  exact appended.writeTo_accepting accepting target

def nestedOps : List Op := [.list, .writeBytes [1, 2], .list, .writeUint64 300, .listEnd, .listEnd]

theorem nestedOps_outputs_eq_encoding : ∃ items buf, Represents nestedOps items ∧
      runAll Session.step ⟨.empty, []⟩ nestedOps = some ⟨buf, []⟩ ∧
      buf.makeBytes = some (Item.encodeAll items) := by
  have balanced : wellBracketed 0 nestedOps = true := by decide
  obtain ⟨items,buf,represents,ran,_,made,_⟩ := outputs_eq_encoding balanced
  exact ⟨items,buf,represents,ran,made⟩

end Rlp

end PioplatRelay
