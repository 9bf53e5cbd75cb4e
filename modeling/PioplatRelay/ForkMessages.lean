import PioplatRelay.DisguiseDecoding
import PioplatRelay.ForkFreshness

/-!
# Fork messages in the documented layout

The full node sends a command, the number of forks, and the fields one after the other.
Decoding such a message stores its fields, except where the total length does not fit in
32 bits, and except for the forks of a `GetForksMsg` message: there every round of the
loop reads from the first fork on.
-/

namespace PioplatRelay.ForkClient

open LittleEndian List Option Decoding
open DisguiseClient (cmdSize hashSize blockNumberSize)

/-- The messages of the full node, in the layout of the comments in `decodeMsg`. -/
def encode : ForkMsg → List UInt8
  | .all genesisHash blockNumber forks =>
    getAllAbove ++ (putUint32 (UInt32.ofNat forks.length) ++ (genesisHash.bytes ++
      (putUint64 blockNumber ++ forks.flatMap putUint64)))
  | .forks forks =>
    getForksMsg ++ (putUint32 (UInt32.ofNat forks.length) ++ forks.flatMap putUint64)
  | .genesis genesisHash => getGenesisMsg ++ genesisHash.bytes
  | .blockNumber blockNumber => getBlockNumber ++ putUint64 blockNumber

def carriedForks : ForkMsg → List UInt64
  | .all _ _ forks | .forks forks => forks
  | .genesis _ | .blockNumber _ => []

/-- The client has stored what the message carries, and nothing else has changed. -/
def Stored : ForkMsg → ForkClient → ForkClient → Prop
  | .all genesisHash blockNumber forks, dc, after =>
    after = { dc with
      genesisHash := genesisHash
      curBlockNumber := blockNumber
      arrays := after.arrays
      forks := after.forks } ∧ after.knownForks = forks
  | .forks forks, dc, after =>
    after = { dc with arrays := after.arrays, forks := after.forks } ∧ after.knownForks = forks
  | .genesis genesisHash, dc, after => after = { dc with genesisHash := genesisHash }
  | .blockNumber blockNumber, dc, after => after = { dc with curBlockNumber := blockNumber }

section Reading

variable {buffer rest : List UInt8}

theorem length_flatMap_putUint64 (forks : List UInt64) :
    (forks.flatMap putUint64).length = 8 * forks.length := by
  induction forks with
  | nil => rfl
  | cons fork forks ih =>
    rw [flatMap_cons,length_append,putUint64_length,ih,length_cons]
    omega

theorem readForks_inTurn {start i : Nat} {forks : List UInt64}
    (places : buffer.drop (start + i * 8) = forks.flatMap putUint64 ++ rest) :
    readForks buffer (fun i => start + i * 8) (fun i => start + i * 8 + 8) i forks.length =
      some forks := by
  induction forks generalizing i with
  | nil => rfl
  | cons fork forks ih =>
    rw [flatMap_cons,append_assoc] at places
    have lengths := congrArg length places
    rw [length_drop,length_append,putUint64_length] at lengths
    have bytesEq : (buffer.take (start + i * 8 + 8)).drop (start + i * 8) = putUint64 fork := by
      rw [drop_take,places,Nat.add_sub_cancel_left,take_left' (putUint64_length fork)]
    have laterPlaces : buffer.drop (start + (i + 1) * 8) = forks.flatMap putUint64 ++ rest := by
      have shifted := congrArg (drop 8) places
      rwa [drop_drop,drop_left' (putUint64_length fork),Nat.add_assoc,← Nat.succ_mul] at shifted
    have word := uint64_putUint64_append fork []
    rw [length_cons,readForks,slice_of_le (Nat.le_add_right _ _) (by omega),bytesEq,ih laterPlaces]
    exact congrArg some (congrArg (· :: forks) word)

/-- The loop of a `GetForksMsg` message reads the first fork every time. -/
theorem readForks_sameStart {i count : Nat} (positive : 1 ≤ i)
    (inside : 8 + (i + count - 1) * 8 ≤ buffer.length) :
    readForks buffer (fun _ => 8) (fun i => 8 + i * 8) i count =
      some (replicate count (uint64 (buffer.drop 8))) := by
  induction count generalizing i with
  | zero => rfl
  | succ count ih =>
    have first : uint64 ((buffer.take (8 + i * 8)).drop 8) = uint64 (buffer.drop 8) := by
      rw [uint64,uint64,drop_take,take_take,Nat.add_sub_cancel_left,Nat.min_eq_left (by omega)]
    rw [readForks,slice_of_le (Nat.le_add_right _ _) (by omega),
      ih (by omega) (by rwa [Nat.add_right_comm])]
    exact congrArg some (congrArg (· :: _) first)

end Reading

/-! ### The fields of a message -/

section Fields

variable {front part rest behind : List UInt8}

theorem part_of_append {low high : Nat} (lowEq : front.length = low)
    (highEq : front.length + part.length = high) :
    ((front ++ (part ++ rest)).take high).drop low = part := by
  rw [← append_assoc,take_left' (by rw [length_append,highEq]),drop_left' lowEq]

theorem zero_setBytes (hash : Hash) : Hash.zero.setBytes hash.bytes = hash :=
  Hash.ext (Hash.setBytes_bytes_of_length hash.length_eq)

theorem uint64_putUint64 (word : UInt64) : uint64 (putUint64 word) = word := by
  have whole := uint64_putUint64_append word []
  rwa [append_nil] at whole

variable (genesisHash : Hash) (blockNumber : UInt64) (forks : List UInt64)

theorem encode_all_length :
    (encode (.all genesisHash blockNumber forks)).length = 48 + 8 * forks.length := by
  simp only [encode,length_append,putUint32_length,putUint64_length,genesisHash.length_eq,
    length_flatMap_putUint64]
  change 4 + _ = _
  omega

theorem encode_forks_length : (encode (.forks forks)).length = 8 + 8 * forks.length := by
  simp only [encode,length_append,putUint32_length,length_flatMap_putUint64]
  change 4 + _ = _
  omega

theorem forkCount_append {command : List UInt8} (commandLength : command.length = 4) {count : Nat}
    (few : count < 2 ^ 32) :
    forkCount (command ++ (putUint32 (UInt32.ofNat count) ++ rest)) = count := by
  rw [forkCount]
  change (uint32 (((command ++ (putUint32 (UInt32.ofNat count) ++ rest)).take 8).drop 4)).toNat = _
  rw [part_of_append commandLength (by rw [commandLength,putUint32_length]),uint32_putUint32,
    UInt32.toNat_ofNat_of_lt' few]

theorem allAboveStart_encode (dc : ForkClient) :
    allAboveStart (encode (.all genesisHash blockNumber forks)) dc = ⟨{ dc with
        genesisHash := genesisHash
        curBlockNumber := blockNumber
        forks := dc.forks.emptied }, [8, 40, 48]⟩ := by
  have hashPart : ((encode (.all genesisHash blockNumber forks)).take 40).drop 8 =
      genesisHash.bytes := by
    rw [encode,← append_assoc]
    apply part_of_append
    · rw [length_append,putUint32_length]; rfl
    · rw [length_append,putUint32_length,genesisHash.length_eq]; rfl
  have numberPart : ((encode (.all genesisHash blockNumber forks)).take 48).drop 40 =
      putUint64 blockNumber := by
    rw [encode,← append_assoc,← append_assoc]
    apply part_of_append
    · rw [length_append,length_append,putUint32_length,genesisHash.length_eq]; rfl
    · rw [length_append,length_append,putUint32_length,genesisHash.length_eq,putUint64_length]
      rfl
  rw [allAboveStart,hashPart,numberPart,zero_setBytes,uint64_putUint64]

theorem drop_encode_all : (encode (.all genesisHash blockNumber forks) ++ behind).drop 48 =
    forks.flatMap putUint64 ++ behind := by
  rw [encode,← append_assoc,← append_assoc,← append_assoc,append_assoc]
  apply drop_left'
  rw [length_append,length_append,length_append,putUint32_length,
    genesisHash.length_eq,putUint64_length]
  rfl

theorem drop_encode_forks : (encode (.forks forks) ++ behind).drop 8 =
    forks.flatMap putUint64 ++ behind := by
  rw [encode,← append_assoc,append_assoc]
  apply drop_left'
  rw [length_append,putUint32_length]
  rfl

end Fields

/-! ### Decoding encoded messages -/

/-- The messages that are stored: the total length fits in 32 bits, and the forks of a
`GetForksMsg` message are all the same. -/
def Decodable : ForkMsg → Prop
  | .all _ _ forks => forks.length ≤ 2 ^ 29 - 7
  | .forks forks => forks.length ≤ 2 ^ 29 - 2 ∧ ∀ fork ∈ forks, forks.head? = some fork
  | .genesis _ | .blockNumber _ => True

section Decode

variable {spare : Nat → Nat} {behind : List UInt8} {dc : ForkClient} {genesisHash : Hash}
  {blockNumber : UInt64} {forks : List UInt64}

def decoded (spare : Nat → Nat) (msg : ForkMsg) (behind : List UInt8) (dc : ForkClient) :
    Option (Except MsgError ForkClient) :=
  decodeMsg spare (encode msg ++ behind) (encode msg).length dc

theorem decoded_all (few : forks.length < 2 ^ 29) :
    decoded spare (.all genesisHash blockNumber forks) behind dc =
      if forks.length ≤ 2 ^ 29 - 7 then
        some (.ok (setForks spare
          { dc with genesisHash := genesisHash, curBlockNumber := blockNumber } forks))
      else some (.error .invalidLength) := by
  have isAll : getAllAbove <+: encode (.all genesisHash blockNumber forks) :=
    prefix_append _ _
  have lengthEq := encode_all_length genesisHash blockNumber forks
  have countEq : forkCount (encode (.all genesisHash blockNumber forks)) =
      forks.length := forkCount_append rfl (by omega)
  rw [decoded,← decodeMsg_eq,decodeMsg_allAbove isAll (by omega),lengthEq,countEq]
  by_cases fits : forks.length ≤ 2 ^ 29 - 7
  · have places : (encode (.all genesisHash blockNumber forks) ++ behind).drop (48 + 0 * 8) =
        forks.flatMap putUint64 ++ behind := drop_encode_all genesisHash blockNumber forks
    rw [if_pos fits,if_neg (by omega),appendForks_eq,readForks_inTurn places,allAboveStart_encode]
    rfl
  · rw [if_neg fits,if_pos (by omega)]
    rfl

theorem decoded_forks (few : forks.length < 2 ^ 29) :
    decoded spare (.forks forks) behind dc =
      if forks.length ≤ 2 ^ 29 - 2 then
        some (.ok (setForks spare dc
          (replicate forks.length (uint64 (forks.flatMap putUint64 ++ behind)))))
      else some (.error .invalidLength) := by
  have isForks : getForksMsg <+: encode (.forks forks) := prefix_append _ _
  have lengthEq := encode_forks_length forks
  have countEq : forkCount (encode (.forks forks)) = forks.length :=
    forkCount_append rfl (by omega)
  rw [decoded,← decodeMsg_eq,decodeMsg_forks isForks (by omega),lengthEq,countEq]
  by_cases fits : forks.length ≤ 2 ^ 29 - 2
  · have inside : 8 + (1 + forks.length - 1) * 8 ≤ (encode (.forks forks) ++ behind).length := by
      rw [length_append]
      omega
    rw [if_pos fits,if_neg (by omega),appendForks_eq,
      readForks_sameStart (Nat.le_refl 1) inside,drop_encode_forks]
    rfl
  · rw [if_neg fits,if_pos (by omega)]
    rfl

theorem not_other_command {command other : List UInt8} (different : other ≠ command)
    (sameLength : other.length = command.length) (rest : List UInt8) :
    ¬ other <+: command ++ rest := by
  intro isOther
  have isCommand : command <+: command ++ rest := prefix_append _ _
  have within := prefix_of_prefix_length_le isOther isCommand (le_of_eq sameLength)
  exact different (within.eq_of_length sameLength)

theorem slice_field {command field : List UInt8} (commandLength : command.length = 4) {high : Nat}
    (highEq : high = 4 + field.length) :
    slice (command ++ field ++ behind) (4 : Nat) high = some field := by
  have lengthEq : (command ++ field).length = high := by rw [length_append,commandLength,highEq]
  rw [slice_append_left behind (by omega) (le_of_eq lengthEq.symm),
    take_of_length_le (le_of_eq lengthEq),drop_left' commandLength]

theorem decoded_genesis : decoded spare (.genesis genesisHash) behind dc =
    some (.ok { dc with genesisHash := genesisHash }) := by
  have notAll : ¬ getAllAbove <+: getGenesisMsg ++ genesisHash.bytes :=
    not_other_command (by decide : getAllAbove ≠ getGenesisMsg) rfl _
  have notForks : ¬ getForksMsg <+: getGenesisMsg ++ genesisHash.bytes :=
    not_other_command (by decide : getForksMsg ≠ getGenesisMsg) rfl _
  have isGenesis : getGenesisMsg <+: getGenesisMsg ++ genesisHash.bytes := prefix_append _ _
  have lengthEq : (getGenesisMsg ++ genesisHash.bytes).length = cmdSize + hashSize := by
    rw [length_append,genesisHash.length_eq]
    rfl
  have field : slice (getGenesisMsg ++ genesisHash.bytes ++ behind) cmdSize
      ↑(cmdSize + hashSize) = some genesisHash.bytes :=
    slice_field rfl (by rw [genesisHash.length_eq]; rfl)
  have parsed : parseMsg (getGenesisMsg ++ genesisHash.bytes ++ behind)
      (getGenesisMsg ++ genesisHash.bytes).length = some (.ok (.genesis genesisHash)) := by
    rw [parseMsg]
    simp only [take_left']
    rw [if_neg notAll,if_neg notForks,if_pos isGenesis,if_neg (not_not.mpr lengthEq),field,
      bind_eq_bind,bind_some,zero_setBytes]
    rfl
  exact decodeMsg_of_parsed parsed

theorem decoded_blockNumber : decoded spare (.blockNumber blockNumber) behind dc =
    some (.ok { dc with curBlockNumber := blockNumber }) := by
  have notAll : ¬ getAllAbove <+: getBlockNumber ++ putUint64 blockNumber :=
    not_other_command (by decide : getAllAbove ≠ getBlockNumber) rfl _
  have notForks : ¬ getForksMsg <+: getBlockNumber ++ putUint64 blockNumber :=
    not_other_command (by decide : getForksMsg ≠ getBlockNumber) rfl _
  have notGenesis : ¬ getGenesisMsg <+: getBlockNumber ++ putUint64 blockNumber :=
    not_other_command (by decide : getGenesisMsg ≠ getBlockNumber) rfl _
  have isNumber : getBlockNumber <+: getBlockNumber ++ putUint64 blockNumber :=
    prefix_append _ _
  have lengthEq : (getBlockNumber ++ putUint64 blockNumber).length = cmdSize + blockNumberSize := by
    rw [length_append,putUint64_length]
    rfl
  have field : slice (getBlockNumber ++ putUint64 blockNumber ++ behind) cmdSize
      ↑(cmdSize + blockNumberSize) = some (putUint64 blockNumber) :=
    slice_field rfl (by rw [putUint64_length]; rfl)
  have parsed : parseMsg (getBlockNumber ++ putUint64 blockNumber ++ behind)
      (getBlockNumber ++ putUint64 blockNumber).length = some (.ok (.blockNumber blockNumber)) := by
    rw [parseMsg]
    simp only [take_left']
    rw [if_neg notAll,if_neg notForks,if_neg notGenesis,if_pos isNumber,
      if_neg (not_not.mpr lengthEq),field,bind_eq_bind,bind_some,uint64_putUint64]
    rfl
  exact decodeMsg_of_parsed parsed

theorem replicate_first_eq_iff :
    replicate forks.length (uint64 (forks.flatMap putUint64 ++ behind)) = forks ↔
      ∀ fork ∈ forks, forks.head? = some fork := by
  cases forks with
  | nil => simp
  | cons first others =>
    rw [flatMap_cons,append_assoc,uint64_putUint64_append,eq_comm,eq_replicate_iff]
    simp only [true_and,head?_cons,some_inj]
    exact forall₂_congr fun _ _ => eq_comm

end Decode

/-- Decoding a message of fewer than 2^29 forks in the documented layout stores exactly what
it carries, and no other field changes, if and only if it is one of the decodable ones. -/
theorem encoded_stored_iff (spare : Nat → Nat) (msg : ForkMsg) (behind : List UInt8)
    (dc : ForkClient) (within : dc.forks.Within dc.arrays)
    (few : (carriedForks msg).length < 2 ^ 29) :
    (∃ after, decodeMsg spare (encode msg ++ behind) (encode msg).length dc = some (.ok after) ∧
      Stored msg dc after) ↔ Decodable msg := by
  rw [← decoded]
  cases msg with
  | all genesisHash blockNumber forks =>
    change forks.length < 2 ^ 29 at few
    rw [decoded_all few,Decodable]
    by_cases fits : forks.length ≤ 2 ^ 29 - 7
    · have stored := (@known_setForks spare
        { dc with genesisHash := genesisHash, curBlockNumber := blockNumber } within forks).2
      rw [if_pos fits]
      exact ⟨fun _ => fits,fun _ => ⟨_,rfl,rfl,stored⟩⟩
    · rw [if_neg fits]
      constructor
      · rintro ⟨after,returned,-⟩
        cases returned
      · intro small
        exact absurd small fits
  | forks forks =>
    change forks.length < 2 ^ 29 at few
    rw [decoded_forks few,Decodable,← @replicate_first_eq_iff behind forks]
    by_cases fits : forks.length ≤ 2 ^ 29 - 2
    · have stored := (known_setForks spare within
        (replicate forks.length (uint64 (forks.flatMap putUint64 ++ behind)))).2
      rw [if_pos fits]
      constructor
      · rintro ⟨after,returned,-,knows⟩
        cases returned
        exact ⟨fits,stored.symm.trans knows⟩
      · rintro ⟨-,same⟩
        exact ⟨_,rfl,rfl,stored.trans same⟩
    · rw [if_neg fits]
      constructor
      · rintro ⟨after,returned,-⟩
        cases returned
      · rintro ⟨small,-⟩
        exact absurd small fits
  | genesis genesisHash =>
    rw [decoded_genesis]
    exact ⟨fun _ => trivial,fun _ => ⟨_,rfl,rfl⟩⟩
  | blockNumber blockNumber =>
    rw [decoded_blockNumber]
    exact ⟨fun _ => trivial,fun _ => ⟨_,rfl,rfl⟩⟩

theorem encoded_stored_threeForks : (∃ after, decodeMsg id (encode (.all .zero 7 [1, 2, 3]) ++ [])
        (encode (.all .zero 7 [1, 2, 3])).length zeroClient = some (.ok after) ∧
      Stored (.all .zero 7 [1, 2, 3]) zeroClient after) ∧
      (carriedForks (.all .zero 7 [1, 2, 3])).length < 2 ^ 29 := by
  have few : (carriedForks (.all .zero 7 [1,2,3])).length < 2 ^ 29 := by decide
  refine ⟨(encoded_stored_iff id (.all .zero 7 [1,2,3]) [] zeroClient
    (SharedSlice.within_nil _) few).mpr ?_,few⟩
  rw [Decodable]
  decide

/-- Of two forks in a `GetForksMsg` message the first is stored twice. -/
theorem encoded_twoForks_misread :
    ∃ after, decodeMsg id (encode (.forks [1, 2]) ++ []) (encode (.forks [1, 2])).length
        zeroClient = some (.ok after) ∧ after.knownForks = [1, 1] := by
  exact ⟨_,rfl,by decide⟩

end PioplatRelay.ForkClient
