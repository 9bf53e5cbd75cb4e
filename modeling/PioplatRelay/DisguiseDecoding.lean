import PioplatRelay.DisguiseForks

/-!
# Decoding untrusted fork messages

`decodeMsg` with its assignments and its slices in the order of the source.  The
length that a message should have is computed from its number of forks in 32 bits
and compared with the length that it has, and then as many forks are read as the
number says.  From 2^29 forks on the product wraps around, so a short message can
pass the comparison.
-/

namespace PioplatRelay

open List Option LittleEndian

namespace ForkClient

open DisguiseClient (cmdSize lengthSize hashSize blockNumberSize)

/-- The client in the midst of `decodeMsg`, with the upper bounds of the slices taken
so far. -/
structure Decoding where
  client : ForkClient
  reads : List Nat

namespace Decoding

def read (buffer : List UInt8) (low high : Nat) (s : Decoding) : Option (List UInt8 × Decoding) :=
  (slice buffer low high).map fun bytes => (bytes, { s with reads := s.reads ++ [high] })

def append (spare : Nat → Nat) (fork : UInt64) (s : Decoding) : Decoding :=
  let appended := s.client.forks.append spare s.client.arrays fork
  { s with client := { s.client with arrays := appended.1, forks := appended.2 } }

def appendForks (spare : Nat → Nat) (buffer : List UInt8) (low high : Nat → Nat) :
    Nat → Nat → Decoding → Option Decoding
  | _, 0, s => some s
  | i, count + 1, s => do
      let (bytes, s) ← s.read buffer (low i) (high i)
      appendForks spare buffer low high (i + 1) count (s.append spare (uint64 bytes))

def setGenesisHash (bytes : List UInt8) (s : Decoding) : Decoding :=
  { s with client := { s.client with genesisHash := Hash.zero.setBytes bytes } }

def setBlockNumber (bytes : List UInt8) (s : Decoding) : Decoding :=
  { s with client := { s.client with curBlockNumber := uint64 bytes } }

def emptyForks (s : Decoding) : Decoding :=
  { s with client := { s.client with forks := s.client.forks.emptied } }

/-- `decodeMsg` on the first bytes of a buffer, with the returned error.  The value
`none` is a bounds panic, which leaves the assignments before it in place. -/
def decodeMsg (spare : Nat → Nat) (buffer : List UInt8) (length : Nat) (s : Decoding) :
    Option (Option MsgError × Decoding) :=
  let msg := buffer.take length
  if getAllAbove <+: msg then
    if length < cmdSize + lengthSize + hashSize + blockNumberSize then some (some .invalidLength, s)
    else do
      let (count, s) ← s.read buffer cmdSize (cmdSize + lengthSize)
      let forksLength := uint32 count
      let msgTotalLength : UInt32 := 48 + 8 * forksLength
      if length ≠ msgTotalLength.toNat then
        return (some .invalidLength, s)
      let (genesisHash, s) ← s.read buffer (cmdSize + lengthSize)
        (cmdSize + lengthSize + hashSize)
      let s := s.setGenesisHash genesisHash
      let (blockNumber, s) ← s.read buffer (cmdSize + lengthSize + hashSize)
        (cmdSize + lengthSize + hashSize + blockNumberSize)
      let s := (s.setBlockNumber blockNumber).emptyForks
      let offsite := cmdSize + lengthSize + hashSize + blockNumberSize
      let s ← s.appendForks spare buffer (fun i => offsite + i * forkNumberSize)
        (fun i => offsite + i * forkNumberSize + forkNumberSize) 0 forksLength.toNat
      return (none, s)
  else if getForksMsg <+: msg then
    if length < cmdSize + lengthSize then some (some .invalidLength, s)
    else do
      let (count, s) ← s.read buffer cmdSize (cmdSize + lengthSize)
      let forksLength := uint32 count
      let msgTotalLength : UInt32 := 8 + 8 * forksLength
      if length ≠ msgTotalLength.toNat then
        return (some .invalidLength, s)
      let s ← s.emptyForks.appendForks spare buffer (fun _ => cmdSize + lengthSize)
        (fun i => cmdSize + lengthSize + i * forkNumberSize) 1 forksLength.toNat
      return (none, s)
  else if getGenesisMsg <+: msg then
    if length ≠ cmdSize + hashSize then some (some .invalidCommand, s)
    else do
      let (genesisHash, s) ← s.read buffer cmdSize (cmdSize + hashSize)
      return (none, s.setGenesisHash genesisHash)
  else if getBlockNumber <+: msg then
    if length ≠ cmdSize + blockNumberSize then some (some .invalidLength, s)
    else do
      let (blockNumber, s) ← s.read buffer cmdSize (cmdSize + blockNumberSize)
      return (none, s.setBlockNumber blockNumber)
  else some (some .invalidCommand, s)

/-! ## Loops over the forks -/

variable {spare : Nat → Nat} {buffer : List UInt8} {low high : Nat → Nat} {length : Nat}

def appended (spare : Nat → Nat) (s : Decoding) (forks : List UInt64) (bounds : List Nat) :
    Decoding :=
  let stored := s.client.forks.appendAll spare s.client.arrays forks
  ⟨{ s.client with arrays := stored.1, forks := stored.2 }, s.reads ++ bounds⟩

theorem appendForks_eq (i count : Nat) (s : Decoding) :
    appendForks spare buffer low high i count s =
      (readForks buffer low high i count).map fun forks =>
        s.appended spare forks ((range' i count).map high) := by
  induction count generalizing i s with
  | zero => simp [appendForks,readForks,appended,SharedSlice.appendAll]
  | succ count ih =>
    rw [appendForks,readForks,read]
    cases slice buffer (low i) (high i) with
    | none => rfl
    | some bytes =>
      simp only [ih]
      cases readForks buffer low high (i + 1) count with
      | none => rfl
      | some forks => simp [append,appended,SharedSlice.appendAll,range'_succ]

theorem readForks_of_inside {i count : Nat}
    (inside : ∀ j, i ≤ j → j < i + count → low j ≤ high j ∧ high j ≤ buffer.length) :
    ∃ forks, readForks buffer low high i count = some forks := by
  induction count generalizing i with
  | zero => exact ⟨[],rfl⟩
  | succ count ih =>
    obtain ⟨ordered,bounded⟩ := inside i (le_refl i) (by omega)
    obtain ⟨forks,rest⟩ := ih (i := i + 1) fun j above below => inside j (by omega) (by omega)
    rw [readForks,slice_of_le ordered bounded,rest]
    exact ⟨_,rfl⟩

/-! ## Untrusted messages -/

def forkCount (msg : List UInt8) : Nat :=
  (uint32 ((msg.take (cmdSize + lengthSize)).drop cmdSize)).toNat

/-- The message passes the comparison of its length although the product with the
number of forks has wrapped around. -/
def Wraps (msg : List UInt8) : Prop :=
  2 ^ 29 ≤ forkCount msg ∧
    (getAllAbove <+: msg ∧ 48 ≤ msg.length ∧ msg.length = (48 + 8 * forkCount msg) % 2 ^ 32 ∨
      getForksMsg <+: msg ∧ 8 ≤ msg.length ∧ msg.length = (8 + 8 * forkCount msg) % 2 ^ 32)

/-- With some bytes behind the message in the buffer, `decodeMsg` returns: with an
error and the client as it was, or with none and all slices inside the message. -/
def Safe (spare : Nat → Nat) (msg behind : List UInt8) (dc : ForkClient) : Prop :=
  ∃ error s, decodeMsg spare (msg ++ behind) msg.length ⟨dc, []⟩ = some (error, s) ∧
    (error ≠ none → s.client = dc) ∧ (error = none → ∀ high ∈ s.reads, high ≤ msg.length)

theorem totalLength_toNat (header count : UInt32) :
    (header + 8 * count).toNat = (header.toNat + 8 * count.toNat) % 2 ^ 32 := by
  rw [UInt32.toNat_add,UInt32.toNat_mul]
  simp

variable {msg behind : List UInt8} {dc : ForkClient}

theorem read_inside {low high : Nat} (ordered : low ≤ high) (inside : high ≤ msg.length)
    (s : Decoding) : s.read (msg ++ behind) low high =
      some ((msg.take high).drop low, { s with reads := s.reads ++ [high] }) := by
  rw [read,slice_append_left behind ordered inside]
  rfl

def allAboveStart (msg : List UInt8) (dc : ForkClient) : Decoding :=
  ⟨{ dc with
    genesisHash := Hash.zero.setBytes ((msg.take 40).drop 8)
    curBlockNumber := uint64 ((msg.take 48).drop 40)
    forks := dc.forks.emptied }, [8, 40, 48]⟩

theorem decodeMsg_allAbove (isAll : getAllAbove <+: msg) (long : 48 ≤ msg.length) :
    decodeMsg spare (msg ++ behind) msg.length ⟨dc, []⟩ =
      if msg.length ≠ (48 + 8 * forkCount msg) % 2 ^ 32 then some (some .invalidLength, ⟨dc, [8]⟩)
      else (appendForks spare (msg ++ behind) (fun i => 48 + i * 8) (fun i => 48 + i * 8 + 8) 0
          (forkCount msg) (allAboveStart msg dc)).map fun s => (none, s) := by
  have total := totalLength_toNat 48 (uint32 ((msg.take 8).drop 4))
  have notShort : ¬ msg.length < cmdSize + lengthSize + hashSize + blockNumberSize :=
    not_lt.mpr long
  simp only [decodeMsg,take_left']
  rw [if_pos isAll,if_neg notShort]
  simp only [cmdSize,lengthSize,hashSize,blockNumberSize]
  rw [read_inside (by omega) (by omega)]
  simp only [bind_eq_bind,bind_some,total]
  rw [read_inside (by omega) (by omega)]
  simp only [bind_some]
  rw [read_inside (by omega) (by omega)]
  simp only [map_eq_bind]
  rfl

theorem getForks_not_all (isForks : getForksMsg <+: msg) : ¬ getAllAbove <+: msg := by
  intro isAll
  have same := prefix_of_prefix_length_le isAll isForks (by decide)
  revert same
  decide

theorem decodeMsg_forks (isForks : getForksMsg <+: msg) (long : 8 ≤ msg.length) :
    decodeMsg spare (msg ++ behind) msg.length ⟨dc, []⟩ =
      if msg.length ≠ (8 + 8 * forkCount msg) % 2 ^ 32 then some (some .invalidLength, ⟨dc, [8]⟩)
      else (appendForks spare (msg ++ behind) (fun _ => 8) (fun i => 8 + i * 8) 1 (forkCount msg)
          ⟨{ dc with forks := dc.forks.emptied }, [8]⟩).map fun s => (none, s) := by
  have total := totalLength_toNat 8 (uint32 ((msg.take 8).drop 4))
  have notShort : ¬ msg.length < cmdSize + lengthSize := not_lt.mpr long
  simp only [decodeMsg,take_left']
  rw [if_neg (getForks_not_all isForks),if_pos isForks,if_neg notShort]
  simp only [cmdSize,lengthSize]
  rw [read_inside (by omega) (by omega)]
  simp only [bind_eq_bind,bind_some,total,map_eq_bind]
  rfl

theorem appendForks_inside {i count : Nat} {s : Decoding}
    (before : ∀ bound ∈ s.reads, bound ≤ msg.length)
    (inside : ∀ j, i ≤ j → j < i + count → low j ≤ high j ∧ high j ≤ msg.length) :
    ∃ after, appendForks spare (msg ++ behind) low high i count s = some after ∧
      ∀ bound ∈ after.reads, bound ≤ msg.length := by
  have inBuffer (j : Nat) (above : i ≤ j) (below : j < i + count) :
      low j ≤ high j ∧ high j ≤ (msg ++ behind).length := by
    have := inside j above below
    rw [length_append]
    omega
  obtain ⟨forks,found⟩ := readForks_of_inside inBuffer
  refine ⟨_,by rw [appendForks_eq,found]; rfl,?_⟩
  intro bound member
  rcases mem_append.mp member with earlier | new
  · exact before bound earlier
  · obtain ⟨j,inRange,rfl⟩ := mem_map.mp new
    rw [mem_range'_1] at inRange
    exact (inside j inRange.1 inRange.2).2

/-- A loop that returns has taken the slice of each of its forks. -/
theorem mem_reads_of_appendForks {i count j : Nat} {s after : Decoding}
    (returned : appendForks spare buffer low high i count s = some after) (above : i ≤ j)
    (below : j < i + count) : high j ∈ after.reads := by
  rw [appendForks_eq] at returned
  obtain ⟨forks,-,rfl⟩ := map_eq_some_iff.mp returned
  exact mem_append_right _ (mem_map.mpr ⟨j,mem_range'_1.mpr ⟨above,below⟩,rfl⟩)

theorem safe_of_error (error : MsgError) (reads : List Nat)
    (returned : decodeMsg spare (msg ++ behind) msg.length ⟨dc, []⟩ =
      some (some error, ⟨dc,reads⟩)) : Safe spare msg behind dc :=
  ⟨_,_,returned,fun _ => rfl,fun noError => by cases noError⟩

theorem safe_of_inside (after : Decoding)
    (returned : decodeMsg spare (msg ++ behind) msg.length ⟨dc, []⟩ = some (none, after))
    (inside : ∀ bound ∈ after.reads, bound ≤ msg.length) : Safe spare msg behind dc :=
  ⟨_,_,returned,fun isError => absurd rfl isError,fun _ => inside⟩

/-- A branch with a loop over the forks, at whose start the length was compared. -/
theorem safe_loop_iff {header i : Nat} {start : Decoding} (long : header ≤ msg.length)
    (equation : decodeMsg spare (msg ++ behind) msg.length ⟨dc, []⟩ =
      if msg.length ≠ (header + 8 * forkCount msg) % 2 ^ 32 then
        some (some .invalidLength, ⟨dc, [8]⟩)
      else
        (appendForks spare (msg ++ behind) low high i (forkCount msg) start).map
          fun s => (none, s)) (before : ∀ bound ∈ start.reads, bound ≤ msg.length)
    (bounds : ∀ j, i ≤ j → low j ≤ high j ∧ high j = header + 8 * (j + 1 - i)) :
    Safe spare msg behind dc ↔
      ¬ (2 ^ 29 ≤ forkCount msg ∧ msg.length = (header + 8 * forkCount msg) % 2 ^ 32) := by
  split at equation
  · rename_i differs
    exact iff_of_true (safe_of_error _ _ equation) fun wraps => differs wraps.2
  rename_i same
  rw [not_not] at same
  constructor
  · rintro ⟨error,s,returned,-,inside⟩ ⟨large,-⟩
    rw [equation] at returned
    obtain ⟨after,appended,afterEq⟩ := map_eq_some_iff.mp returned
    cases afterEq
    -- The loop has come to a fork behind the message.
    have reached := inside rfl _ (mem_reads_of_appendForks
      (j := i + (msg.length - header) / 8) appended (by omega) (by omega))
    have outside := (bounds (i + (msg.length - header) / 8) (by omega)).2
    omega
  · intro fits
    have inside (j : Nat) (above : i ≤ j) (below : j < i + forkCount msg) :
        low j ≤ high j ∧ high j ≤ msg.length := by
      obtain ⟨ordered,highEq⟩ := bounds j above
      exact ⟨ordered,by omega⟩
    obtain ⟨after,appended,inside⟩ := appendForks_inside before inside
    rw [appended] at equation
    exact safe_of_inside _ equation inside

theorem safe_allAbove_iff (isAll : getAllAbove <+: msg) :
    Safe spare msg behind dc ↔ ¬ Wraps msg := by
  have notForks : ¬ getForksMsg <+: msg := fun isForks => getForks_not_all isForks isAll
  by_cases long : 48 ≤ msg.length
  · rw [safe_loop_iff long (decodeMsg_allAbove isAll long)]
    · simp [Wraps,isAll,notForks,long]
    · simp only [allAboveStart,mem_cons,not_mem_nil,or_false]
      omega
    · intro j _
      constructor <;> omega
  · apply iff_of_true
    · apply safe_of_error .invalidLength []
      have short : msg.length < cmdSize + lengthSize + hashSize + blockNumberSize :=
        not_le.mp long
      simp only [decodeMsg,take_left']
      rw [if_pos isAll,if_pos short]
    · simp [Wraps,notForks,long]

theorem safe_forks_iff (isForks : getForksMsg <+: msg) :
    Safe spare msg behind dc ↔ ¬ Wraps msg := by
  have notAll := getForks_not_all isForks
  by_cases long : 8 ≤ msg.length
  · rw [safe_loop_iff long (decodeMsg_forks isForks long)]
    · simp [Wraps,isForks,notAll,long]
    · simp only [mem_singleton]
      omega
    · intro j _
      constructor <;> omega
  · apply iff_of_true
    · apply safe_of_error .invalidLength []
      have short : msg.length < cmdSize + lengthSize := not_le.mp long
      simp only [decodeMsg,take_left']
      rw [if_neg notAll,if_pos isForks,if_pos short]
    · simp [Wraps,notAll,long]

/-- The other messages have a fixed length. -/
theorem safe_fixed (isAll : ¬ getAllAbove <+: msg) (isForks : ¬ getForksMsg <+: msg) :
    Safe spare msg behind dc := by
  by_cases isGenesis : getGenesisMsg <+: msg
  · by_cases sized : msg.length = cmdSize + hashSize
    · apply safe_of_inside ⟨{ dc with
        genesisHash := Hash.zero.setBytes ((msg.take 36).drop 4) },[36]⟩
      · simp only [decodeMsg,take_left']
        rw [if_neg isAll,if_neg isForks,if_pos isGenesis,if_neg (not_not.mpr sized),
          read_inside (by decide) (le_of_eq sized.symm)]
        rfl
      · simp [sized,cmdSize,hashSize]
    · apply safe_of_error .invalidCommand []
      simp only [decodeMsg,take_left']
      rw [if_neg isAll,if_neg isForks,if_pos isGenesis,if_pos sized]
  by_cases isNumber : getBlockNumber <+: msg
  · by_cases sized : msg.length = cmdSize + blockNumberSize
    · apply safe_of_inside ⟨{ dc with
        curBlockNumber := uint64 ((msg.take 12).drop 4) },[12]⟩
      · simp only [decodeMsg,take_left']
        rw [if_neg isAll,if_neg isForks,if_neg isGenesis,if_pos isNumber,
          if_neg (not_not.mpr sized),read_inside (by decide) (le_of_eq sized.symm)]
        rfl
      · simp [sized,cmdSize,blockNumberSize]
    · apply safe_of_error .invalidLength []
      simp only [decodeMsg,take_left']
      rw [if_neg isAll,if_neg isForks,if_neg isGenesis,if_pos isNumber,if_pos sized]
  · apply safe_of_error .invalidCommand []
    simp only [decodeMsg,take_left']
    rw [if_neg isAll,if_neg isForks,if_neg isGenesis,if_neg isNumber]

/-- With any prior client and whatever stands behind the message, decoding is safe
exactly when the message does not wrap around. -/
theorem safe_iff_not_wraps (spare : Nat → Nat) (msg behind : List UInt8) (dc : ForkClient) :
    Safe spare msg behind dc ↔ ¬ Wraps msg := by
  by_cases isAll : getAllAbove <+: msg
  · exact safe_allAbove_iff isAll
  by_cases isForks : getForksMsg <+: msg
  · exact safe_forks_iff isForks
  · exact iff_of_true (safe_fixed isAll isForks) (by simp [Wraps,isAll,isForks])

/-- A message of 48 bytes that claims 2^29 forks. -/
def wrappingMsg : List UInt8 := getAllAbove ++ [0, 0, 0, 32] ++ replicate 40 0

theorem decodeMsg_panics_on_wrappingMsg :
    decodeMsg id (wrappingMsg ++ []) wrappingMsg.length ⟨zeroClient, []⟩ = none := by
  decide +kernel

def outcome (returned : Option MsgError × Decoding) : Except MsgError ForkClient :=
  match returned.1 with
  | some error => .error error
  | none => .ok returned.2.client

/-- The decoding in steps is the function that runs of the client use. -/
theorem decodeMsg_eq (spare : Nat → Nat) (buffer : List UInt8) (length : Nat) (dc : ForkClient) :
    (decodeMsg spare buffer length ⟨dc, []⟩).map outcome =
      ForkClient.decodeMsg spare buffer length dc := by
  rw [decodeMsg,ForkClient.decodeMsg,parseMsg]
  split
  · split
    · rfl
    · rw [read]
      cases slice buffer cmdSize ↑(cmdSize + lengthSize) with
      | none => rfl
      | some count =>
        simp only [map_some,bind_eq_bind,bind_some]
        split
        · rfl
        · rw [read]
          cases slice buffer ↑(cmdSize + lengthSize) ↑(cmdSize + lengthSize + hashSize) with
          | none => rfl
          | some genesisHash =>
            simp only [map_some,bind_some]
            rw [read]
            cases slice buffer ↑(cmdSize + lengthSize + hashSize)
                ↑(cmdSize + lengthSize + hashSize + blockNumberSize) with
            | none => rfl
            | some blockNumber =>
              simp only [appendForks_eq]
              cases readForks buffer _ _ 0 (uint32 count).toNat <;> rfl
  split
  · split
    · rfl
    · rw [read]
      cases slice buffer cmdSize ↑(cmdSize + lengthSize) with
      | none => rfl
      | some count =>
        simp only [map_some,bind_eq_bind,bind_some]
        split
        · rfl
        · rw [appendForks_eq]
          cases readForks buffer _ _ 1 (uint32 count).toNat <;> rfl
  split
  · split
    · rfl
    · rw [read]
      cases slice buffer cmdSize ↑(cmdSize + hashSize) <;> rfl
  split
  · split
    · rfl
    · rw [read]
      cases slice buffer cmdSize ↑(cmdSize + blockNumberSize) <;> rfl
  · rfl

end Decoding

end ForkClient

end PioplatRelay
