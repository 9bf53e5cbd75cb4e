import PioplatRelay.ForkMessages

/-!
# Filters that share the forks of the client

A filter keeps the slice of forks that it was built from, with a sentinel behind it.
Where the array of the client has room for the sentinel the two share the array, and a
later message writes into the forks of the filter.
-/

namespace PioplatRelay

namespace SharedSlice

open Nat

variable {Value : Type*} {arrays : Arrays Value} {slice other : SharedSlice}

theorem backing_write_other {array : Option Nat} (different : other.array ≠ array) (index : Nat)
    (value : Value) : other.backing (write arrays array index value) = other.backing arrays := by
  obtain ⟨otherArray,length⟩ := other
  cases array with
  | none => rfl
  | some array =>
    cases otherArray with
    | none => rfl
    | some otherArray =>
      have apart : array ≠ otherArray := fun same => different (congrArg some same.symm)
      simp [backing,write,List.getD_eq_getElem?_getD,apart]

/-- A slice in another array does not see what is appended. -/
structure Apart (arrays : Arrays Value) (contents : List Value) (other slice : SharedSlice) :
    Prop where
  within : Within arrays other
  contents_eq : other.contents arrays = contents
  different : other.array ≠ slice.array

variable [Inhabited Value] (spare : Nat → Nat) {contents : List Value}

theorem Apart.append (apart : Apart arrays contents other slice) (value : Value) :
    Apart (slice.append spare arrays value).1 contents other
      (slice.append spare arrays value).2 := by
  obtain ⟨within,contentsEq,different⟩ := apart
  unfold SharedSlice.append
  split
  · have backingEq := @backing_write_other _ arrays _ _ different slice.length value
    refine ⟨⟨?_,?_⟩,?_,different⟩
    · rw [backingEq]
      exact within.length_le
    · simpa using within.array_lt
    · rw [SharedSlice.contents,backingEq]
      exact contentsEq
  · refine ⟨within.append_array _,(within.contents_append_array _).trans contentsEq,?_⟩
    intro same
    exact absurd (within.array_lt _ same) (lt_irrefl _)

theorem Apart.appendAll (apart : Apart arrays contents other slice) (values : List Value) :
    Apart (slice.appendAll spare arrays values).1 contents other
      (slice.appendAll spare arrays values).2 := by
  induction values generalizing arrays slice with
  | nil => exact apart
  | cons value values ih => exact ih (apart.append spare value)

theorem appendAll_room {values : List Value}
    (room : slice.length + values.length ≤ (slice.backing arrays).length) :
    (slice.appendAll spare arrays values).2 =
      { slice with length := slice.length + values.length } := by
  induction values generalizing arrays slice with
  | nil => rfl
  | cons value values ih =>
    rw [List.length_cons] at room
    have first : slice.append spare arrays value = (write arrays slice.array slice.length value,
        { slice with length := slice.length + 1 }) := if_pos (by omega)
    have backingEq := backing_write_self arrays slice slice.length value
    rw [appendAll,List.foldl_cons,first]
    refine (ih ?_).trans ?_
    · refine le_trans ?_ ((congrArg List.length backingEq).trans List.length_set).ge
      dsimp only
      omega
    · simp [add_assoc,add_comm 1]

end SharedSlice

namespace ForkClient

variable (spare : Nat → Nat) {dc after : ForkClient}

/-- A call of `decodeMsg`, after which the client goes on also with an error. -/
def decodeNext (input : List UInt8 × Nat) (dc : ForkClient) : Option ForkClient :=
  (decodeMsg spare input.1 input.2 dc).map fun
    | .ok after => after
    | .error _ => dc

/-- No messages change the verdict of the filter that the client has. -/
def KeepsVerdicts (dc : ForkClient) : Prop :=
  ∀ inputs after, runAll (decodeNext spare) dc inputs = some after →
    ∀ id, dc.forkFilter.check after.arrays id = dc.forkFilter.check dc.arrays id

theorem apart_decodeNext {contents : List UInt64} {forks : SharedSlice} {input : List UInt8 × Nat}
    (apart : forks.Apart dc.arrays contents dc.forks)
    (decoded : decodeNext spare input dc = some after) :
    forks.Apart after.arrays contents after.forks := by
  have stored (dc' : ForkClient) (same : dc'.arrays = dc.arrays ∧ dc'.forks = dc.forks)
      (forks' : List UInt64) : forks.Apart (dc'.setForks spare forks').arrays contents
        (dc'.setForks spare forks').forks := by
    have emptied : forks.Apart dc.arrays contents dc.forks.emptied :=
      { apart with }
    unfold setForks
    rw [same.1,same.2]
    exact emptied.appendAll spare forks'
  obtain ⟨result,decodeEq,afterEq⟩ := Option.map_eq_some_iff.mp decoded
  cases result with
  | error err =>
    cases afterEq
    exact apart
  | ok next =>
    cases afterEq
    obtain ⟨msg,rfl⟩ := decodeMsg_stores spare decodeEq
    cases msg with
    | all genesisHash blockNumber forks' => exact stored _ ⟨rfl,rfl⟩ forks'
    | forks forks' => exact stored dc ⟨rfl,rfl⟩ forks'
    | genesis _ | blockNumber _ => exact apart

theorem validate_of_passed {sums : List (Vector UInt8 4)} {forks : List UInt64} {head : UInt64}
    (passed : ∀ fork ∈ forks, fork ≤ head) (id : ForkID) : validate sums forks head id = none := by
  have none : (forks.findIdx? fun fork => head < fork) = none := by
    rw [List.findIdx?_eq_none_iff]
    intro fork member
    simpa using passed fork member
  rw [validate,none]

theorem validate_of_foreign {sums : List (Vector UInt8 4)} {forks : List UInt64} {head : UInt64}
    {id : ForkID} (unpassed : ∃ fork ∈ forks, head < fork) (foreign : id.hash ∉ sums) :
    validate sums forks head id = some .localIncompatibleOrStale := by
  obtain ⟨fork,member,above⟩ := unpassed
  cases found : forks.findIdx? fun fork => head < fork with
  | none =>
    rw [List.findIdx?_eq_none_iff] at found
    simpa [above] using found fork member
  | some i =>
    have here : sums[i]? ≠ some id.hash := fun there => foreign (List.mem_of_getElem? there)
    have before : ((sums.take i).findIdx? fun sum => sum = id.hash) = none := by
      rw [List.findIdx?_eq_none_iff]
      rintro sum earlier
      exact decide_eq_false fun same => foreign (same ▸ List.mem_of_mem_take earlier)
    have behind : id.hash ∉ sums.drop (i + 1) := fun later => foreign (List.mem_of_mem_drop later)
    simp [validate,found,here,before,behind]

theorem length_sumsFrom (checksum : ForkChecksum) (forks : List UInt64) (hash : UInt32) :
    (checksum.sumsFrom forks hash).length = forks.length + 1 := by
  induction forks generalizing hash with
  | nil => rfl
  | cons fork forks ih => rw [ForkChecksum.sumsFrom,List.length_cons,ih,List.length_cons]

theorem checksumToBytes_injective : Function.Injective checksumToBytes := by
  intro hash other same
  have bytesEq := List.reverse_injective (congrArg Vector.toList same)
  rw [← LittleEndian.uint32_putUint32 hash,bytesEq,LittleEndian.uint32_putUint32]

/-- There are more hashes than a filter has checksums. -/
theorem exists_foreign {sums : List (Vector UInt8 4)} (few : sums.length < 2 ^ 32) :
    ∃ hash, hash ∉ sums := by
  by_contra! all
  have distinct : ((List.range (2 ^ 32)).map fun n => checksumToBytes (UInt32.ofNat n)).Nodup := by
    rw [List.nodup_map_iff_inj_on List.nodup_range]
    intro n below m mBelow same
    have words := congrArg UInt32.toNat (checksumToBytes_injective same)
    rw [List.mem_range] at below mBelow
    rwa [UInt32.toNat_ofNat_of_lt' below,UInt32.toNat_ofNat_of_lt' mBelow] at words
  have lengthLe := (distinct.subperm fun hash _ => all hash).length_le
  rw [List.length_map,List.length_range] at lengthLe
  omega

variable (dc) in
def zeroForks : List UInt64 := List.replicate (dc.forks.length + 1) 0

/-- As many zeros as the filter has forks end up in the shared array. -/
theorem exists_overwritten (within : dc.forks.Within dc.arrays)
    (few : dc.forks.length + 1 ≤ 2 ^ 29 - 7)
    (room : dc.forks.length < (dc.forks.backing dc.arrays).length) :
    ∃ inputs after, runAll (decodeNext spare) (dc.rebuild spare) inputs = some after ∧
      (dc.rebuild spare).forkFilter.forks.contents after.arrays = dc.zeroForks := by
  have lengthEq : dc.zeroForks.length = dc.forks.length + 1 := List.length_replicate
  have appended : dc.forks.append spare dc.arrays maxUint64 =
      (SharedSlice.write dc.arrays dc.forks.array dc.forks.length maxUint64,
        { dc.forks with length := dc.forks.length + 1 }) := if_pos room
  let start : ForkClient := { dc.rebuild spare with curBlockNumber := 0 }
  have decodedEq : decoded spare (.all dc.genesisHash 0 dc.zeroForks) [] (dc.rebuild spare) =
      some (.ok (start.setForks spare dc.zeroForks)) :=
    (decoded_all (by omega)).trans (if_pos (by omega))
  have fits : 0 + dc.zeroForks.length ≤ (dc.forks.emptied.backing start.arrays).length := by
    change _ ≤ (dc.forks.backing (dc.forks.append spare dc.arrays maxUint64).1).length
    rw [appended,SharedSlice.backing_write_self,List.length_set]
    omega
  let message := encode (.all dc.genesisHash 0 dc.zeroForks)
  refine ⟨[(message ++ [], message.length)],start.setForks spare dc.zeroForks,?_,?_⟩
  · rw [runAll_cons,decodeNext]
    change ((decoded spare (.all dc.genesisHash 0 dc.zeroForks) [] (dc.rebuild spare)).map _).bind _
      = _
    rw [decodedEq]
    rfl
  · have startWithin : start.forks.Within start.arrays := (within.append_placed spare maxUint64).1
    have stored := (known_setForks spare startWithin dc.zeroForks).2
    have slices : (start.setForks spare dc.zeroForks).forks =
        (dc.rebuild spare).forkFilter.forks := by
      refine (SharedSlice.appendAll_room spare fits).trans
        (Eq.trans ?_ (congrArg Prod.snd appended).symm)
      change (⟨dc.forks.array,0 + dc.zeroForks.length⟩ : SharedSlice) = _
      rw [lengthEq,zero_add]
    rw [← slices]
    exact stored

/-- The filter that a client builds from its forks is immutable exactly if its array has
no room for the sentinel, or the head is past every number. -/
theorem filter_immutable_iff (within : dc.forks.Within dc.arrays)
    (few : dc.forks.length + 1 ≤ 2 ^ 29 - 7) :
    KeepsVerdicts spare (dc.rebuild spare) ↔
      dc.forks.length = (dc.forks.backing dc.arrays).length ∨ dc.curBlockNumber = maxUint64 := by
  have built := newFilterInDisguise_builtFrom spare within dc.genesisHash dc.curBlockNumber
  have last_le (fork : UInt64) : fork ≤ maxUint64 :=
    UInt64.le_iff_toNat_le.mpr (Nat.le_of_lt_succ fork.toNat_lt)
  constructor
  · intro keeps
    by_contra shared
    rw [not_or] at shared
    have countEq : dc.knownForks.length = dc.forks.length := within.contents_length
    obtain ⟨hash,foreign⟩ : ∃ hash, hash ∉ ForkChecksum.ieee.sums dc.knownForks dc.genesisHash :=
      exists_foreign (by rw [ForkChecksum.sums,length_sumsFrom]; omega)
    obtain ⟨inputs,after,run,zeros⟩ :=
      exists_overwritten spare within few (lt_of_le_of_ne within.length_le shared.1)
    have rejects : (dc.rebuild spare).forkFilter.check (dc.rebuild spare).arrays ⟨hash,0⟩ =
        some .localIncompatibleOrStale :=
      (built.check _).trans (validate_of_foreign
        ⟨maxUint64,by simp,UInt64.lt_of_le_of_ne (last_le _) shared.2⟩ foreign)
    rw [← keeps inputs after run,ForkFilter.check,zeros,validate_of_passed] at rejects
    · cases rejects
    · intro fork member
      rw [List.eq_of_mem_replicate member]
      exact UInt64.le_iff_toNat_le.mpr (Nat.zero_le _)
  · rintro (full | last) inputs after run id
    · have fresh : (dc.rebuild spare).forkFilter.forks.array = some dc.arrays.length :=
        congrArg (fun appended => appended.2.array)
          (if_neg (by omega) : dc.forks.append spare dc.arrays maxUint64 = _)
      have apart : (dc.rebuild spare).forkFilter.forks.Apart (dc.rebuild spare).arrays
          (dc.knownForks ++ [maxUint64]) (dc.rebuild spare).forks := by
        refine ⟨built.within,built.contents,fun same => ?_⟩
        exact absurd (within.array_lt _ (same.symm.trans fresh)) (lt_irrefl _)
      have later := always_of_kept (fun _ _ _ => apart_decodeNext spare) (fun _ apart => apart)
        apart inputs List.prefix_rfl after run
      rw [ForkFilter.check,ForkFilter.check,later.contents_eq,apart.contents_eq]
    · have passed (arrays : Arrays UInt64) :
          (dc.rebuild spare).forkFilter.check arrays id = none := by
        apply validate_of_passed
        intro fork _
        exact (last ▸ last_le fork : fork ≤ dc.curBlockNumber)
      rw [passed,passed]

/-- An array for three elements, filled one by one, has room for a fourth. -/
def doubling (needed : Nat) : Nat :=
  if needed = 3 then 1 else 0

def fourForks : ForkClient :=
  { zeroClient with
    arrays := [[5], [5, 6], [5, 6, 7, 8]], forks := ⟨some 2,4⟩, curBlockNumber := 6 }

/-- Four forks fill their array. -/
theorem filter_immutable_fourForks :
    createDisguise doubling 0 (encode (.all .zero 6 [5, 6, 7, 8])) =
        some (fourForks.rebuild doubling) ∧
      KeepsVerdicts doubling (fourForks.rebuild doubling) := by
  refine ⟨by decide +kernel,
    (filter_immutable_iff doubling ⟨by decide,?_⟩ (by decide)).mpr (.inl rfl)⟩
  rintro _ ⟨⟩
  decide

def foreignID : ForkID := ⟨.replicate 4 0,0⟩

/-- A client gets three forks at its start and four later; the filter of its start then
accepts what it rejected. -/
theorem filter_overwritten :
    (createDisguise doubling 0 (encode (.all .zero 3 [5, 6, 7]))).bind (fun dc =>
      (decodeNext doubling (encode (.all .zero 3 [0, 0, 0, 0]), 80) dc).map fun after =>
        (dc.forkFilter.check dc.arrays foreignID, dc.forkFilter.check after.arrays foreignID)) =
      some (some .localIncompatibleOrStale, none) := by
  decide +kernel

end ForkClient

end PioplatRelay
