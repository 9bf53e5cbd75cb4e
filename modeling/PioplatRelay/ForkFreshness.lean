import PioplatRelay.DisguiseForks

/-!
# Freshness of the fork information

The identifier and the filter of a client belong to its fields when they are
built, at the start and after every failed exchange.  A successful exchange
changes the fields and builds nothing.  So the pair, and the filter that the handler
took at its start, stay fresh in exactly those runs in which the replies of the full
node only repeat what the client knows.
-/

namespace PioplatRelay.ForkClient

open SharedSlice

def knownForks (dc : ForkClient) : List UInt64 := dc.forks.contents dc.arrays

def known (dc : ForkClient) : List UInt64 × Hash × UInt64 :=
  (dc.knownForks, dc.genesisHash, dc.curBlockNumber)

/-- The pair of the last call and the handler's filter are those of the fields. -/
structure Fresh (handlerFilter : ForkFilter) (dc : ForkClient) : Prop where
  forkID : dc.forkID = newIdInDisguise dc.knownForks dc.genesisHash dc.curBlockNumber
  forkFilter : ∀ id, dc.forkFilter.check dc.arrays id =
    forkVerdict dc.knownForks dc.genesisHash dc.curBlockNumber id
  handlerFilter : ∀ id, handlerFilter.check dc.arrays id =
    forkVerdict dc.knownForks dc.genesisHash dc.curBlockNumber id

variable (spare : Nat → Nat)

/-- A reply to the call that decodes says what the client knows. -/
def Repeats (dc : ForkClient) (call : ForkCall) : Prop :=
  dc.Exchanges call → ∀ bytes, call.exchange = .received bytes →
    ∀ after, decodeMsg spare (readInto 0x400 bytes).1 (readInto 0x400 bytes).2 dc =
      some (.ok after) → after.known = dc.known

/-- Every call of a run gets such a reply or none. -/
def Steady : ForkClient → List ForkCall → Prop := Guarded (getForkInfo spare) (Repeats spare)

theorem known_setForks {dc : ForkClient} (within : dc.forks.Within dc.arrays)
    (forks : List UInt64) :
    (dc.setForks spare forks).forks.Within (dc.setForks spare forks).arrays ∧
      (dc.setForks spare forks).knownForks = forks := by
  have stored := within.emptied.appendAll spare forks
  rw [contents_emptied,List.nil_append] at stored
  exact stored

theorem setForks_known {dc : ForkClient} (within : dc.forks.Within dc.arrays) :
    dc.setForks spare dc.knownForks = dc := by
  have present : dc.knownForks <+: (dc.forks.emptied.backing dc.arrays).drop 0 := by
    rw [List.drop_zero]
    exact List.take_prefix _ _
  have unchanged : dc.forks.emptied.appendAll spare dc.arrays dc.knownForks =
      (dc.arrays, { dc.forks.emptied with length := 0 + dc.knownForks.length }) :=
    appendAll_present spare present
  have lengthEq : dc.knownForks.length = dc.forks.length := within.contents_length
  rw [setForks,unchanged,lengthEq]
  simp [emptied]

/-- A message that repeats what the client knows changes nothing, not even an
array. -/
theorem store_of_known_eq {dc : ForkClient} {msg : ForkMsg}
    (within : dc.forks.Within dc.arrays) (same : (dc.store spare msg).known = dc.known) :
    dc.store spare msg = dc := by
  cases msg with
  | all genesisHash blockNumber forks =>
    have forksEq := (@known_setForks spare
      { dc with genesisHash := genesisHash, curBlockNumber := blockNumber } within forks).2
    simp only [known,Prod.mk.injEq] at same
    rcases same with ⟨forksSame,genesisSame,numberSame⟩
    have forksKnown : forks = dc.knownForks := forksEq.symm.trans forksSame
    change genesisHash = dc.genesisHash at genesisSame
    change blockNumber = dc.curBlockNumber at numberSame
    subst genesisSame numberSame forksKnown
    exact setForks_known spare within
  | forks forks =>
    have forksEq := (known_setForks spare within forks).2
    have forksKnown : forks = dc.knownForks :=
      forksEq.symm.trans (congrArg Prod.fst same)
    rw [store,forksKnown]
    exact setForks_known spare within
  | genesis genesisHash =>
    simp only [known,store,Prod.mk.injEq] at same
    rw [store,same.2.1]
  | blockNumber blockNumber =>
    simp only [known,store,Prod.mk.injEq] at same
    rw [store,same.2.2]

/-! ## The pair over a run -/

/-- What a steady run keeps.  Behind the forks of the client stands a sentinel
wherever there is room for one, so that building another filter changes no
element of an array. -/
structure Settled (handlerFilter : ForkFilter) (dc : ForkClient) : Prop where
  within : dc.forks.Within dc.arrays
  placed : dc.forks.length < (dc.forks.backing dc.arrays).length →
    (dc.forks.backing dc.arrays)[dc.forks.length]? = some maxUint64
  forkID : dc.forkID = newIdInDisguise dc.knownForks dc.genesisHash dc.curBlockNumber
  forkFilter : dc.forkFilter.BuiltFrom dc.arrays dc.knownForks dc.genesisHash dc.curBlockNumber
  handlerFilter :
    handlerFilter.BuiltFrom dc.arrays dc.knownForks dc.genesisHash dc.curBlockNumber

variable {handlerFilter : ForkFilter} {dc after : ForkClient}

theorem Settled.fresh (settled : Settled handlerFilter dc) : Fresh handlerFilter dc :=
  ⟨settled.forkID,settled.forkFilter.check,settled.handlerFilter.check⟩

theorem rebuild_knownForks (within : dc.forks.Within dc.arrays) :
    (dc.rebuild spare).knownForks = dc.knownForks :=
  (within.append_placed spare maxUint64).2.1

/-- The client right after it has built its pair, with its own filter in the
place of the handler's. -/
theorem rebuild_settled (within : dc.forks.Within dc.arrays) :
    Settled (dc.rebuild spare).forkFilter (dc.rebuild spare) := by
  have placed := within.append_placed spare maxUint64
  have built := newFilterInDisguise_builtFrom spare within dc.genesisHash dc.curBlockNumber
  rw [← knownForks,← rebuild_knownForks spare within] at built
  exact ⟨placed.1,placed.2.2,rfl,built,built⟩

theorem rebuild_arrays (settled : Settled handlerFilter dc) :
    (dc.rebuild spare).arrays = dc.arrays ∨
      ∃ array, (dc.rebuild spare).arrays = dc.arrays ++ [array] := by
  change (dc.forks.append spare dc.arrays maxUint64).1 = dc.arrays ∨
    ∃ array, (dc.forks.append spare dc.arrays maxUint64).1 = dc.arrays ++ [array]
  by_cases room : dc.forks.length < (dc.forks.backing dc.arrays).length
  · left
    rw [append_present spare (settled.placed room)]
  · right
    rw [append,if_neg room]
    exact ⟨_,rfl⟩

theorem BuiltFrom.append_array {filter : ForkFilter} {arrays : Arrays UInt64}
    {forks : List UInt64} {genesisHash : Hash} {blockNumber : UInt64}
    (built : filter.BuiltFrom arrays forks genesisHash blockNumber) (array : List UInt64) :
    filter.BuiltFrom (arrays ++ [array]) forks genesisHash blockNumber :=
  ⟨built.sums,built.within.append_array array,
    (built.within.contents_append_array array).trans built.contents,built.blockNumber⟩

theorem Settled.rebuild (settled : Settled handlerFilter dc) :
    Settled handlerFilter (dc.rebuild spare) := by
  have rebuilt := rebuild_settled spare settled.within
  refine { rebuilt with handlerFilter := ?_ }
  have kept : handlerFilter.BuiltFrom (dc.rebuild spare).arrays dc.knownForks dc.genesisHash
      dc.curBlockNumber := by
    rcases rebuild_arrays spare settled with unchanged | ⟨array,grown⟩
    · rw [unchanged]
      exact settled.handlerFilter
    · rw [grown]
      exact BuiltFrom.append_array settled.handlerFilter array
  rw [rebuild_knownForks spare settled.within]
  exact kept

theorem decodeMsg_stores {buffer : List UInt8} {length : Nat}
    (decodes : decodeMsg spare buffer length dc = some (.ok after)) :
    ∃ msg, after = dc.store spare msg := by
  unfold decodeMsg at decodes
  cases parsed : parseMsg buffer length with
  | none =>
    rw [parsed] at decodes
    cases decodes
  | some result =>
    rw [parsed] at decodes
    cases result with
    | error err => cases decodes
    | ok msg =>
      cases decodes
      exact ⟨msg,rfl⟩

theorem store_within (within : dc.forks.Within dc.arrays) (msg : ForkMsg) :
    (dc.store spare msg).forks.Within (dc.store spare msg).arrays := by
  cases msg with
  | all genesisHash blockNumber forks => exact (within.emptied.appendAll spare forks).1
  | forks forks => exact (known_setForks spare within forks).1
  | genesis genesisHash => exact within
  | blockNumber blockNumber => exact within

theorem createDisguise_settled {now : AbsTime} {bytes : List UInt8}
    (created : createDisguise spare now bytes = some dc) : Settled dc.forkFilter dc := by
  unfold createDisguise at created
  dsimp only at created
  split at created
  · rename_i decoded decodes
    rcases decodeMsg_stores spare decodes with ⟨msg,rfl⟩
    cases created
    have within := store_within spare (within_nil zeroClient.arrays) msg
    exact @rebuild_settled spare { zeroClient.store spare msg with lastGetForkIdTime := now } within
  · cases created

theorem getForkInfo_settled {call : ForkCall} (settled : Settled handlerFilter dc)
    (repeats : dc.Repeats spare call) (called : getForkInfo spare call dc = some after) :
    Settled handlerFilter after := by
  unfold getForkInfo at called
  split at called
  · rename_i exchanges
    split at called
    · cases called
      exact settled
    · cases called
      exact settled.rebuild spare
    · rename_i bytes exchanged
      dsimp only at called
      split at called
      · cases called
      · cases called
        exact settled.rebuild spare
      · rename_i decoded decodes
        cases called
        have same := repeats exchanges bytes exchanged decoded decodes
        rcases decodeMsg_stores spare decodes with ⟨msg,rfl⟩
        rw [store_of_known_eq spare settled.within same]
        exact { settled with }
  · cases called
    exact settled

/-- A client is created, the handler takes its filter at its start, and further
calls follow.  While the replies only repeat what the client knows, every call
returns the pair of the client's fields, and the handler's filter judges every
identifier as a filter built from them would. -/
theorem getForkInfos_fresh {now : AbsTime} {bytes : List UInt8} {handled : ForkClient}
    {call : ForkCall} {calls : List ForkCall} (created : createDisguise spare now bytes = some dc)
    (taken : getForkInfo spare call dc = some handled)
    (called : getForkInfos spare handled calls = some after)
    (steady : Steady spare dc (call :: calls)) : Fresh handled.forkFilter after := by
  rcases steady handled taken with ⟨repeats,later⟩
  have settled := getForkInfo_settled spare (createDisguise_settled spare created) repeats taken
  have handlers : Settled handled.forkFilter handled :=
    ⟨settled.within,settled.placed,settled.forkID,settled.forkFilter,settled.forkFilter⟩
  have kept : Settled handled.forkFilter after :=
    runAll_invariant (fun _ _ _ => getForkInfo_settled spare) handlers later called
  exact kept.fresh

/-! ## Two runs -/

def oneForkMsg : List UInt8 :=
  getAllAbove ++ [1, 0, 0, 0] ++ List.replicate 32 0 ++ [3, 0, 0, 0, 0, 0, 0, 0] ++
    [5, 0, 0, 0, 0, 0, 0, 0]

def callWith (exchange : ForkExchange) : ForkCall := ⟨3000000000,false,exchange,3000000000⟩

def failedCall : ForkCall := ⟨6000000000,false,.readFailed,6000000000⟩

def blockNumberMsg (number : UInt8) : List UInt8 := getBlockNumber ++ [number, 0, 0, 0, 0, 0, 0, 0]

/-- The client that this answer creates at time 0, with no spare capacity. -/
def oneForkClient : ForkClient :=
  rebuild (fun _ => 0) (zeroClient.store (fun _ => 0) (.all .zero 3 [5]))

theorem createDisguise_oneForkMsg :
    createDisguise (fun _ => 0) 0 oneForkMsg = some oneForkClient := by
  have parsed : parseMsg (readInto 0x100 oneForkMsg).1 (readInto 0x100 oneForkMsg).2 =
      some (.ok (.all .zero 3 [5])) := by
    decide +kernel
  exact createDisguise_of_parsed parsed

/-- The full node stays at block 3, and then a read fails. -/
theorem getForkInfos_fresh_at_three : ∃ dc handled after,
      createDisguise (fun _ => 0) 0 oneForkMsg = some dc ∧
      getForkInfo (fun _ => 0) (callWith (.received (blockNumberMsg 3))) dc = some handled ∧
      getForkInfos (fun _ => 0) handled [failedCall] = some after ∧
      Fresh handled.forkFilter after := by
  have parsed : parseMsg (readInto 0x400 (blockNumberMsg 3)).1
      (readInto 0x400 (blockNumberMsg 3)).2 = some (.ok (.blockNumber 3)) := by
    decide +kernel
  have taken := @getForkInfo_of_parsed (fun _ => 0) oneForkClient _ _
    (callWith (.received (blockNumberMsg 3))) (by decide) rfl parsed
  refine ⟨_,_,_,createDisguise_oneForkMsg,taken,rfl,
    getForkInfos_fresh _ createDisguise_oneForkMsg taken
      (rfl : getForkInfos (fun _ => 0) _ [failedCall] = _) ?_⟩
  refine fun _ _ => ⟨?_,fun _ _ => ⟨?_,trivial⟩⟩
  · rintro - bytes ⟨⟩ decoded decodes
    rw [decodeMsg_of_parsed parsed] at decodes
    cases decodes
    rfl
  · rintro - bytes ⟨⟩

/-- The full node has passed block 5 and says so: the identifier returned still
names 5 as the next fork. -/
theorem getForkInfo_stale_after_reply : ∃ dc handled,
      createDisguise (fun _ => 0) 0 oneForkMsg = some dc ∧
      getForkInfo (fun _ => 0) (callWith (.received (blockNumberMsg 7))) dc = some handled ∧
      ¬ Fresh handled.forkFilter handled := by
  have parsed : parseMsg (readInto 0x400 (blockNumberMsg 7)).1
      (readInto 0x400 (blockNumberMsg 7)).2 = some (.ok (.blockNumber 7)) := by
    decide +kernel
  have taken := @getForkInfo_of_parsed (fun _ => 0) oneForkClient _ _
    (callWith (.received (blockNumberMsg 7))) (by decide) rfl parsed
  refine ⟨_,_,createDisguise_oneForkMsg,taken,?_⟩
  intro fresh
  have nextEq := congrArg ForkID.next fresh.forkID
  exact absurd nextEq (by decide)

end PioplatRelay.ForkClient
