import PioplatRelay.MapLoops
import PioplatRelay.TxPool

/-!
# The block fetcher

`BlockFetcher.loop` turns announcements of block hashes into header and body
requests, puts headers and bodies together again, and imports these blocks and
those that are delivered whole.  It runs in full mode, as `newHandler` makes it.
Iteration orders of maps, random choices, readings of the clock and answers of the
chain are inputs of an event.
-/

namespace PioplatRelay

open List IterationOrder BinaryHeap Option

structure ChainBlock (Header Tx : Type) where
  header : Header
  transactions : List Tx
  uncles : List Header
  deriving DecidableEq

/-- What the node reads of headers, and the hashes it computes: `rlpHash` of a
list of headers, and the root of the trie of a list of transactions. -/
structure BlockFormat (Header Tx : Type) where
  hash : Header → Hash
  number : Header → Nat
  difficulty : Header → Nat
  extra : Header → List UInt8
  baseFee : Header → Option Nat
  uncleHash : Header → Hash
  txHash : Header → Hash
  rlpHash : List Header → Hash
  deriveSha : List Tx → Hash
  emptyRootHash : Hash
  /-- The root of the empty trie is the constant that the code compares with. -/
  deriveSha_nil : deriveSha [] = emptyRootHash

variable {Header Tx : Type}

namespace BlockFormat

variable (format : BlockFormat Header Tx)

def emptyUncleHash : Hash := format.rlpHash []

def calcUncleHash (uncles : List Header) : Hash :=
  if uncles.isEmpty then format.emptyUncleHash else format.rlpHash uncles

variable (block : ChainBlock Header Tx)

def blockHash : Hash := format.hash block.header

def numberU64 (header : Header) : UInt64 := UInt64.ofNat (format.number header)

def blockNumber : UInt64 := format.numberU64 block.header

/-- Both hashes of the body are those in the header. -/
def Authentic : Prop :=
  format.calcUncleHash block.uncles = format.uncleHash block.header ∧
    format.deriveSha block.transactions = format.txHash block.header

instance : Decidable (format.Authentic block) := inferInstanceAs (Decidable (_ ∧ _))

end BlockFormat

structure BriefHeader where
  number : UInt8
  uncleHash : UInt8
  txHash : UInt8
  deriving DecidableEq

/-- Blocks of a few bytes, to run the fetcher on; the transactions are hashed by
their sum. -/
def BlockFormat.brief : BlockFormat BriefHeader UInt8 where
  hash header := ⟨replicate 29 0 ++ [header.number, header.uncleHash, header.txHash], rfl⟩
  number header := header.number.toNat
  difficulty _ := 2
  extra _ := []
  baseFee _ := none
  uncleHash header := ObjectCodec.byte.hash header.uncleHash
  txHash header := ObjectCodec.byte.hash header.txHash
  rlpHash uncles := ObjectCodec.byte.hash (UInt8.ofNat uncles.length)
  deriveSha transactions :=
    ObjectCodec.byte.hash (transactions.foldl (fun total tx => total + tx) 0)
  emptyRootHash := ObjectCodec.byte.hash 0
  deriveSha_nil := rfl

/-- `blockAnnounce`.  The functions that request its header and body are those of
the origin. -/
structure BlockAnnounce (Header : Type) where
  hash : Hash
  number : UInt64
  header : Option Header
  time : AbsTime
  origin : String

structure BlockInject (Header Tx : Type) where
  origin : String
  block : ChainBlock Header Tx

inductive FetcherCall (Header Tx : Type)
  | fetchHeader (peer : String) (hash : Hash)
  | fetchBodies (peer : String) (hashes : List Hash)
  | dropPeer (peer : String)
  | pioplatBroadcastBlock (block : ChainBlock Header Tx)

/-- `BlockFetcher` at the `select` of its loop, with the import goroutines before
and after `insertChain`, and the calls so far. -/
structure BlockFetcher (Header Tx : Type) where
  announces : Finmap fun _ : String => Int
  announced : Finmap fun _ : Hash => List (BlockAnnounce Header)
  fetching : Finmap fun _ : Hash => BlockAnnounce Header
  fetched : Finmap fun _ : Hash => List (BlockAnnounce Header)
  completing : Finmap fun _ : Hash => BlockAnnounce Header
  queue : List (BlockInject Header Tx)
  queues : Finmap fun _ : String => Int
  queued : Finmap fun _ : Hash => BlockInject Header Tx
  importing : List (BlockInject Header Tx)
  imported : List Hash
  calls : List (FetcherCall Header Tx)

namespace BlockFetcher

def hashLimit : Int := 256

def blockLimit : Int := 64

def fetchTimeout : AbsTime := 5000000000

/-- What the runtime, the clock and the chain decide while an event is handled;
`known` is the answer of `getBlock`, for each entry of a response. -/
structure Choices where
  announcedOrder : IterationOrder Hash
  fetchedOrder : IterationOrder Hash
  completingOrder : Nat → IterationOrder Hash
  fetchingOrder : IterationOrder Hash
  pick : Hash → Nat
  timerNow : Hash → AbsTime
  topNow : Hash → AbsTime
  known : Nat → Hash → Bool

def Choices.plain : Choices where
  announcedOrder := @sorted Hash Hash.byValue
  fetchedOrder := @sorted Hash Hash.byValue
  completingOrder _ := @sorted Hash Hash.byValue
  fetchingOrder := @sorted Hash Hash.byValue
  pick _ := 0
  timerNow _ := 0
  topNow _ := 0
  known _ _ := false

inductive Event (Header Tx : Type)
  | notify (origin : String) (hash : Hash) (number : UInt64) (time : AbsTime)
  | inject (origin : String) (block : ChainBlock Header Tx)
  | done (hash : Hash)
  | fetchTimer
  | completeTimer
  | filterHeaders (peer : String) (headers : List Header) (time : AbsTime)
  | filterBodies (peer : String) (transactions : List (List Tx)) (uncles : List (List Header))

def newBlockFetcher : BlockFetcher Header Tx where
  announces := ∅
  announced := ∅
  fetching := ∅
  fetched := ∅
  completing := ∅
  queue := []
  queues := ∅
  queued := ∅
  importing := []
  imported := []
  calls := []

/-- Decrement a peer's counter; a counter that falls to zero is deleted. -/
def release (announces : Finmap fun _ : String => Int) (announce : BlockAnnounce Header) :
    Finmap fun _ : String => Int :=
  let count := (announces.lookup announce.origin).getD 0 - 1
  if count ≤ 0 then announces.erase announce.origin else announces.insert announce.origin count

def releaseAll (announces : Finmap fun _ : String => Int)
    (list : List (BlockAnnounce Header)) : Finmap fun _ : String => Int :=
  list.foldl release announces

def forgetHash (hash : Hash) (f : BlockFetcher Header Tx) : BlockFetcher Header Tx :=
  let announces := releaseAll f.announces ((f.announced.lookup hash).getD [])
  let announces := releaseAll announces (f.fetching.lookup hash).toList
  let announces := releaseAll announces ((f.fetched.lookup hash).getD [])
  let announces := releaseAll announces (f.completing.lookup hash).toList
  { f with
    announces
    announced := f.announced.erase hash
    fetching := f.fetching.erase hash
    fetched := f.fetched.erase hash
    completing := f.completing.erase hash }

def forgetBlock (hash : Hash) (f : BlockFetcher Header Tx) : BlockFetcher Header Tx :=
  match f.queued.lookup hash with
  | some op =>
    let count := (f.queues.lookup op.origin).getD 0 - 1
    { f with
      queues := if count = 0 then f.queues.erase op.origin else f.queues.insert op.origin count
      queued := f.queued.erase hash }
  | none => f

variable (format : BlockFormat Header Tx)

/-- The queue is a heap by the negated number, as a signed word, highest first. -/
def queueKey (op : BlockInject Header Tx) : Int := -(-(format.blockNumber op.block).toInt64).toInt

def enqueue (peer : String) (block : ChainBlock Header Tx) (f : BlockFetcher Header Tx) :
    BlockFetcher Header Tx :=
  let hash := format.blockHash block
  let count := (f.queues.lookup peer).getD 0 + 1
  if blockLimit < count then f.forgetHash hash
  else if hash ∈ f.queued then f
  else
    { f with
      queues := f.queues.insert peer count
      queued := f.queued.insert hash ⟨peer,block⟩
      queue := push (queueKey format) f.queue ⟨peer,block⟩ }

variable (f : BlockFetcher Header Tx)

/-- Start the import of a block; one that no relay has sent goes to the relays. -/
def importBlocks (op : BlockInject Header Tx) :
    BlockFetcher Header Tx :=
  { f with
    importing := f.importing ++ [op]
    calls := if ':' ∈ op.origin.toList then f.calls
      else f.calls ++ [.pioplatBroadcastBlock op.block] }

def importQueued : Nat → BlockFetcher Header Tx → BlockFetcher Header Tx
  | 0, f => f
  | rounds + 1, f =>
    match pop (queueKey format) f.queue with
    | some (op, queue) => importQueued rounds ({ f with queue }.importBlocks op)
    | none => f

variable (choices : Choices)

def expireFetch (f : BlockFetcher Header Tx) (hash : Hash) :
    BlockFetcher Header Tx :=
  match f.fetching.lookup hash with
  | some announce =>
    if fetchTimeout < choices.topNow hash - announce.time then f.forgetHash hash else f
  | none => f

/-- The top of the loop: forget the fetches that have expired, then import all
that is queued. -/
def loopTop (f : BlockFetcher Header Tx) : BlockFetcher Header Tx :=
  let f := (choices.fetchingOrder.order f.fetching.keys).foldl (expireFetch choices) f
  importQueued format f.queue.length f

def notify (origin : String) (hash : Hash) (number : UInt64) (time : AbsTime)
    (f : BlockFetcher Header Tx) : BlockFetcher Header Tx :=
  let count := (f.announces.lookup origin).getD 0 + 1
  if hashLimit < count then f
  else if number = 0 then f
  else if hash ∈ f.fetching then f
  else if hash ∈ f.completing then f
  else
    { f with
      announces := f.announces.insert origin count
      announced := f.announced.insert hash
        ((f.announced.lookup hash).getD [] ++ [⟨hash,number,none,time,origin⟩]) }

def picked (hash : Hash) (list : List (BlockAnnounce Header)) :
    Option (BlockAnnounce Header) :=
  list[choices.pick hash % list.length]?

variable (state : BlockFetcher Header Tx × List (String × Hash)) (hash : Hash)

def fetchOne :
    BlockFetcher Header Tx × List (String × Hash) :=
  let (f, request) := state
  match f.announced.lookup hash with
  | some (first :: others) =>
    if 0 < choices.timerNow hash - first.time then
      match picked choices hash (first :: others) with
      | some announce =>
        let f := f.forgetHash hash
        if choices.known 0 hash then (f, request)
        else
          ({ f with fetching := f.fetching.insert hash announce },
            request ++ [(announce.origin, hash)])
      | none => state
    else state
  | _ => state

/-- `fetchTimer`: every announced header is requested from one of its announcers. -/
def fetchHeaders (f : BlockFetcher Header Tx) : BlockFetcher Header Tx :=
  let (f, request) := (choices.announcedOrder.order f.announced.keys).foldl
    (fetchOne choices) (f, [])
  { f with calls := f.calls ++ request.map fun asked => .fetchHeader asked.1 asked.2 }

def completeOne :
    BlockFetcher Header Tx × List (String × Hash) :=
  let (f, request) := state
  match picked choices hash ((f.fetched.lookup hash).getD []) with
  | some announce =>
    let f := f.forgetHash hash
    if choices.known 0 hash then (f, request)
    else
      ({ f with completing := f.completing.insert hash announce },
        request ++ [(announce.origin, hash)])
  | none => state

/-- `completeTimer`: the bodies of all fetched headers are requested, together for
each announcer. -/
def fetchBodies (choices : Choices) (f : BlockFetcher Header Tx) : BlockFetcher Header Tx :=
  let (f, request) := (choices.fetchedOrder.order f.fetched.keys).foldl
    (completeOne choices) (f, [])
  let peers := (request.map Prod.fst).dedup
  { f with
    calls := f.calls ++ peers.map fun peer =>
      .fetchBodies peer ((request.filter fun asked => asked.1 = peer).map Prod.snd) }

/-- The variables of the header filter: announcements that need a body, and
blocks without one. -/
structure HeaderFilter (Header Tx : Type) where
  fetcher : BlockFetcher Header Tx
  incomplete : List (BlockAnnounce Header)
  complete : List (ChainBlock Header Tx)

def Requested (peer : String) (hash : Hash) (announce : BlockAnnounce Header)
    (f : BlockFetcher Header Tx) : Prop :=
  announce.origin = peer ∧ hash ∉ f.fetched ∧ hash ∉ f.completing ∧ hash ∉ f.queued

instance (peer : String) (hash : Hash) (announce : BlockAnnounce Header)
    (f : BlockFetcher Header Tx) : Decidable (Requested peer hash announce f) :=
  inferInstanceAs (Decidable (_ ∧ _ ∧ _ ∧ _))

def filterHeader (known : Hash → Bool) (peer : String) (time : AbsTime)
    (state : HeaderFilter Header Tx) (header : Header) : HeaderFilter Header Tx :=
  let f := state.fetcher
  let hash := format.hash header
  match f.fetching.lookup hash with
  | some announce =>
    if Requested peer hash announce f then
      if format.numberU64 header ≠ announce.number then
        { state with
          fetcher := { f.forgetHash hash with calls := f.calls ++ [.dropPeer announce.origin] } }
      else if known hash then { state with fetcher := f.forgetHash hash }
      else
        let announce := { announce with header := some header, time }
        -- The announcement is one object, here and in the list of incomplete ones.
        let f := { f with fetching := f.fetching.insert hash announce }
        let incomplete := state.incomplete.map fun other =>
          if other.hash = hash then announce else other
        if format.txHash header = format.emptyRootHash ∧
            format.uncleHash header = format.emptyUncleHash then
          ⟨{ f with completing := f.completing.insert hash announce }, incomplete,
            state.complete ++ [⟨header, [], []⟩]⟩
        else ⟨f, incomplete ++ [announce], state.complete⟩
    else state
  | none => state

def keepIncomplete (announce : BlockAnnounce Header) :
    BlockFetcher Header Tx :=
  match announce.header with
  | some header =>
    let hash := format.hash header
    if hash ∈ f.completing then f
    else
      { f with
        fetched := f.fetched.insert hash ((f.fetched.lookup hash).getD [] ++ [announce]) }
  | none => f

def enqueueCompleted (block : ChainBlock Header Tx) :
    BlockFetcher Header Tx :=
  match f.completing.lookup (format.blockHash block) with
  | some announce => f.enqueue format announce.origin block
  | none => f

def filterHeaders (peer : String) (headers : List Header) (time : AbsTime)
    (f : BlockFetcher Header Tx) : BlockFetcher Header Tx :=
  let filtered := headers.zipIdx.foldl
    (fun state (header, i) => filterHeader format (choices.known i) peer time state header)
    ⟨f, [], []⟩
  let f := filtered.incomplete.foldl (keepIncomplete format) filtered.fetcher
  filtered.complete.foldl (enqueueCompleted format) f

/-- Compare a body with one completion request.  The value `none` is the use of a
nil header. -/
def matchBody (known : Hash → Bool) (peer : String) (transactions : List Tx)
    (uncles : List Header) (state : BlockFetcher Header Tx × List (ChainBlock Header Tx))
    (hash : Hash) : Option (BlockFetcher Header Tx × List (ChainBlock Header Tx)) :=
  let (f, blocks) := state
  match f.completing.lookup hash with
  | some announce =>
    if hash ∈ f.queued ∨ announce.origin ≠ peer then some state
    else
      announce.header.map fun header =>
        if format.calcUncleHash uncles ≠ format.uncleHash header then state
        else if format.deriveSha transactions ≠ format.txHash header then state
        else if known hash then (f.forgetHash hash, blocks)
        else (f, blocks ++ [⟨header,transactions,uncles⟩])
  | none => some state

def matchBodies (choices : Choices) (peer : String) :
    Nat → List (List Tx × List Header) →
      BlockFetcher Header Tx × List (ChainBlock Header Tx) →
      Option (BlockFetcher Header Tx × List (ChainBlock Header Tx))
  | _, [], state => some state
  | i, (transactions, uncles) :: bodies, state => do
      let state ← ((choices.completingOrder i).order state.1.completing.keys).foldlM
        (matchBody format (choices.known i) peer transactions uncles) state
      matchBodies choices peer (i + 1) bodies state

def filterBodies (peer : String) (transactions : List (List Tx))
    (uncles : List (List Header)) (f : BlockFetcher Header Tx) :
    Option (BlockFetcher Header Tx) := do
  let (f, blocks) ← matchBodies format choices peer 0 (transactions.zip uncles) (f, [])
  return blocks.foldl (enqueueCompleted format) f

def handle (event : Event Header Tx) (f : BlockFetcher Header Tx) :
    Option (BlockFetcher Header Tx) :=
  match event with
  | .notify origin hash number time => some (f.notify origin hash number time)
  | .inject origin block => some (f.enqueue format origin block)
  | .done hash => some ((f.forgetHash hash).forgetBlock hash)
  | .fetchTimer => some (f.fetchHeaders choices)
  | .completeTimer => some (f.fetchBodies choices)
  | .filterHeaders peer headers time => some (f.filterHeaders format choices peer headers time)
  | .filterBodies peer transactions uncles => f.filterBodies format choices peer transactions uncles

def loop (event : Event Header Tx) (f : BlockFetcher Header Tx) :
    Option (BlockFetcher Header Tx) :=
  (f.handle format choices event).map (loopTop format choices)

/-! ## What is imported -/

structure Only (Good : ChainBlock Header Tx → Prop) (f : BlockFetcher Header Tx) : Prop where
  queue : ∀ op ∈ f.queue, Good op.block
  importing : ∀ op ∈ f.importing, Good op.block

variable {format : BlockFormat Header Tx} {Good : ChainBlock Header Tx → Prop}
  {f next : BlockFetcher Header Tx} {choices : Choices}

theorem newBlockFetcher_only : (newBlockFetcher : BlockFetcher Header Tx).Only Good where
  queue _ member := absurd member not_mem_nil
  importing _ member := absurd member not_mem_nil

theorem Only.forgetHash (only : f.Only Good) (hash : Hash) : (f.forgetHash hash).Only Good :=
  ⟨only.queue,only.importing⟩

theorem Only.forgetBlock (only : f.Only Good) (hash : Hash) : (f.forgetBlock hash).Only Good := by
  unfold BlockFetcher.forgetBlock
  split
  · exact ⟨only.queue,only.importing⟩
  · exact only

theorem Only.notify (only : f.Only Good) (origin : String) (hash : Hash) (number : UInt64)
    (time : AbsTime) : (f.notify origin hash number time).Only Good := by
  unfold BlockFetcher.notify
  dsimp only
  split
  · exact only
  · split
    · exact only
    · split
      · exact only
      · split
        · exact only
        · exact ⟨only.queue,only.importing⟩

variable {block : ChainBlock Header Tx}
  {state after : BlockFetcher Header Tx × List (ChainBlock Header Tx)} {peer : String}

section

variable (only : f.Only Good)

include only

theorem Only.enqueue (good : Good block)
    (peer : String) : (f.enqueue format peer block).Only Good := by
  unfold BlockFetcher.enqueue
  dsimp only
  split
  · exact only.forgetHash _
  · split
    · exact only
    · refine ⟨?_,only.importing⟩
      intro op member
      rcases mem_cons.mp ((push_perm f.queue _).mem_iff.mp member) with rfl | queued
      · exact good
      · exact only.queue op queued

theorem Only.enqueueCompleted
    (good : Good block) : (enqueueCompleted format f block).Only Good := by
  unfold BlockFetcher.enqueueCompleted
  split
  · exact only.enqueue good _
  · exact only

theorem Only.enqueueAll {blocks : List (ChainBlock Header Tx)}
    (good : ∀ block ∈ blocks, Good block) :
    (blocks.foldl (BlockFetcher.enqueueCompleted format) f).Only Good := by
  induction blocks generalizing f with
  | nil => exact only
  | cons block blocks ih =>
    rw [forall_mem_cons] at good
    exact ih (only.enqueueCompleted good.1) good.2

theorem Only.importQueued (rounds : Nat) : (importQueued format rounds f).Only Good := by
  induction rounds generalizing f with
  | zero => exact only
  | succ rounds ih =>
    unfold BlockFetcher.importQueued
    split
    · rename_i op queue popped
      have sameItems := pop_perm popped
      apply ih
      constructor
      · intro other member
        exact only.queue other (sameItems.subset (mem_cons_of_mem op member))
      · exact forall_mem_append.mpr ⟨only.importing,forall_mem_singleton.mpr
          (only.queue op (sameItems.subset mem_cons_self))⟩
    · exact only

theorem Only.expireFetches (hashes : List Hash) :
    (hashes.foldl (expireFetch choices) f).Only Good := by
  induction hashes generalizing f with
  | nil => exact only
  | cons hash hashes ih =>
    apply ih
    unfold expireFetch
    split
    · split
      · exact only.forgetHash hash
      · exact only
    · exact only

theorem Only.loopTop : (f.loopTop format choices).Only Good := (only.expireFetches _).importQueued _

end

/-! ### The timers -/

/-- What the fetch timer does with one hash. -/
inductive FetchStep (choices : Choices) (f : BlockFetcher Header Tx) (hash : Hash) :
    BlockFetcher Header Tx → Prop
  | skip : FetchStep choices f hash f
  | known {first others} (found : f.announced.lookup hash = some (first :: others))
      (due : 0 < choices.timerNow hash - first.time) :
      choices.known 0 hash → FetchStep choices f hash (f.forgetHash hash)
  | fetch {first others announce} (found : f.announced.lookup hash = some (first :: others))
      (due : 0 < choices.timerNow hash - first.time) (unknown : ¬ choices.known 0 hash)
      (chosen : announce ∈ first :: others) :
      FetchStep choices f hash { f.forgetHash hash with
        fetching := (f.forgetHash hash).fetching.insert hash announce }

theorem fetchOne_step (state : BlockFetcher Header Tx × List (String × Hash)) (hash : Hash) :
    FetchStep choices state.1 hash (fetchOne choices state hash).1 := by
  unfold fetchOne
  dsimp only
  split
  · split
    · split
      · split
        · exact .known ‹_› ‹_› ‹_›
        · exact .fetch ‹_› ‹_› ‹_› (mem_of_getElem? ‹_›)
      · exact .skip
    · exact .skip
  · exact .skip

theorem fetchHeaders_kept {Kept : BlockFetcher Header Tx → Prop} (initially : Kept f)
    (once : ∀ {g hash next}, Kept g → FetchStep choices g hash next → Kept next)
    (asks : ∀ {g} calls, Kept g → Kept { g with calls }) : Kept (f.fetchHeaders choices) :=
  asks _ (foldlRecOn (motive := fun state => Kept state.1) _ _ initially
    fun state kept hash _ => once kept (fetchOne_step state hash))

/-- What the complete timer does with one hash. -/
inductive CompleteStep (choices : Choices) (f : BlockFetcher Header Tx) (hash : Hash) :
    BlockFetcher Header Tx → Prop
  | skip : CompleteStep choices f hash f
  | known : CompleteStep choices f hash (f.forgetHash hash)
  | complete {announce} (chosen : announce ∈ (f.fetched.lookup hash).getD []) :
      CompleteStep choices f hash { f.forgetHash hash with
        completing := (f.forgetHash hash).completing.insert hash announce }

theorem fetchBodies_kept {Kept : BlockFetcher Header Tx → Prop} (initially : Kept f)
    (once : ∀ {g hash next}, Kept g → CompleteStep choices g hash next → Kept next)
    (asks : ∀ {g} calls, Kept g → Kept { g with calls }) : Kept (f.fetchBodies choices) := by
  have stepped (state : BlockFetcher Header Tx × List (String × Hash)) (hash : Hash) :
      CompleteStep choices state.1 hash (completeOne choices state hash).1 := by
    unfold completeOne
    dsimp only
    split
    · split
      · exact .known
      · exact .complete (mem_of_getElem? ‹_›)
    · exact .skip
  exact asks _ (foldlRecOn (motive := fun state => Kept state.1) _ _ initially
    fun state kept hash _ => once kept (stepped state hash))

theorem Only.fetchHeaders (only : f.Only Good) : (f.fetchHeaders choices).Only Good := by
  refine fetchHeaders_kept only ?_ fun _ only => ⟨only.queue,only.importing⟩
  intro g hash next only step
  cases step with
  | skip => exact only
  | known | fetch => exact ⟨only.queue,only.importing⟩

theorem Only.fetchBodies (only : f.Only Good) : (f.fetchBodies choices).Only Good := by
  refine fetchBodies_kept only ?_ fun _ only => ⟨only.queue,only.importing⟩
  intro g hash next only step
  cases step with
  | skip => exact only
  | known | complete => exact ⟨only.queue,only.importing⟩

/-! ### The filters -/

theorem authentic_of_empty {header : Header} (noTxs : format.txHash header = format.emptyRootHash)
    (noUncles : format.uncleHash header = format.emptyUncleHash) :
    format.Authentic ⟨header, [], []⟩ := by
  constructor
  · rw [noUncles]
    rfl
  · rw [noTxs]
    exact format.deriveSha_nil

structure HeaderFilter.Fine (format : BlockFormat Header Tx) (Good : ChainBlock Header Tx → Prop)
    (state : HeaderFilter Header Tx) : Prop where
  only : state.fetcher.Only Good
  complete : ∀ block ∈ state.complete, format.Authentic block

theorem HeaderFilter.Fine.filterHeader {state : HeaderFilter Header Tx}
    (fine : state.Fine format Good) (known : Hash → Bool) (peer : String) (time : AbsTime)
    (header : Header) : (filterHeader format known peer time state header).Fine format Good := by
  have only := fine.only
  unfold BlockFetcher.filterHeader
  dsimp only
  split
  · split
    · split
      · exact ⟨⟨only.queue,only.importing⟩,fine.complete⟩
      · split
        · exact ⟨only.forgetHash _,fine.complete⟩
        · split
          · rename_i empty
            refine ⟨⟨only.queue,only.importing⟩,forall_mem_append.mpr ⟨fine.complete,?_⟩⟩
            exact forall_mem_singleton.mpr (authentic_of_empty empty.1 empty.2)
          · exact ⟨⟨only.queue,only.importing⟩,fine.complete⟩
    · exact fine
  · exact fine

theorem Only.keepIncomplete (only : f.Only Good) (announces : List (BlockAnnounce Header)) :
    (announces.foldl (keepIncomplete format) f).Only Good := by
  induction announces generalizing f with
  | nil => exact only
  | cons announce announces ih =>
    apply ih
    unfold BlockFetcher.keepIncomplete
    split
    · dsimp only
      split
      · exact only
      · exact ⟨only.queue,only.importing⟩
    · exact only

theorem Only.filterHeaders (only : f.Only Good)
    (authentic : ∀ block, format.Authentic block → Good block) (peer : String)
    (headers : List Header) (time : AbsTime) :
    (f.filterHeaders format choices peer headers time).Only Good := by
  have fine : (headers.zipIdx.foldl (fun state (header, i) =>
      BlockFetcher.filterHeader format (choices.known i) peer time state header)
      (⟨f,[],[]⟩ : HeaderFilter Header Tx)).Fine format Good := by
    refine foldlRecOn headers.zipIdx _ ⟨only,fun block member => by cases member⟩ ?_
    intro state fine entry _
    exact fine.filterHeader _ _ _ _
  apply (fine.only.keepIncomplete _).enqueueAll
  intro block member
  exact authentic block (fine.complete block member)

def Matched (format : BlockFormat Header Tx) (Good : ChainBlock Header Tx → Prop)
    (state : BlockFetcher Header Tx × List (ChainBlock Header Tx)) : Prop :=
  state.1.Only Good ∧ ∀ block ∈ state.2, format.Authentic block

theorem Matched.matchBody {known : Hash → Bool} {transactions : List Tx}
    {uncles : List Header} {hash : Hash} (matched : Matched format Good state)
    (result : matchBody format known peer transactions uncles state hash = some after) :
    Matched format Good after := by
  unfold BlockFetcher.matchBody at result
  dsimp only at result
  split at result
  · split at result
    · cases result
      exact matched
    · rcases map_eq_some_iff.mp result with ⟨header,-,afterEq⟩
      subst afterEq
      split
      · exact matched
      · rename_i uncleHash
        split
        · exact matched
        · rename_i txHash
          split
          · exact ⟨matched.1.forgetHash hash,matched.2⟩
          · have authentic : format.Authentic ⟨header,transactions,uncles⟩ :=
              ⟨not_not.mp uncleHash,not_not.mp txHash⟩
            exact ⟨matched.1,forall_mem_append.mpr
              ⟨matched.2,forall_mem_singleton.mpr authentic⟩⟩
  · cases result
    exact matched

theorem Matched.matchBodies {i : Nat} {bodies : List (List Tx × List Header)}
    (matched : Matched format Good state)
    (result : matchBodies format choices peer i bodies state = some after) :
    Matched format Good after := by
  induction bodies generalizing i state with
  | nil =>
    cases result
    exact matched
  | cons body bodies ih =>
    rcases bind_eq_some_iff.mp result with ⟨middle,first,rest⟩
    apply ih _ rest
    exact Loop.foldlM_kept (Matched format Good) (fun _ _ _ before once => before.matchBody once)
      matched first

theorem Only.filterBodies {transactions : List (List Tx)}
    {uncles : List (List Header)} (only : f.Only Good)
    (authentic : ∀ block, format.Authentic block → Good block)
    (result : f.filterBodies format choices peer transactions uncles = some next) :
    next.Only Good := by
  rcases bind_eq_some_iff.mp result with ⟨⟨after,blocks⟩,matchedEq,nextEq⟩
  cases nextEq
  have matched : Matched format Good (after, blocks) :=
    Matched.matchBodies ⟨only,fun block member => by cases member⟩ matchedEq
  exact matched.1.enqueueAll fun block member => authentic block (matched.2 block member)

/-- Whatever a round of the loop imports was injected, or put together from a
header and a body with its hashes. -/
theorem Only.loop {event : Event Header Tx} (only : f.Only Good)
    (authentic : ∀ block, format.Authentic block → Good block)
    (injected : ∀ origin block, event = .inject origin block → Good block)
    (result : f.loop format choices event = some next) : next.Only Good := by
  rcases map_eq_some_iff.mp result with ⟨handled,handledEq,nextEq⟩
  subst nextEq
  apply Only.loopTop
  cases event with
  | notify origin hash number time =>
    cases handledEq
    exact only.notify origin hash number time
  | inject origin block =>
    cases handledEq
    exact only.enqueue (injected origin block rfl) origin
  | done hash =>
    cases handledEq
    exact (only.forgetHash hash).forgetBlock hash
  | fetchTimer =>
    cases handledEq
    exact only.fetchHeaders
  | completeTimer =>
    cases handledEq
    exact only.fetchBodies
  | filterHeaders peer headers time =>
    cases handledEq
    exact only.filterHeaders authentic peer headers time
  | filterBodies peer transactions uncles => exact only.filterBodies authentic handledEq

end BlockFetcher

end PioplatRelay
