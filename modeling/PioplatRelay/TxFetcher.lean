import PioplatRelay.MapLoops
import PioplatRelay.TxPool

/-!
# The transaction fetcher

`TxFetcher.loop` retrieves announced transactions in three stages.  A newly
announced hash waits for a broadcast, is then queued for retrieval, and is
finally fetched from one of the peers that announced it.  The maps of maps are
`SetIndex`es.  Iteration orders of maps and readings of the clock are inputs of
every event.
-/

namespace PioplatRelay

open SetIndex

/-- Where the loop panics.  The last one is no panic of the source: it is where
a nil map would be stored among the origins of a hash. -/
inductive FetcherPanic
  /-- announce tracker already contains waitlist item -/
  | announcedWaiting
  /-- announced tracker already contains alternate item, after a timeout -/
  | announcedTimedOut
  /-- nil pointer: no request of the origin of a stolen delivery -/
  | noRequest
  /-- announced tracker already contains alternate item, after a delivery -/
  | announcedUndelivered
  /-- alternate tracker already contains fetching item -/
  | alternatesFetching
  | noOrigins
  deriving DecidableEq, Repr

/-- `txRequest`.  A timed out request has no hashes. -/
structure TxRequest (TxHash : Type) where
  hashes : List TxHash
  stolen : Finset TxHash
  time : AbsTime
  deriving DecidableEq

/-- `TxFetcher` with the timers of its loop, each given by the time it is due. -/
structure TxFetcher (Peer TxHash : Type) where
  waitlist : SetIndex TxHash Peer
  waittime : Finmap fun _ : TxHash => AbsTime
  waitslots : SetIndex Peer TxHash
  announces : SetIndex Peer TxHash
  announced : SetIndex TxHash Peer
  fetching : Finmap fun _ : TxHash => Peer
  requests : Finmap fun _ : Peer => TxRequest TxHash
  alternates : SetIndex TxHash Peer
  waitTimer : Option AbsTime
  timeoutTimer : Option AbsTime

namespace TxFetcher

def maxTxAnnounces : Nat := 4096

def maxTxRetrievals : Nat := 256

def txArriveTimeout : AbsTime := 500000000

def txGatherSlack : AbsTime := 100000000

def txFetchTimeout : AbsTime := 5000000000

def gatherSlack : AbsTime := 100000000

/-- What the runtime and the clock decide while an event is handled: the orders
in which maps are iterated, and the readings of the clock. -/
structure Choices (Peer TxHash : Type) where
  slotPeers : IterationOrder Peer
  slotHashes : IterationOrder TxHash
  activePeers : IterationOrder Peer
  announcedHashes : Peer → IterationOrder TxHash
  timerHashes : IterationOrder TxHash
  timerPeers : IterationOrder Peer
  hashNow : TxHash → AbsTime
  peerNow : Peer → AbsTime
  requestNow : Peer → AbsTime
  waitNow : AbsTime
  timeoutNow : AbsTime

inductive Event (Peer TxHash : Type)
  | notify (origin : Peer) (hashes : List TxHash)
  | waitTrigger
  | timeoutTrigger
  | cleanup (origin : Peer) (hashes : List TxHash) (direct : Bool)
  | drop (peer : Peer)

variable {Peer TxHash : Type} [DecidableEq Peer] [DecidableEq TxHash]

def newTxFetcher : TxFetcher Peer TxHash where
  waitlist := ∅
  waittime := ∅
  waitslots := ∅
  announces := ∅
  announced := ∅
  fetching := ∅
  requests := ∅
  alternates := ∅
  waitTimer := none
  timeoutTimer := none

/-! ## Timers -/

/-- The search for the earliest of some times, which stops early at a time that
is due. -/
def earliestOf (timeout now : AbsTime) : List AbsTime → AbsTime → AbsTime
  | [], earliest => earliest
  | time :: times, earliest =>
    if time < earliest then
      if timeout - (now - time) < gatherSlack then time else earliestOf timeout now times time
    else earliestOf timeout now times earliest

variable (choices : Choices Peer TxHash)

variable (f : TxFetcher Peer TxHash)

def rescheduleWait :
    TxFetcher Peer TxHash :=
  let now := choices.waitNow
  let times := (choices.timerHashes.order f.waittime.keys).filterMap fun hash =>
    f.waittime.lookup hash
  let earliest := earliestOf txArriveTimeout now times now
  { f with waitTimer := some (now + (txArriveTimeout - (now - earliest))) }

def rescheduleTimeout :
    TxFetcher Peer TxHash :=
  let now := choices.timeoutNow
  let times := (choices.timerPeers.order f.requests.keys).filterMap fun peer =>
    (f.requests.lookup peer).bind fun req => if req.hashes = [] then none else some req.time
  let earliest := earliestOf txFetchTimeout now times now
  { f with timeoutTimer := some (now + (txFetchTimeout - (now - earliest))) }

/-! ## Scheduling fetches -/

variable (peer : Peer)

def allot (f : TxFetcher Peer TxHash) (hash : TxHash) :
    Except FetcherPanic (TxFetcher Peer TxHash) :=
  if hash ∈ f.alternates then .error .alternatesFetching
  else
    match f.announced.lookup hash with
    | none => .error .noOrigins
    | some origins =>
      .ok { f with
        fetching := f.fetching.insert hash peer
        alternates := f.alternates.insert hash origins
        announced := f.announced.erase hash }

/-- The loop over the announced hashes of a peer, with the hashes allotted so
far. -/
def allotHashes (peer : Peer) : List TxHash → TxFetcher Peer TxHash → List TxHash →
    Except FetcherPanic (TxFetcher Peer TxHash × List TxHash)
  | [], f, hashes => .ok (f, hashes)
  | hash :: rest, f, hashes =>
    if hash ∈ f.fetching then allotHashes peer rest f hashes
    else do
      let f ← f.allot peer hash
      if maxTxRetrievals ≤ hashes.length + 1 then .ok (f, hashes ++ [hash])
      else allotHashes peer rest f (hashes ++ [hash])

/-- Schedule some fetches from an active peer, if it is idle. -/
def scheduleFetch :
    Except FetcherPanic (TxFetcher Peer TxHash) :=
  if peer ∈ f.requests then .ok f
  else if f.announces.slots peer = ∅ then .ok f
  else do
    let (f, hashes) ← allotHashes peer
      ((choices.announcedHashes peer).order (f.announces.slots peer)) f []
    if hashes = [] then .ok f
    else .ok { f with requests := f.requests.insert peer ⟨hashes,∅,choices.requestNow peer⟩ }

/-- `scheduleFetches`; without a whitelist all peers are active. -/
def scheduleFetches (whitelist : Option (Finset Peer))
    (f : TxFetcher Peer TxHash) : Except FetcherPanic (TxFetcher Peer TxHash) :=
  let actives := whitelist.getD f.announces.keys
  if actives = ∅ then .ok f
  else do
    let idle := f.requests.keys = ∅
    let f ← (choices.activePeers.order actives).foldlM (scheduleFetch choices) f
    if idle ∧ f.requests.keys ≠ ∅ then .ok (f.rescheduleTimeout choices)
    else .ok f

/-! ## Announcements

From here on, `handle…` is one case of the loop; what it does for a single hash
or peer stands before it. -/

variable (origin : Peer)

/-- Take an announced hash to the stage that it is in, or to the waitlist. -/
def announce (f : TxFetcher Peer TxHash)
    (hash : TxHash) : TxFetcher Peer TxHash :=
  if hash ∈ f.alternates then
    { f with
      alternates := f.alternates.add hash origin
      announces := f.announces.add origin hash }
  else if hash ∈ f.announced then
    { f with
      announced := f.announced.add hash origin
      announces := f.announces.add origin hash }
  else if hash ∈ f.waitlist then
    { f with
      waitlist := f.waitlist.add hash origin
      waitslots := f.waitslots.add origin hash }
  else
    { f with
      waitlist := f.waitlist.insert hash {origin}
      waittime := f.waittime.insert hash (choices.hashNow hash)
      waitslots := f.waitslots.add origin hash }

/-- The hashes of a notification that the source keeps when a peer already has
some announcements. -/
def wanted (used : Nat) (hashes : List TxHash) : List TxHash :=
  let want := used + hashes.length
  -- As many hashes are kept as are above the limit.
  if maxTxAnnounces < want then hashes.take (want - maxTxAnnounces) else hashes

def handleNotify (hashes : List TxHash)
    (f : TxFetcher Peer TxHash) : Except FetcherPanic (TxFetcher Peer TxHash) :=
  let used := (f.waitslots.slots origin).card + (f.announces.slots origin).card
  if maxTxAnnounces ≤ used then .ok f
  else
    let idleWait := f.waittime.keys = ∅
    let oldPeer := origin ∈ f.announces
    let f := (wanted used hashes).foldl (announce choices origin) f
    let f := if idleWait ∧ f.waittime.keys ≠ ∅ then f.rescheduleWait choices else f
    if ¬ oldPeer ∧ f.announces.slots origin ≠ ∅ then f.scheduleFetches choices (some {origin})
    else .ok f

/-! ## Expired waits -/

def expireWait (state : TxFetcher Peer TxHash × Finset Peer)
    (hash : TxHash) : Except FetcherPanic (TxFetcher Peer TxHash × Finset Peer) :=
  let f := state.1
  match f.waittime.lookup hash with
  | none => .ok state
  | some time =>
    if txArriveTimeout < choices.hashNow hash - time + txGatherSlack then
      if hash ∈ f.announced then .error .announcedWaiting
      else
        match f.waitlist.lookup hash with
        | none => .error .noOrigins
        | some origins =>
          .ok ({ f with
            announced := f.announced.insert hash origins
            announces := f.announces.addAll (choices.slotPeers.order origins) hash
            waitslots := f.waitslots.sweep (choices.slotPeers.order origins) hash
            waittime := f.waittime.erase hash
            waitlist := f.waitlist.erase hash }, state.2 ∪ origins)
    else .ok state

def handleWaitTrigger :
    Except FetcherPanic (TxFetcher Peer TxHash) := do
  let (f, actives) ← (choices.slotHashes.order f.waittime.keys).foldlM (expireWait choices) (f, ∅)
  let f := if f.waittime.keys ≠ ∅ then f.rescheduleWait choices else f
  if actives ≠ ∅ then f.scheduleFetches choices (some actives)
  else .ok f

/-! ## Expired requests -/

/-- Move a hash back from fetching to queued, without the peer that timed out. -/
def requeue (stolen : Finset TxHash) (f : TxFetcher Peer TxHash) (hash : TxHash) :
    Except FetcherPanic (TxFetcher Peer TxHash) :=
  if hash ∈ stolen then .ok f
  else if hash ∈ f.announced then .error .announcedTimedOut
  else
    let announced := match f.alternates.lookup hash with
      | none => f.announced
      | some origins => f.announced.insert hash origins
    .ok { f with
      announced := prune (discard announced hash peer) hash
      announces := f.announces.discard peer hash
      alternates := f.alternates.erase hash
      fetching := f.fetching.erase hash }

/-- Expire the request of a peer, which stays as a dangling one. -/
def expireRequest :
    Except FetcherPanic (TxFetcher Peer TxHash) :=
  match f.requests.lookup peer with
  | none => .ok f
  | some req =>
    if txFetchTimeout < choices.peerNow peer - req.time + txGatherSlack then do
      let f ← req.hashes.foldlM (requeue peer req.stolen) f
      .ok { f with
        announces := f.announces.prune peer
        requests := f.requests.insert peer { req with hashes := [] } }
    else .ok f

def handleTimeoutTrigger :
    Except FetcherPanic (TxFetcher Peer TxHash) := do
  let f ← (choices.slotPeers.order f.requests.keys).foldlM (expireRequest choices) f
  let f ← f.scheduleFetches choices none
  .ok (f.rescheduleTimeout choices)

/-! ## Deliveries -/

def clean (hash : TxHash) :
    TxFetcher Peer TxHash :=
  { f with
    announces := f.announces.sweep (choices.slotPeers.order f.announces.keys) hash
    announced := f.announced.erase hash
    alternates := f.alternates.erase hash
    fetching := f.fetching.erase hash }

/-- Remove all traces of a delivered hash, and mark a delivery that was stolen
from another origin. -/
def untrack (direct : Bool)
    (f : TxFetcher Peer TxHash) (hash : TxHash) :
    Except FetcherPanic (TxFetcher Peer TxHash) :=
  if hash ∈ f.waitlist then
    .ok { f with
      waitslots := f.waitslots.sweep (choices.slotPeers.order f.waitslots.keys) hash
      waitlist := f.waitlist.erase hash
      waittime := f.waittime.erase hash }
  else
    match f.fetching.lookup hash with
    | none => .ok (f.clean choices hash)
    | some owner =>
      if owner ≠ origin ∨ direct = false then
        match f.requests.lookup owner with
        | none => .error .noRequest
        | some req =>
          .ok { f.clean choices hash with
            requests := f.requests.insert owner { req with stolen := insert hash req.stolen } }
      else .ok (f.clean choices hash)

def cutoff (delivered hashes : List TxHash) : Nat :=
  hashes.zipIdx.foldl (fun cutoff entry => if entry.1 ∈ delivered then entry.2 else cutoff)
    hashes.length

/-- Take an origin off a hash that it was asked for and passed over. -/
def passOver (f : TxFetcher Peer TxHash) (hash : TxHash) :
    TxFetcher Peer TxHash :=
  { f with
    alternates := f.alternates.discard hash origin
    announces := prune (f.announces.discard origin hash) origin }

def reschedule (hash : TxHash) :
    Except FetcherPanic (TxFetcher Peer TxHash) :=
  if f.alternates.slots hash = ∅ then .ok f
  else if hash ∈ f.announced then .error .announcedUndelivered
  else .ok { f with announced := f.announced.insert hash (f.alternates.slots hash) }

/-- Reschedule a requested hash that was not delivered: from the alternates, and
from the origin too if it was not passed over. -/
def settle (delivered : List TxHash) (stolen : Finset TxHash) (cutoff : Nat)
    (f : TxFetcher Peer TxHash) (entry : TxHash × Nat) :
    Except FetcherPanic (TxFetcher Peer TxHash) :=
  let hash := entry.1
  if hash ∈ stolen then .ok f
  else do
    let f ←
      if hash ∈ delivered then .ok f
      else
        let f := if entry.2 < cutoff then f.passOver origin hash else f
        f.reschedule hash
    .ok { f with
      alternates := f.alternates.erase hash
      fetching := f.fetching.erase hash }

def handleCleanup (hashes : List TxHash)
    (direct : Bool) (f : TxFetcher Peer TxHash) :
    Except FetcherPanic (TxFetcher Peer TxHash) := do
  let f ← hashes.foldlM (untrack choices origin direct) f
  if direct then
    match f.requests.lookup origin with
    | none => .ok f
    | some req =>
      let f := { f with requests := f.requests.erase origin }
      let f ← req.hashes.zipIdx.foldlM
        (settle origin hashes req.stolen (cutoff hashes req.hashes)) f
      f.scheduleFetches choices none
  else .ok f

/-! ## Dropped peers -/

def dropWait (f : TxFetcher Peer TxHash) (hash : TxHash) :
    Except FetcherPanic (TxFetcher Peer TxHash) :=
  let waitlist := f.waitlist.discard hash peer
  if waitlist.slots hash = ∅ then
    .ok { f with waitlist := waitlist.erase hash, waittime := f.waittime.erase hash }
  else .ok { f with waitlist := waitlist }

/-- Reschedule a hash requested from a dropped peer, if there is an alternative
origin. -/
def dropFetch (stolen : Finset TxHash) (f : TxFetcher Peer TxHash)
    (hash : TxHash) : Except FetcherPanic (TxFetcher Peer TxHash) :=
  if hash ∈ stolen then .ok f
  else
    let alternates := f.alternates.discard hash peer
    let announced := if alternates.slots hash = ∅ then f.announced
      else f.announced.insert hash (alternates.slots hash)
    .ok { f with
      announced := announced
      alternates := alternates.erase hash
      fetching := f.fetching.erase hash }

def dropAnnounce (f : TxFetcher Peer TxHash) (hash : TxHash) :
    Except FetcherPanic (TxFetcher Peer TxHash) :=
  .ok { f with announced := prune (f.announced.discard hash peer) hash }

def dropWaits (f : TxFetcher Peer TxHash) :
    Except FetcherPanic (TxFetcher Peer TxHash) :=
  if peer ∈ f.waitslots then do
    let f ← (choices.slotHashes.order (f.waitslots.slots peer)).foldlM (dropWait peer) f
    let f := { f with waitslots := f.waitslots.erase peer }
    .ok (if f.waitlist.keys ≠ ∅ then f.rescheduleWait choices else f)
  else .ok f

def dropRequest (request : TxRequest TxHash) (f : TxFetcher Peer TxHash) :
    Except FetcherPanic (TxFetcher Peer TxHash) := do
  let f ← request.hashes.foldlM (dropFetch peer request.stolen) f
  .ok { f with requests := f.requests.erase peer }

def dropAnnounces (f : TxFetcher Peer TxHash) :
    Except FetcherPanic (TxFetcher Peer TxHash) :=
  if peer ∈ f.announces then do
    let f ← (choices.slotHashes.order (f.announces.slots peer)).foldlM (dropAnnounce peer) f
    .ok { f with announces := f.announces.erase peer }
  else .ok f

def handleDrop (f : TxFetcher Peer TxHash) :
    Except FetcherPanic (TxFetcher Peer TxHash) := do
  let f ← f.dropWaits choices peer
  -- Neither part looks at alternates of hashes that other peers are asked for.
  match f.requests.lookup peer with
  | none => f.dropAnnounces choices peer
  | some request =>
    let f ← f.dropRequest peer request
    let f ← f.dropAnnounces choices peer
    let f ← f.scheduleFetches choices none
    .ok (f.rescheduleTimeout choices)

/-! ## Runs -/

def handle (event : Event Peer TxHash × Choices Peer TxHash) :
    Except FetcherPanic (TxFetcher Peer TxHash) :=
  match event.1 with
  | .notify origin hashes => f.handleNotify event.2 origin hashes
  | .waitTrigger => f.handleWaitTrigger event.2
  | .timeoutTrigger => f.handleTimeoutTrigger event.2
  | .cleanup origin hashes direct => f.handleCleanup event.2 origin hashes direct
  | .drop peer => f.handleDrop event.2 peer

def loop (events : List (Event Peer TxHash × Choices Peer TxHash)) :
    Except FetcherPanic (TxFetcher Peer TxHash) :=
  events.foldlM handle newTxFetcher

end TxFetcher

end PioplatRelay
