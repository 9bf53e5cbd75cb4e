import PioplatRelay.MapLoops
import PioplatRelay.SliceOrders
import PioplatRelay.TxPool
import Mathlib.Algebra.BigOperators.Group.Finset.Basic
import Mathlib.Algebra.Order.Ring.Rat
import Mathlib.Data.String.Basic

/-!
# Peri

`Peri` records when every peer delivers blocks and transactions.  Once a period it
scores the peers by their average delays, reserves the best ones of each score,
selects peers to drop among the others at random, and removes and blocklists those
that are not excused.  Iteration orders of maps, results of sorting, random draws and
readings of the clock are inputs of a round.  Values of the types `int` and `int64` are
integers without a bound.  The source agrees while the sum of a peer's delays, the
tolerance in nanoseconds, its distance from a timestamp and a number of scores less a
count of slots are between `-2^63` and `2^63 - 1`.
-/

namespace PioplatRelay

open scoped BigOperators

def milli2Nano : Int := 1000000

def transactionArrivalReplace : Nat := 30000

def enodeSplitIndex : Nat := 137

/-- The part of an enode URL after the node's key, up to the first colon.  The
value `none` is a slice expression out of range. -/
def extractIPFromEnode (enode : String) : Option String :=
  if enode.length < enodeSplitIndex then none
  else some (String.ofList ((enode.toList.drop enodeSplitIndex).takeWhile (· ≠ ':')))

/-- A registered peer: its URL and the time it connected.  The node of a connected
peer has an address, so its URL reaches beyond the key. -/
structure EthPeer where
  url : String
  connectedTimestamp : Int
  addressed : enodeSplitIndex ≤ url.length

/-- The part of an enode URL up to the address, for a key of zeros. -/
def enodeKey : List Char := "enode://".toList ++ (List.replicate 128 '0' ++ ['@'])

theorem enodeKey_length : enodeKey.length = enodeSplitIndex := by
  have schemeLength : "enode://".toList.length = 8 := by decide
  unfold enodeKey enodeSplitIndex
  rw [List.length_append,schemeLength,List.length_append,List.length_replicate,
    List.length_singleton]

def EthPeer.ofIp (ip : String) (connectedTimestamp : Int) : EthPeer where
  url := String.ofList (enodeKey ++ (ip.toList ++ ":30303".toList))
  connectedTimestamp := connectedTimestamp
  addressed := by
    rw [String.length_ofList,List.length_append,enodeKey_length]
    exact Nat.le_add_right _ _

theorem extractIPFromEnode_ofIp {ip : String} (noColon : ':' ∉ ip.toList)
    (connectedTimestamp : Int) :
    extractIPFromEnode (EthPeer.ofIp ip connectedTimestamp).url = some ip := by
  have host : (ip.toList ++ ":30303".toList).takeWhile (· ≠ ':') = ip.toList := by
    have port : ":30303".toList.takeWhile (· ≠ ':') = [] := by decide
    rw [List.takeWhile_append_of_pos]
    · rw [port,List.append_nil]
    · intro letter member
      exact decide_eq_true fun isColon => noColon (isColon ▸ member)
  rw [extractIPFromEnode,if_neg (Nat.not_lt.mpr (EthPeer.ofIp ip connectedTimestamp).addressed),
    EthPeer.ofIp,String.toList_ofList,List.drop_left' enodeKey_length,host,String.ofList_toList]

structure BlockItem where
  ip : String
  count : Int64
  expiredTime : AbsTime
  deriving DecidableEq

structure PeriConfig where
  periActive : Bool
  periNoDropList : List String
  periMaxDeliveryTolerance : Int
  periMaxTransactionAmount : Int

/-! ## Arrivals -/

/-- Arrival times of items of one kind: the earliest, and each peer's. -/
structure Arrivals (Item : Type) where
  arrivals : Finmap fun _ : Item => Int
  arrivalPerPeer : Finmap fun _ : Item => Finmap fun _ : String => Int

namespace Arrivals

variable {Item : Type} [DecidableEq Item]

def empty : Arrivals Item := ⟨∅,∅⟩

/-- Record a delivery.  The value `none` is a write to a map that is not there. -/
def record (peer : String) (timestamp : Int) (item : Item) (records : Arrivals Item) :
    Option (Arrivals Item) :=
  match records.arrivals.lookup item with
  | some arrivalTimestamp => do
      let times ← records.arrivalPerPeer.lookup item
      return {
        arrivals := if timestamp < arrivalTimestamp then records.arrivals.insert item timestamp
          else records.arrivals
        arrivalPerPeer := records.arrivalPerPeer.insert item (times.insert peer timestamp) }
  | none => some {
      arrivals := records.arrivals.insert item timestamp
      arrivalPerPeer := records.arrivalPerPeer.insert item (Finmap.singleton peer timestamp) }

def arrivalOf (records : Arrivals Item) (item : Item) : Int := (records.arrivals.lookup item).getD 0

def since (records : Arrivals Item) (birth : Int) : Finset Item :=
  records.arrivals.keys.filter fun item => birth ≤ records.arrivalOf item

def delay (maxDelay : Int) (id : String) (records : Arrivals Item) (item : Item) : Int :=
  match (records.arrivalPerPeer.lookup item).bind fun times => times.lookup id with
  | some timestamp => min (timestamp - records.arrivalOf item) maxDelay
  | none => maxDelay

/-- The average delay of a peer, in floating point. -/
def score (float : ℚ → ℚ) (maxDelay : Int) (id : String) (birth : Int)
    (records : Arrivals Item) : ℚ :=
  let peerForwardCount := (records.since birth).card
  if peerForwardCount = 0 then float maxDelay
  else
    let totalDelayDuration := ∑ item ∈ records.since birth, records.delay maxDelay id item
    float (float totalDelayDuration / float peerForwardCount)

def latest (records : Arrivals Item) : Int := records.arrivals.keys.fold max 0 records.arrivalOf

def connectedLate (tolerance : Int) (birth : Int) (records : Arrivals Item) : Bool :=
  (records.since birth).card = 0 && records.latest - tolerance * milli2Nano < birth

end Arrivals

/-! ## The state -/

abbrev AnnouncedBlock := Hash × UInt64

/-- `Peri`, with the registered peers of its handler and the peers for which
`removePeer` and `unregisterPeer` have been called. -/
structure Peri where
  config : PeriConfig
  peers : Finmap fun _ : String => EthPeer
  removed : List String
  blockPeersCount : Int
  txsPeerCount : Int
  maxDelayDuration : Int
  txs : Arrivals Hash
  txOldArrivals : Finmap fun _ : Hash => Int
  blocks : Arrivals AnnouncedBlock
  peersSnapShot : Finmap fun _ : String => String
  blocklist : Finmap fun _ : String => BlockItem

def Peri.fresh (config : PeriConfig) (peers : Finmap fun _ : String => EthPeer)
    (blockPeersCount txsPeerCount maxDelayDuration : Int)
    (blocklist : Finmap fun _ : String => BlockItem) : Peri where
  config := config
  peers := peers
  removed := []
  blockPeersCount := blockPeersCount
  txsPeerCount := txsPeerCount
  maxDelayDuration := maxDelayDuration
  txs := .empty
  txOldArrivals := ∅
  blocks := .empty
  peersSnapShot := ∅
  blocklist := blocklist

structure IdScore where
  id : String
  score : ℚ
  deriving DecidableEq

namespace Peri

/-- What the runtime and the clock decide in a round.  A slice expression may
reach beyond the length of its slice, into the spare part of the array. -/
structure Choices where
  float : ℚ → ℚ
  peersOrder : IterationOrder String
  sortBlocks : SliceSort IdScore
  sortTxs : SliceSort IdScore
  draws : Nat → Nat
  spare : Nat
  dropOrder : IterationOrder String
  now : String → AbsTime
  oldOrder : IterationOrder Hash
  sortOld : SliceSort (Hash × Int)

/-- Maps and sorts in their own order, exact numbers and no exchanges, at time
zero. -/
def Choices.plain : Choices where
  float x := x
  peersOrder := .sorted
  sortBlocks := .merge
  sortTxs := .merge
  draws i := i
  spare := 0
  dropOrder := .sorted
  now _ := 0
  oldOrder := @IterationOrder.sorted Hash Hash.byValue
  sortOld := .merge

def maxBlockDist : Int := 32

/-- `recordBlockAnnounces`, when the head of the chain has this number. -/
def recordBlockAnnounces (peer : String) (timestamp : Int) (current : UInt64)
    (hashes : List Hash) (numbers : List UInt64) (p : Peri) : Option Peri :=
  (hashes.zip numbers).foldlM (fun p block =>
    if (block.2.toInt64 - current.toInt64).toInt < -maxBlockDist then some p
    else (p.blocks.record peer timestamp block).map fun blocks => { p with blocks }) p

def recordTransactionAnnounces (peer : String) (timestamp : Int) (hashes : List Hash)
    (p : Peri) : Option Peri :=
  hashes.foldlM (fun p txHash =>
    if txHash ∈ p.txOldArrivals then some p
    else (p.txs.record peer timestamp txHash).map fun txs => { p with txs }) p

/-! ## Scores -/

variable (p : Peri)

def enode (id : String) : String := (p.peersSnapShot.lookup id).getD ""

def isNoDropPeer (id : String) : Option Bool :=
  (extractIPFromEnode (p.enode id)).map fun ipAddress =>
    p.config.periNoDropList.any fun ip => ip = ipAddress

/-- The comparison of both sorts: peers that are not dropped go last, and others
by falling score. -/
def scoreLess (x y : IdScore) : Bool :=
  let ndx := (p.isNoDropPeer x.id).getD false
  let ndy := (p.isNoDropPeer y.id).getD false
  if ndx && !ndy then false
  else if ndy && !ndx then true
  else y.score < x.score

def sortScores (sorting : SliceSort IdScore) (scores : List IdScore) (p : Peri) :
    Option (List IdScore) :=
  if 2 ≤ scores.length ∧ ∃ score ∈ scores, p.isNoDropPeer score.id = none then none
  else some (sorting.sort p.scoreLess scores)

def birth (id : String) : Int := ((p.peers.lookup id).map EthPeer.connectedTimestamp).getD 0

def snapShot (ids : List String) (p : Peri) : Peri :=
  { p with
    peersSnapShot := ids.foldl
      (fun snapShot id => snapShot.insert id (((p.peers.lookup id).map EthPeer.url).getD ""))
      p.peersSnapShot }

variable (choices : Choices) (p : Peri)

def blockScore (id : String) : IdScore :=
  ⟨id, p.blocks.score choices.float p.maxDelayDuration id (p.birth id)⟩

def txScore (id : String) : IdScore :=
  ⟨id, p.txs.score choices.float p.maxDelayDuration id (p.birth id)⟩

def isExcused (id : String) : Bool :=
  p.blocks.connectedLate p.config.periMaxDeliveryTolerance (p.birth id) ||
    p.txs.connectedLate p.config.periMaxDeliveryTolerance (p.birth id)

structure Scores where
  blockScores : List IdScore
  txScores : List IdScore
  excused : Finset String

def getScores : Option (Peri × Scores) := do
  let ids := choices.peersOrder.order p.peers.keys
  let p := p.snapShot ids
  let blockScores ← p.sortScores choices.sortBlocks (ids.map (p.blockScore choices))
  let txScores ← p.sortScores choices.sortTxs (ids.map (p.txScore choices))
  return (p, ⟨blockScores, txScores, (ids.filter p.isExcused).toFinset⟩)

/-! ## Selection -/

/-- Reserve the last peers of a list of scores, as many as there are slots. -/
def reserveLast (count : Int) (scores : List IdScore) (peersReserve : Finset String) :
    Finset String :=
  let idx := max (scores.length - count) 0
  (scores.drop idx.toNat).reverse.foldl (fun reserve score => insert score.id reserve)
    peersReserve

def peersReserve (scores : Scores) : Finset String :=
  reserveLast p.txsPeerCount scores.txScores (reserveLast p.blockPeersCount scores.blockScores ∅)

def neighbors (scores : Scores) : Nat := min scores.txScores.length scores.blockScores.length

def peersRemove (scores : Scores) : List String :=
  ((scores.txScores.take (neighbors scores)).map IdScore.id).filter fun id =>
    id ∉ p.peersReserve scores

/-- `ids[:high]`, on an array with spare elements behind the slice. -/
def sliceTo (spare : Nat) (ids : List String) (high : Int) : Option (List String) :=
  if 0 ≤ high ∧ high ≤ ids.length + spare then
    some ((ids ++ List.replicate spare "").take high.toNat)
  else none

def firstReserved (count : Int) (scores : List IdScore) (toDropNum : Int) : Finset String :=
  let idx := max (scores.length - count) 0
  let right := min (idx + toDropNum) scores.length
  (((scores.take right.toNat).drop idx.toNat).map IdScore.id).toFinset

def toDropIds (choices : Choices) (scores : Scores) (p : Peri) : Option (List String) :=
  let slots := p.blockPeersCount + p.txsPeerCount
  if slots < neighbors scores then
    let toDropNum := neighbors scores - slots
    if (p.peersReserve scores).card ≤ slots then
      sliceTo choices.spare (shuffle choices.draws (p.peersRemove scores)) toDropNum
    else
      let toDropNum := toDropNum - (p.peersRemove scores).length
      let ids := firstReserved p.blockPeersCount scores.blockScores toDropNum ∪
        firstReserved p.txsPeerCount scores.txScores toDropNum
      (sliceTo choices.spare (shuffle choices.draws (choices.dropOrder.order ids)) toDropNum).map
        fun dropped => dropped ++ p.peersRemove scores
  else some []

/-! ## Removal -/

/-- `time.Duration(math.Pow(2, count)) * 20 * time.Minute`.  A power that is out of
range converts to the least duration. -/
def blockDuration (count : Int64) : Int64 :=
  let power : Int64 :=
    if count < 0 then 0 else if count < 63 then Int64.ofNat (2 ^ count.toNatClampNeg)
    else Int64.minValue
  power * 20 * 60000000000

def dropPeer (id : String) : Option Peri := do
  let ip ← extractIPFromEnode (p.enode id)
  let item := match p.blocklist.lookup ip with
    | some blockedItem =>
      let count := blockedItem.count + 1
      { blockedItem with
        count, expiredTime := choices.now id + (blockDuration count).toInt }
    | none => ⟨ip, 1, choices.now id + (blockDuration 0).toInt⟩
  return { p with
    blocklist := p.blocklist.insert ip item
    peers := p.peers.erase id
    removed := p.removed ++ [id] }

/-- Move the transactions to the old ones, of which the earliest are forgotten
when there are too many, and start afresh. -/
def resetRecords : Peri :=
  let txOldArrivals := (choices.oldOrder.order p.txs.arrivals.keys).foldl
    (fun old tx => old.insert tx (p.txs.arrivalOf tx)) p.txOldArrivals
  let txOldArrivals :=
    if p.config.periMaxTransactionAmount < txOldArrivals.keys.card then
      let listArrivals := (choices.oldOrder.order txOldArrivals.keys).map fun tx =>
        (tx, (txOldArrivals.lookup tx).getD 0)
      let listArrivals := choices.sortOld.sort (fun x y => x.2 < y.2) listArrivals
      (listArrivals.take (min txOldArrivals.keys.card transactionArrivalReplace)).foldl
        (fun old entry => old.erase entry.1) txOldArrivals
    else txOldArrivals
  { p with
    txOldArrivals
    txs := .empty
    blocks := .empty
    peersSnapShot := ∅ }

def dropByScores (choices : Choices) (scores : Scores) (p : Peri) : Option Peri := do
  let toDropIdsSlice ← p.toDropIds choices scores
  let p ← if p.config.periActive then
      toDropIdsSlice.foldlM
        (fun p id => if id ∈ scores.excused then some p else p.dropPeer choices id) p
    else some p
  return p.resetRecords choices

/-- One round; without records of both kinds it is skipped. -/
def disconnectByScore : Option Peri :=
  if p.blocks.arrivals.keys.card = 0 ∨ p.txs.arrivals.keys.card = 0 then some p
  else do
    let (p, scores) ← p.getScores choices
    p.dropByScores choices scores

end Peri

end PioplatRelay
