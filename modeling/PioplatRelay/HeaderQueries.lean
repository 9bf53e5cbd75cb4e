import PioplatRelay.BlockQueue
import PioplatRelay.LoopRuns

/-!
# Serving block headers

Peers ask for block headers by hash or number, in either direction, with gaps
of any width.  Queries without gaps take a fast path over `GetHeadersFrom`;
all others take a general loop.  The services count the lookups they make in the
chain and, where they call it, the rounds of the loop in `GetHeadersFrom`.
-/

namespace PioplatRelay

abbrev RawValue := List UInt8

/-- What the services use of `types.Header`; `none` is a nil header, which has
an encoding and a hash like any other.  An encoding of `none` is an error. -/
structure HeaderCodec (Header : Type*) where
  hash : Option Header → Hash
  encode : Option Header → Option RawValue
  number : Header → UInt64
  parentHash : Header → Hash

def HeaderCodec.rlpData {Header : Type*} (codec : HeaderCodec Header)
    (header : Option Header) : RawValue :=
  (codec.encode header).getD []

/-- The lookups of `core.Blockchain` that the services use.  An ancestor lookup
may lower the number of blocks off the canonical chain still to be visited. -/
structure ChainView (Header : Type*) where
  getHeaderByHash : Hash → Option Header
  getHeader : Hash → UInt64 → Option Header
  getHeaderByNumber : UInt64 → Option Header
  getAncestor : Hash → UInt64 → UInt64 → UInt64 → (Hash × UInt64) × UInt64

/-- The callbacks of `SetPioplatFullNodeFn` that answer header lookups, with
`none` for a nil header and for an error. -/
structure FullNode (Header : Type*) where
  reqHeaderByHash : Hash → Option Header
  reqHeaderByHashAndNumber : Hash → UInt64 → Option Header
  reqHeaderByNumber : UInt64 → Option Header
  reqAncestor : Hash → UInt64 → UInt64 → UInt64 → (Hash × UInt64) × UInt64

structure Blockchain (Header Block : Type*) where
  blockContainer : FixedSizeBlockQueue Block
  fullNode : FullNode Header

namespace Blockchain

variable {Header Block : Type*} (header : Block → Header) (hash : Block → Hash)

def headerOf (blocks : List Block) (blockHash : Hash) : Option Header :=
  (blocks.find? fun block => hash block = blockHash).map header

variable (bc : Blockchain Header Block)

def getHeaderByHash (blockHash : Hash) : Option Header :=
  match bc.blockContainer.hash2Number.lookup blockHash with
  | some blockNumber =>
    headerOf header hash ((bc.blockContainer.uniqueNumbers.lookup blockNumber).getD [])
      blockHash
  | none => bc.fullNode.reqHeaderByHash blockHash

def getHeader (blockHash : Hash) (blockNumber : UInt64) :
    Option Header :=
  match bc.blockContainer.uniqueNumbers.lookup blockNumber with
  | some blocks => headerOf header hash blocks blockHash
  | none => bc.fullNode.reqHeaderByHashAndNumber blockHash blockNumber

def getHeaderByNumber (blockNumber : UInt64) : Option Header :=
  match bc.blockContainer.uniqueNumbers.lookup blockNumber with
  | some [block] => some (header block)
  | _ => bc.fullNode.reqHeaderByNumber blockNumber

def view : ChainView Header where
  getHeaderByHash := bc.getHeaderByHash header hash
  getHeader := bc.getHeader header hash
  getHeaderByNumber := bc.getHeaderByNumber header
  getAncestor := bc.fullNode.reqAncestor

end Blockchain

structure GetBlockHeadersPacket where
  originHash : Hash
  originNumber : UInt64
  amount : UInt64
  skip : UInt64
  reverse : Bool
  deriving DecidableEq

def maxHeadersServe : Nat := 1024

def softResponseLimit : Nat := 2 * 1024 * 1024

/-- `int(n)`: the upper half of the range turns negative. -/
def signedInt (n : UInt64) : Int :=
  if n.toNat < 2 ^ 63 then n.toNat else n.toNat - 2 ^ 64

/-- An answer, with the number of chain lookups made for it and of rounds of
`GetHeadersFrom`.  After `log.Crit` there is no answer, the process exits. -/
structure Answer where
  headers : List RawValue
  lookups : Nat
  rounds : Nat
  exited : Bool
  deriving DecidableEq

variable {Header : Type*} (codec : HeaderCodec Header) (chain : ChainView Header)

namespace ChainView

/-- The loop of `GetHeadersFrom`; the first argument bounds its rounds. -/
def getHeadersFromLoop : Nat → UInt64 → UInt64 → List RawValue
  | 0, _, _ => []
  | rounds + 1, i, stop =>
    -- The source counts upwards, and a missing header is encoded as well.
    if i < stop then
      codec.rlpData (chain.getHeaderByNumber i) ::
        getHeadersFromLoop rounds (i + 1) stop
    else []

def getHeadersFrom (start count : UInt64) : List RawValue :=
  chain.getHeadersFromLoop codec (start + count).toNat start (start + count)

def getCanonicalHash (blockNumber : UInt64) : Hash :=
  codec.hash (chain.getHeaderByNumber blockNumber)

/-- The loop that delivers the ancestors of a header: `count` is what `i` has
not reached yet. -/
def ancestorsLoop : Nat → Header → List RawValue × Nat
  | 0, _ => ([], 0)
  | count + 1, header =>
    match chain.getHeaderByHash (codec.parentHash header) with
    | none => ([], 1)
    | some parent =>
      let rest := ancestorsLoop count parent
      (codec.rlpData (some parent) :: rest.1, rest.2 + 1)

def serveCount (amount : UInt64) : UInt64 :=
  if UInt64.ofNat maxHeadersServe < amount then UInt64.ofNat maxHeadersServe else amount

variable (query : GetBlockHeadersPacket)

def serviceContiguousBlockHeaderQuery : Answer :=
  let count := serveCount query.amount
  if query.originHash = .zero then
    let start := if query.reverse then query.originNumber
      else query.originNumber + count - 1
    let headers := chain.getHeadersFrom codec start count
    ⟨if query.reverse then headers else headers.reverse, headers.length, headers.length, false⟩
  else
    match chain.getHeaderByHash query.originHash with
    | none => ⟨[], 1, 0, false⟩
    | some header =>
      let first := codec.rlpData (some header)
      let num := codec.number header
      if query.reverse then
        let ancestors := chain.ancestorsLoop codec (count.toNat - 1) header
        ⟨first :: ancestors.1,1 + ancestors.2,0,false⟩
      else if chain.getCanonicalHash codec num ≠ query.originHash then ⟨[first], 2, 0, false⟩
      else
        let descendants := chain.getHeadersFrom codec (num + count - 1) (count - 1)
        ⟨first :: descendants.reverse,2 + descendants.length,descendants.length,false⟩

/-- The variables of the general loop.  The loop counter `lookups` of the
source counts its rounds; `asked` counts the lookups themselves. -/
structure QueryState where
  originHash : Hash
  originNumber : UInt64
  first : Bool
  maxNonCanonical : UInt64
  bytes : Nat
  headers : List RawValue
  unknown : Bool
  lookups : Nat
  asked : Nat
  exited : Bool

namespace QueryState

variable (query : GetBlockHeadersPacket)

def start : QueryState where
  originHash := query.originHash
  originNumber := query.originNumber
  first := true
  maxNonCanonical := 100
  bytes := 0
  headers := []
  unknown := false
  lookups := 0
  asked := 0
  exited := false

variable (state : QueryState)

def continues : Bool :=
  !state.unknown && decide ((state.headers.length : Int) < signedInt query.amount) &&
    decide (state.bytes < softResponseLimit) &&
    decide (state.headers.length < maxHeadersServe) &&
    decide (state.lookups < 2 * maxHeadersServe)

def retrieve :
    Option Header × QueryState :=
  let state := { state with lookups := state.lookups + 1, asked := state.asked + 1 }
  if query.originHash ≠ .zero then
    if state.first then
      match chain.getHeaderByHash state.originHash with
      | none => (none, { state with first := false })
      | some origin =>
        (some origin, { state with first := false, originNumber := codec.number origin })
    else (chain.getHeader state.originHash state.originNumber, state)
  else (chain.getHeaderByNumber state.originNumber, state)

def advance (origin : Header) (state : QueryState) :
    QueryState :=
  if query.originHash ≠ .zero then
    if query.reverse then
      let ancestor := query.skip + 1
      if ancestor = 0 then { state with unknown := true }
      else
        let found := chain.getAncestor state.originHash state.originNumber ancestor
          state.maxNonCanonical
        { state with
          originHash := found.1.1
          originNumber := found.1.2
          maxNonCanonical := found.2
          unknown := decide (found.1.1 = .zero)
          asked := state.asked + 1 }
    else
      let current := codec.number origin
      let next := current + query.skip + 1
      if next ≤ current then { state with unknown := true }
      else
        match chain.getHeaderByNumber next with
        | none => { state with unknown := true, asked := state.asked + 1 }
        | some header =>
          let nextHash := codec.hash (some header)
          let old := chain.getAncestor nextHash next (query.skip + 1) state.maxNonCanonical
          let state := { state with maxNonCanonical := old.2, asked := state.asked + 2 }
          if old.1.1 = state.originHash then
            { state with originHash := nextHash, originNumber := next }
          else { state with unknown := true }
  else if query.reverse then
    if query.skip + 1 ≤ state.originNumber then
      { state with originNumber := state.originNumber - (query.skip + 1) }
    else { state with unknown := true }
  else { state with originNumber := state.originNumber + (query.skip + 1) }

def collect (rlpData : RawValue) : QueryState :=
  { state with
    headers := state.headers ++ [rlpData]
    bytes := state.bytes + rlpData.length }

def round : Iteration QueryState :=
  match state.retrieve codec chain query with
  | (none, state) => .finished state
  | (some origin, state) =>
    match codec.encode (some origin) with
    | none => .finished { state with exited := true }
    | some rlpData => .again (advance codec chain query origin (state.collect rlpData))

/-- The general loop; the last argument bounds its rounds. -/
def loop (query : GetBlockHeadersPacket) : Nat → QueryState → QueryState
  | 0, state => state
  | rounds + 1, state =>
    if state.continues query then
      match state.round codec chain query with
      | .again next => loop query rounds next
      | .finished last => last
      | .panicked => state
    else state

variable {codec chain} {query : GetBlockHeadersPacket}

theorem retrieve_frame {state after : QueryState} {origin : Option Header}
    (retrieved : state.retrieve codec chain query = (origin, after)) :
    after.headers = state.headers ∧ after.bytes = state.bytes ∧
      after.exited = state.exited ∧ after.lookups = state.lookups + 1 ∧
        after.asked = state.asked + 1 := by
  unfold retrieve at retrieved
  dsimp only at retrieved
  split at retrieved
  · split at retrieved
    · split at retrieved <;> cases retrieved <;> exact ⟨rfl,rfl,rfl,rfl,rfl⟩
    · cases retrieved
      exact ⟨rfl,rfl,rfl,rfl,rfl⟩
  · cases retrieved
    exact ⟨rfl,rfl,rfl,rfl,rfl⟩

variable (codec chain query) in
theorem advance_frame (state : QueryState) (origin : Header) :
    let next := state.advance codec chain query origin
    next.headers = state.headers ∧ next.bytes = state.bytes ∧ next.exited = state.exited ∧
      next.lookups = state.lookups ∧ next.asked ≤ state.asked + 2 := by
  unfold advance
  dsimp only
  split_ifs
  · simp
  · simp
  · simp
  · split
    · simp
    · split_ifs <;> simp
  · simp
  · simp
  · simp

end QueryState

def serviceNonContiguousBlockHeaderQuery : Answer :=
  let last := QueryState.loop codec chain query (2 * maxHeadersServe) (.start query)
  ⟨last.headers,last.asked,0,last.exited⟩

def serviceGetBlockHeadersQuery : Answer :=
  if query.skip = 0 then chain.serviceContiguousBlockHeaderQuery codec query
  else chain.serviceNonContiguousBlockHeaderQuery codec query

variable {codec chain} {query : GetBlockHeadersPacket} {header : Header}

/-! ## The branches of the fast path -/

theorem contiguous_byNumber (byNumber : query.originHash = .zero) :
    chain.serviceContiguousBlockHeaderQuery codec query =
      let headers := chain.getHeadersFrom codec (if query.reverse then query.originNumber
          else query.originNumber + serveCount query.amount - 1) (serveCount query.amount)
      ⟨if query.reverse then headers else headers.reverse,headers.length,headers.length,
        false⟩ := by
  simp [serviceContiguousBlockHeaderQuery,byNumber]

section

variable (byHash : query.originHash ≠ .zero)

include byHash

theorem contiguous_unknown (missing : chain.getHeaderByHash query.originHash = none) :
    chain.serviceContiguousBlockHeaderQuery codec query = ⟨[], 1, 0, false⟩ := by
  simp [serviceContiguousBlockHeaderQuery,byHash,missing]

section

variable (found : chain.getHeaderByHash query.originHash = some header)

include found

theorem contiguous_ancestors
    (backward : query.reverse = true) :
    let ancestors := chain.ancestorsLoop codec ((serveCount query.amount).toNat - 1) header
    chain.serviceContiguousBlockHeaderQuery codec query =
      ⟨codec.rlpData (some header) :: ancestors.1,1 + ancestors.2,0,false⟩ := by
  simp [serviceContiguousBlockHeaderQuery,byHash,found,backward]

theorem contiguous_sidechain (forward : query.reverse = false)
    (side : chain.getCanonicalHash codec (codec.number header) ≠ query.originHash) :
    chain.serviceContiguousBlockHeaderQuery codec query =
      ⟨[codec.rlpData (some header)], 2, 0, false⟩ := by
  simp [serviceContiguousBlockHeaderQuery,byHash,found,forward,side]

theorem contiguous_descendants (forward : query.reverse = false)
    (canonical : chain.getCanonicalHash codec (codec.number header) = query.originHash) :
    let descendants := chain.getHeadersFrom codec
      (codec.number header + serveCount query.amount - 1) (serveCount query.amount - 1)
    chain.serviceContiguousBlockHeaderQuery codec query =
      ⟨codec.rlpData (some header) :: descendants.reverse,2 + descendants.length,
        descendants.length,false⟩ := by
  simp [serviceContiguousBlockHeaderQuery,byHash,found,forward,canonical]

end

end

end ChainView

end PioplatRelay
