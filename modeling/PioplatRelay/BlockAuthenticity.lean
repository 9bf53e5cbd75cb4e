import PioplatRelay.BlockFetcher
import PioplatRelay.BlockQueue
import PioplatRelay.RelayTcpRoundTrip
import PioplatRelay.StepRuns

/-!
# Where cached blocks come from

Blocks reach the fetcher as a block message of a peer, from the headers and bodies
that peers deliver on request, and in a frame of another relay.  The relay loop alone
compares neither the body with the hashes in the header nor the object with the hash
that its frame announces.  The cache holds authentic blocks as long as the frames do.
-/

namespace PioplatRelay

open List Option BlockFetcher BlockFormat PioplatConn

variable {Conn Header Tx : Type}

structure RelayWire (Header Tx : Type) where
  crc : Checksum
  txCodec : ObjectCodec Tx
  encodeBlock : ChainBlock Header Tx → Option (List UInt8)
  decodeBlock : List UInt8 → Option (ChainBlock Header Tx)

def RelayWire.brief : RelayWire BriefHeader UInt8 where
  crc := checksumIEEE
  txCodec := .byte
  encodeBlock block := some
    ([block.header.number, block.header.uncleHash, block.header.txHash] ++ block.transactions)
  decodeBlock
    | number :: uncleHash :: txHash :: transactions =>
      some ⟨⟨number,uncleHash,txHash⟩, transactions, []⟩
    | _ => none

/-- The cache of blocks, as the relay loops read it. -/
abbrev BlockCache (Header Tx : Type) := FixedSizeBlockQueue (ChainBlock Header Tx)

/-- A node for one iteration of a relay loop: `txKnown` is the answer of the
transaction pool, and the calls are collected from the connection. -/
def RelayWire.node (wire : RelayWire Header Tx) (format : BlockFormat Header Tx)
    (txKnown : Bool) : RelayNode (BlockCache Header Tx) Tx (ChainBlock Header Tx) where
  crc := wire.crc
  txCodec := wire.txCodec
  blockCodec := ⟨format.blockHash,wire.encodeBlock,wire.decodeBlock⟩
  hasTransaction _ cache := (txKnown, cache)
  hasBlock hash cache := (cache.existByHash hash, cache)
  enqueue _ cache := cache

def BlockFormat.sanityCheck (format : BlockFormat Header Tx) (header : Header) : Bool :=
  format.number header < 2 ^ 64 && format.difficulty header < 2 ^ 80 &&
    (format.extra header).length ≤ 100 * 1024 &&
    (format.baseFee header).all fun fee => fee < 2 ^ 256

/-- `GetBodyRLP`, before the body is encoded: a hash that is not cached is asked
of the full node. -/
def getBody (format : BlockFormat Header Tx) (cache : BlockCache Header Tx)
    (reqBlockBody : Hash → Option (List Tx × List Header)) (hash : Hash) :
    Option (List Tx × List Header) :=
  match cache.hash2Number.lookup hash with
  | some number =>
    (((cache.uniqueNumbers.lookup number).getD []).find? fun block =>
      format.blockHash block = hash).map fun block => (block.transactions, block.uncles)
  | none => reqBlockBody hash

/-- The relay connections, the calls of `Enqueue` that wait for the fetcher, the
fetcher, the imports between the check and the push of `EnqueueNewBlock`, and the
cache.  Two records are kept: what relay frames brought, with the hash announced
for it, and what was passed to `insertChain`. -/
structure BlockSystem (Conn Header Tx : Type) where
  conns : Conn → PioplatConn (BlockCache Header Tx) Tx (ChainBlock Header Tx)
  injecting : List (BlockInject Header Tx)
  fetcher : BlockFetcher Header Tx
  pushing : List (ChainBlock Header Tx)
  blockContainer : BlockCache Header Tx
  taken : List (List UInt8 × Enqueue Tx (ChainBlock Header Tx))
  inserted : List (ChainBlock Header Tx)

namespace BlockSystem

inductive Action (Conn Header Tx : Type)
  | newBlock (peer : String) (block : ChainBlock Header Tx) (td : Nat)
  | relay (conn : Conn) (txKnown : Bool)
  | inject (i : Nat) (choices : Choices)
  | fetch (choices : Choices) (event : Event Header Tx)
  | insert (i : Nat)
  | push (i : Nat)
  | done (i : Nat) (choices : Choices)

def start (arrivals : Conn → List Arrival) (addr : Conn → String) (capacity : Nat) :
    BlockSystem Conn Header Tx where
  conns conn := .start ⟨.stream,arrivals conn⟩ (.newFixedSizeBlockQueue capacity) (addr conn)
  injecting := []
  fetcher := .newBlockFetcher
  pushing := []
  blockContainer := .newFixedSizeBlockQueue capacity
  taken := []
  inserted := []

def injectOf : Enqueue Tx (ChainBlock Header Tx) → Option (BlockInject Header Tx)
  | .transactions _ _ _ => none
  | .block peer block => some ⟨peer,block⟩

def FromOutside : Event Header Tx → Bool
  | .inject _ _ => false
  | .done _ => false
  | _ => true

variable [DecidableEq Conn] (format : BlockFormat Header Tx) (wire : RelayWire Header Tx)

def handleNewBlock (peer : String) (block : ChainBlock Header Tx) (td : Nat)
    (s : BlockSystem Conn Header Tx) : BlockSystem Conn Header Tx :=
  if ¬ (format.sanityCheck block.header ∧ td < 2 ^ 100) then s
  else if format.calcUncleHash block.uncles ≠ format.uncleHash block.header then s
  else if format.deriveSha block.transactions ≠ format.txHash block.header then s
  else { s with injecting := s.injecting ++ [⟨peer,block⟩] }

variable (s : BlockSystem Conn Header Tx)

def atHead (conn : Conn) :
    PioplatConn (BlockCache Header Tx) Tx (ChainBlock Header Tx) :=
  { s.conns conn with pool := s.blockContainer, enqueued := [] }

def relay (conn : Conn) (txKnown : Bool) (s : BlockSystem Conn Header Tx) :
    Option (BlockSystem Conn Header Tx) :=
  if (s.atHead conn).close then none
  else
    (handleTcpMsgLoop (wire.node format txKnown) (s.atHead conn)).state.map fun after =>
      { s with
        conns := Function.update s.conns conn after
        injecting := s.injecting ++ after.enqueued.filterMap injectOf
        taken := s.taken ++
          after.enqueued.map fun call => (declaredHash (s.atHead conn).reader.unread, call) }

def insertChain (i : Nat) (s : BlockSystem Conn Header Tx) :
    Option (BlockSystem Conn Header Tx) := do
  let op ← s.fetcher.importing[i]?
  let hash := format.blockHash op.block
  let fetcher := { s.fetcher with importing := s.fetcher.importing.eraseIdx i }
  if s.blockContainer.exist format.blockHash hash (format.blockNumber op.block) then
    return { s with
      fetcher := { fetcher with imported := fetcher.imported ++ [hash] }
      inserted := s.inserted ++ [op.block] }
  else
    return { s with
      fetcher
      pushing := s.pushing ++ [op.block]
      inserted := s.inserted ++ [op.block] }

def pushBlock (i : Nat) (s : BlockSystem Conn Header Tx) :
    Option (BlockSystem Conn Header Tx) := do
  let block ← s.pushing[i]?
  return { s with
    pushing := s.pushing.eraseIdx i
    blockContainer := s.blockContainer.push format.blockNumber format.blockHash block
    fetcher := { s.fetcher with imported := s.fetcher.imported ++ [format.blockHash block] } }

def step : Action Conn Header Tx → BlockSystem Conn Header Tx →
    Option (BlockSystem Conn Header Tx)
  | .newBlock peer block td, s => some (s.handleNewBlock format peer block td)
  | .relay conn txKnown, s => s.relay format wire conn txKnown
  | .inject i choices, s => do
      let op ← s.injecting[i]?
      let fetcher ← s.fetcher.loop format choices (.inject op.origin op.block)
      return { s with injecting := s.injecting.eraseIdx i, fetcher }
  | .fetch choices event, s =>
    if FromOutside event then
      (s.fetcher.loop format choices event).map fun fetcher => { s with fetcher }
    else none
  | .insert i, s => s.insertChain format i
  | .push i, s => s.pushBlock format i
  | .done i choices, s => do
      let hash ← s.fetcher.imported[i]?
      let fetcher := { s.fetcher with imported := s.fetcher.imported.eraseIdx i }
      let fetcher ← fetcher.loop format choices (.done hash)
      return { s with fetcher }

def HasHash (hash : List UInt8) : Enqueue Tx (ChainBlock Header Tx) → Prop
  | .transactions _ txs _ => ∀ tx ∈ txs, (wire.txCodec.hash tx).bytes = hash
  | .block _ block => (format.blockHash block).bytes = hash

/-- What is inserted and served from the cache is authentic, and what relay
frames brought has the hash that they announced. -/
structure Authenticated : Prop where
  inserted : ∀ block ∈ s.inserted, format.Authentic block
  served : ∀ reqBlockBody hash body, hash ∈ s.blockContainer.hash2Number →
    getBody format s.blockContainer reqBlockBody hash = some body →
    ∃ header, format.hash header = hash ∧ format.Authentic ⟨header,body.1,body.2⟩
  taken : ∀ entry ∈ s.taken, HasHash format wire entry.1 entry.2

/-- An object of a frame is what the frame announces, and an authentic block if
it is one. -/
def Genuine (hash : Hash) (call : Enqueue Tx (ChainBlock Header Tx)) : Prop :=
  HasHash format wire hash.bytes call ∧ ∀ op ∈ injectOf call, format.Authentic op.block

/-- If a relay loop stands at a frame that it will take, its object is genuine. -/
def Honest : Action Conn Header Tx → Prop
  | .relay conn txKnown => ∀ hash call,
      (s.atHead conn).Takes (wire.node format txKnown) hash call → Genuine format wire hash call
  | _ => True

structure Kept : Prop where
  conns : ∀ conn, (s.conns conn).Ready ∨ (s.conns conn).close = true
  injecting : ∀ op ∈ s.injecting, format.Authentic op.block
  fetcher : s.fetcher.Only format.Authentic
  pushing : ∀ block ∈ s.pushing, format.Authentic block
  cached : s.blockContainer.Only format.Authentic
  inserted : ∀ block ∈ s.inserted, format.Authentic block
  taken : ∀ entry ∈ s.taken, HasHash format wire entry.1 entry.2

variable {format wire} {s next : BlockSystem Conn Header Tx} {conn : Conn} {txKnown : Bool}

section

omit [DecidableEq Conn]

theorem Kept.authenticated (kept : Kept format wire s) : Authenticated format wire s where
  inserted := kept.inserted
  served := by
    intro reqBlockBody hash body cached served
    rcases isSome_iff_exists.mp (Finmap.lookup_isSome.mpr cached) with ⟨number,numberEq⟩
    rw [getBody,numberEq] at served
    rcases map_eq_some_iff.mp served with ⟨block,found,rfl⟩
    have matching := find?_some found
    refine ⟨block.header,of_decide_eq_true matching,?_⟩
    exact kept.cached.lookup_getD number block (mem_of_find?_eq_some found)
  taken := kept.taken

theorem start_kept (arrivals : Conn → List Arrival) (addr : Conn → String) (capacity : Nat) :
    Kept format wire (start arrivals addr capacity) where
  conns conn := .inl (start_ready (arrivals conn) _ (addr conn))
  injecting _ member := absurd member not_mem_nil
  fetcher := newBlockFetcher_only
  pushing _ member := absurd member not_mem_nil
  cached := FixedSizeBlockQueue.newFixedSizeBlockQueue_only _ capacity
  inserted _ member := absurd member not_mem_nil
  taken _ member := absurd member not_mem_nil

/-! ## The three ways in -/

theorem Kept.handleNewBlock (kept : Kept format wire s) (peer : String)
    (block : ChainBlock Header Tx) (td : Nat) :
    Kept format wire (s.handleNewBlock format peer block td) := by
  unfold BlockSystem.handleNewBlock
  split
  · exact kept
  · split
    · exact kept
    · rename_i uncleHash
      split
      · exact kept
      · rename_i txHash
        have authentic : format.Authentic block := ⟨not_not.mp uncleHash,not_not.mp txHash⟩
        refine { kept with injecting := ?_ }
        exact forall_mem_append.mpr
          ⟨kept.injecting,forall_mem_singleton.mpr authentic⟩

/-- The hash of a frame that a connection takes is the one it declares. -/
theorem declaredHash_of_takes {node : RelayNode (BlockCache Header Tx) Tx (ChainBlock Header Tx)}
    {reading : PioplatConn (BlockCache Header Tx) Tx (ChainBlock Header Tx)} {hash : Hash}
    {call : Enqueue Tx (ChainBlock Header Tx)} (takes : reading.Takes node hash call) :
    declaredHash reading.reader.unread = hash.bytes := by
  cases takes with
  | transaction ahead _ _ => exact ahead.hash_eq
  | block ahead _ _ => exact ahead.hash_eq

end

theorem Kept.relay (kept : Kept format wire s) (honest : Honest format wire s (.relay conn txKnown))
    (stepped : s.relay format wire conn txKnown = some next) : Kept format wire next := by
  unfold BlockSystem.relay at stepped
  split at stepped
  · cases stepped
  rename_i opened
  have ready : (s.atHead conn).Ready := by
    rcases kept.conns conn with ready | closed
    · exact { ready with }
    · exact absurd closed opened
  rcases map_eq_some_iff.mp stepped with ⟨after,once,rfl⟩
  obtain ⟨afterFine,calls⟩ := handleTcpMsgLoop_calls ready once
  have conns : ∀ other, (Function.update s.conns conn after other).Ready ∨
      (Function.update s.conns conn after other).close = true := by
    intro other
    rcases eq_or_ne other conn with rfl | different
    · rw [Function.update_self]
      exact afterFine.imp And.right And.right
    · rw [Function.update_of_ne different]
      exact kept.conns other
  rcases calls with same | ⟨hash,call,takes,grown⟩
  · have none : after.enqueued = [] := same
    simp only [none,filterMap_nil,map_nil,append_nil]
    exact { kept with conns }
  · have one : after.enqueued = [call] := grown
    obtain ⟨hasHash,authentic⟩ := honest hash call takes
    refine { kept with conns, injecting := ?_, taken := ?_ }
    · refine forall_mem_append.mpr ⟨kept.injecting,?_⟩
      intro op member
      rcases mem_filterMap.mp member with ⟨other,otherMem,injected⟩
      rw [one,mem_singleton] at otherMem
      rw [otherMem] at injected
      exact authentic op injected
    · rw [one,map_singleton,declaredHash_of_takes takes]
      exact forall_mem_append.mpr ⟨kept.taken,forall_mem_singleton.mpr hasHash⟩

section

omit [DecidableEq Conn]

theorem Kept.fetch (kept : Kept format wire s) {f fetcher : BlockFetcher Header Tx}
    (only : f.Only format.Authentic) {choices : Choices}
    {event : Event Header Tx}
    (injected : ∀ origin block, event = .inject origin block → format.Authentic block)
    (looped : f.loop format choices event = some fetcher) :
    Kept format wire { s with fetcher } :=
  { kept with fetcher := only.loop (fun _ authentic => authentic) injected looped }

theorem Kept.insertChain (kept : Kept format wire s) {i : Nat}
    (stepped : s.insertChain format i = some next) : Kept format wire next := by
  rcases bind_eq_some_iff.mp stepped with ⟨op,found,rest⟩
  have authentic := kept.fetcher.importing op (mem_of_getElem? found)
  have fetcher : ∀ other ∈ s.fetcher.importing.eraseIdx i, format.Authentic other.block :=
    fun other member => kept.fetcher.importing other (mem_of_mem_eraseIdx member)
  have inserted : ∀ block ∈ s.inserted ++ [op.block], format.Authentic block :=
    forall_mem_append.mpr ⟨kept.inserted,forall_mem_singleton.mpr authentic⟩
  have pushing : ∀ block ∈ s.pushing ++ [op.block], format.Authentic block :=
    forall_mem_append.mpr ⟨kept.pushing,forall_mem_singleton.mpr authentic⟩
  dsimp only at rest
  split at rest
  · cases rest
    exact { kept with fetcher := ⟨kept.fetcher.queue,fetcher⟩, inserted }
  · cases rest
    exact { kept with fetcher := ⟨kept.fetcher.queue,fetcher⟩, pushing, inserted }

theorem Kept.pushBlock (kept : Kept format wire s) {i : Nat}
    (stepped : s.pushBlock format i = some next) : Kept format wire next := by
  rcases bind_eq_some_iff.mp stepped with ⟨block,found,rest⟩
  cases rest
  exact { kept with
    pushing := fun other member => kept.pushing other (mem_of_mem_eraseIdx member)
    cached := kept.cached.push _ _ (kept.pushing block (mem_of_getElem? found))
    fetcher := ⟨kept.fetcher.queue,kept.fetcher.importing⟩ }

end

/-! ## Runs -/

theorem step_kept {action : Action Conn Header Tx} (kept : Kept format wire s)
    (honest : Honest format wire s action) (stepped : step format wire action s = some next) :
    Kept format wire next := by
  cases action with
  | newBlock peer block td =>
    cases stepped
    exact kept.handleNewBlock peer block td
  | relay conn txKnown => exact kept.relay honest stepped
  | inject i choices =>
    rcases bind_eq_some_iff.mp stepped with ⟨op,found,rest⟩
    rcases bind_eq_some_iff.mp rest with ⟨fetcher,looped,nextEq⟩
    cases nextEq
    have injected := kept.injecting op (mem_of_getElem? found)
    have fetched := kept.fetch kept.fetcher
      (fun origin block same => by cases same; exact injected) looped
    exact { fetched with
      injecting := fun other member =>
        kept.injecting other (mem_of_mem_eraseIdx member) }
  | fetch choices event =>
    rw [step] at stepped
    split at stepped
    · rename_i fromOutside
      rcases map_eq_some_iff.mp stepped with ⟨fetcher,looped,rfl⟩
      exact kept.fetch kept.fetcher
        (fun origin block same => by rw [same] at fromOutside; cases fromOutside) looped
    · cases stepped
  | insert i => exact kept.insertChain stepped
  | push i => exact kept.pushBlock stepped
  | done i choices =>
    rcases bind_eq_some_iff.mp stepped with ⟨hash,found,rest⟩
    rcases bind_eq_some_iff.mp rest with ⟨fetcher,looped,nextEq⟩
    cases nextEq
    have only : ({ s.fetcher with imported := s.fetcher.imported.eraseIdx i } :
        BlockFetcher Header Tx).Only format.Authentic :=
      ⟨kept.fetcher.queue,kept.fetcher.importing⟩
    have notInjected (origin : String) (block : ChainBlock Header Tx)
        (same : Event.done hash = .inject origin block) :
        format.Authentic block := by
      cases same
    exact kept.fetch only notInjected looped

/-- In every run in which the frames that the relay loops take carry what they
announce, and only authentic blocks, all that is inserted and served is
authentic. -/
theorem authenticated_of_honest (arrivals : Conn → List Arrival) (addr : Conn → String)
    (capacity : Nat) (actions : List (Action Conn Header Tx))
    (honest : Guarded (step format wire) (Honest format wire) (start arrivals addr capacity)
      actions) :
    Always (step format wire) (Authenticated format wire) (start arrivals addr capacity) actions :=
  always_of_guarded (fun _ _ _ kept honest stepped => step_kept kept honest stepped)
    (fun _ kept => kept.authenticated) (start_kept arrivals addr capacity) honest

def briefStart (bytes : List UInt8) : BlockSystem Unit BriefHeader UInt8 :=
  start (fun _ => [.data bytes]) (fun _ => "10.0.0.2:40000") 4

theorem briefStart_unread (bytes : List UInt8) :
    ((briefStart bytes).conns ()).reader.unread = bytes := by
  have available := availableBytes_stream [bytes]
  rw [flatten_singleton] at available
  exact available

/-- A run in which the frame of an authentic block is taken, inserted and cached. -/
theorem authenticated_of_honest_frame :
    let hash := brief.hash ⟨1,0,5⟩
    let actions : List (Action Unit BriefHeader UInt8) :=
      [.relay () false,.inject 0 .plain,.insert 0,.push 0]
    let first := briefStart (newMsg checksumIEEE blockMsg hash [1,0,5,5])
    Guarded (step .brief .brief) (Honest .brief .brief) first actions ∧
      Always (step .brief .brief) (Authenticated .brief .brief) first actions := by
  intro hash actions first
  have ahead : FrameAhead checksumIEEE blockMsg hash [1,0,5,5] []
      (first.atHead ()).reader.unread := by
    have small : ([1,0,5,5] : List UInt8).length + crc32Size < 2 ^ 24 := by decide
    have whole := newMsg_frameAhead checksumIEEE blockMsg hash small []
    rw [append_nil,← briefStart_unread (newMsg checksumIEEE blockMsg hash [1,0,5,5])]
      at whole
    exact whole
  have honest : Honest .brief .brief first (.relay () false) := by
    intro announced call takes
    cases takes with
    | transaction other _ _ => exact absurd (ahead.unique other).1 (by decide)
    | block other _ decoded =>
      obtain ⟨-,rfl,rfl⟩ := ahead.unique other
      cases decoded
      refine ⟨rfl,?_⟩
      intro op injected
      cases injected
      exact (by decide : brief.Authentic ⟨⟨1,0,5⟩,[5],[]⟩)
  have guarded : Guarded (step .brief .brief) (Honest .brief .brief) first actions :=
    fun _ _ => ⟨honest,fun _ _ => ⟨trivial,fun _ _ => ⟨trivial,fun _ _ => ⟨trivial,trivial⟩⟩⟩⟩
  exact ⟨guarded,authenticated_of_honest _ _ 4 actions guarded⟩

/-! ## A dishonest relay -/

/-- A relay loop that stands at the frame of a block unknown to the cache hands
the block to the fetcher, whatever hash the frame announces. -/
theorem step_relay_block {hash : Hash} {data rest : List UInt8} {block : ChainBlock Header Tx}
    (ready : (s.conns conn).Ready)
    (unreadEq : (s.conns conn).reader.unread = newMsg wire.crc blockMsg hash data ++ rest)
    (small : data.length < 2 ^ 24 - 4) (decoded : wire.decodeBlock data = some block)
    (unknown : s.blockContainer.existByHash hash = false) :
    ∃ after, step format wire (.relay conn txKnown) s = some { s with
        conns := Function.update s.conns conn after
        injecting := s.injecting ++ [⟨(s.conns conn).addr, block⟩]
        taken := s.taken ++ [(hash.bytes, .block (s.conns conn).addr block)] } := by
  have headReady : (s.atHead conn).Ready := { ready with }
  obtain ⟨middle,-,-,-,hashEq,poolEq,enqueuedEq,addrEq,frameEq⟩ :=
    handleFrame_newMsg (wire.node format txKnown) blockMsg hash small headReady unreadEq
  have declared : declaredHash (s.atHead conn).reader.unread = hash.bytes := by
    have ahead := newMsg_frameAhead wire.crc blockMsg hash
      (by unfold crc32Size; omega : data.length + crc32Size < 2 ^ 24) rest
    rw [← unreadEq] at ahead
    exact ahead.hash_eq
  have enqueued : (deliver (wire.node format txKnown) blockMsg data middle).enqueued =
      [.block (s.conns conn).addr block] := by
    have notTransaction : ¬ blockMsg = transactionMsg := by decide
    have asked : (wire.node format txKnown).hasBlock middle.hash middle.pool =
        (false, middle.pool) := by
      rw [hashEq,poolEq]
      exact congrArg (·, s.blockContainer) unknown
    have decodes : (wire.node format txKnown).blockCodec.decode data = some block := decoded
    simp only [deliver,asked,decodes,Receiver.handOver,enqueuedEq,addrEq]
    rfl
  refine ⟨deliver (wire.node format txKnown) blockMsg data middle,?_⟩
  have opened : ¬ (s.atHead conn).close = true := by simp [headReady.opened]
  simp only [step,relay,if_neg opened,handleTcpMsgLoop,frameEq,getD_some,
    Iteration.state,map_some,enqueued,declared,map_singleton]
  rfl

/-- A fetcher with nothing to fetch starts to import an injected block at once. -/
theorem loop_inject_new (choices : Choices) (peer : String) (block : ChainBlock Header Tx) :
    ∃ fetcher, newBlockFetcher.loop format choices (.inject peer block) =
        some fetcher ∧ fetcher.importing = [⟨peer,block⟩] := by
  refine ⟨_,rfl,?_⟩
  have fresh : ((newBlockFetcher : BlockFetcher Header Tx).enqueue format peer
      block).fetching.keys = ∅ := rfl
  rw [loopTop,fresh,choices.fetchingOrder.order_empty]
  rfl

/-- A frame announces one hash and carries a block with another, whose only
transaction is not in the root of its header.  The block is inserted and served
under its own hash. -/
theorem forged_block_cached :
    let block : ChainBlock BriefHeader UInt8 := ⟨⟨1,0,0⟩, [5], []⟩
    let announced := ObjectCodec.byte.hash 9
    ∃ last, runAll (step .brief .brief)
        (briefStart (newMsg checksumIEEE blockMsg announced [1, 0, 0, 5]))
        [.relay () false, .inject 0 .plain, .insert 0, .push 0] = some last ∧
      last.taken = [(announced.bytes, .block "10.0.0.2:40000" block)] ∧
      brief.blockHash block ≠ announced ∧
      last.inserted = [block] ∧
      getBody .brief last.blockContainer (fun _ => none) (brief.blockHash block) = some ([5], []) ∧
      ¬ brief.Authentic block := by
  intro block announced
  have crcEq : checksumIEEE = RelayWire.brief.crc := rfl
  rw [crcEq]
  set frame := newMsg RelayWire.brief.crc blockMsg announced [1,0,0,5]
  have unread : ((briefStart frame).conns ()).reader.unread = frame ++ [] := by
    rw [briefStart_unread,append_nil]
  have small : ([1,0,0,5] : List UInt8).length < 2 ^ 24 - 4 := by decide
  have decoded : RelayWire.brief.decodeBlock [1,0,0,5] = some block := rfl
  have unknown : (briefStart frame).blockContainer.existByHash announced = false := rfl
  have ready : ((briefStart frame).conns ()).Ready := start_ready _ _ _
  have addrEq : ((briefStart frame).conns ()).addr = "10.0.0.2:40000" := rfl
  obtain ⟨after,relayed⟩ : ∃ after, step .brief .brief (.relay () false) (briefStart frame) = _ :=
    step_relay_block ready unread small decoded unknown
  rw [addrEq] at relayed
  obtain ⟨fetcher,looped,importing⟩ : ∃ fetcher,
      (briefStart frame).fetcher.loop .brief .plain (.inject "10.0.0.2:40000" block) =
        some fetcher ∧ fetcher.importing = [⟨"10.0.0.2:40000",block⟩] :=
    loop_inject_new .plain _ block
  rw [runAll_cons,relayed,bind_some,runAll_cons]
  have injected : ((briefStart frame).injecting ++ [⟨"10.0.0.2:40000",block⟩])[0]? =
      some (⟨"10.0.0.2:40000",block⟩ : BlockInject BriefHeader UInt8) := rfl
  simp only [step,injected,bind_eq_bind,bind_some,looped,
    Option.pure_def,runAll_cons,insertChain,importing]
  have served : getBody .brief ((FixedSizeBlockQueue.newFixedSizeBlockQueue 4).push
      brief.blockNumber brief.blockHash block) (fun _ => none)
      (brief.blockHash block) = some ([5], []) := by
    decide +kernel
  exact ⟨_,rfl,rfl,by decide,rfl,served,by decide⟩

end BlockSystem

end PioplatRelay
