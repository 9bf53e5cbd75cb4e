import PioplatRelay.BlockQueue
import PioplatRelay.StepRuns
import PioplatRelay.TxPool

/-!
# Starting the node

`Ethereum.Start` starts the fetchers, the relay server and its control server,
and only then installs the callbacks that their work calls.  A callback is never
called while it is nil exactly as long as the work that leads to it waits for its
statement.  Two kinds of work need not wait: a lookup by hash tests for nil, and
transactions of peers are dropped until a block has been imported.
-/

namespace PioplatRelay

open List Option

inductive Callback
  | setRatios
  | poolBroadcast
  | chainBroadcast
  | reqHeaderByHash
  | reqHeaderByHashAndNumber
  | reqHeaderByNumber
  | reqBlockBodyRlp
  | reqReceiptsByHash
  | reqTrieNodeByHash
  | reqContractCodeWithPrefix
  | reqAncestor
  | reqTotalDifficulty
  deriving DecidableEq

inductive StartStatement
  | startENRUpdater
  | checkLightPeers
  | setMaxPeers
  | startBroadcastLoops
  | startBlockFetcher
  | startTxFetcher
  | setupListening
  | goRun
  | goUdpLoop
  | goGinEngine
  | createPeri
  | startPeri
  | install (callback : Callback)
  deriving DecidableEq

/-- The statements of `Start`, with those of the functions it calls. -/
def startStatements : List StartStatement :=
  [.startENRUpdater, .checkLightPeers, .setMaxPeers, .startBroadcastLoops, .startBlockFetcher,
    .startTxFetcher, .setupListening, .goRun, .goUdpLoop, .goGinEngine, .createPeri, .startPeri,
    .install .setRatios, .install .poolBroadcast, .install .chainBroadcast,
    .install .reqHeaderByHash, .install .reqHeaderByHashAndNumber, .install .reqHeaderByNumber,
    .install .reqBlockBodyRlp, .install .reqReceiptsByHash, .install .reqTrieNodeByHash,
    .install .reqContractCodeWithPrefix, .install .reqAncestor, .install .reqTotalDifficulty]

inductive ChainLookup
  | headerByHash (hash : Hash)
  | header (hash : Hash) (number : UInt64)
  | headerByNumber (number : UInt64)
  | ancestor
  | bodyRLP (hash : Hash)
  | receiptsByHash
  | contractCodeWithPrefix
  | trieNode

def ChainLookup.callback : ChainLookup → Callback
  | .headerByHash _ => .reqHeaderByHash
  | .header _ _ => .reqHeaderByHashAndNumber
  | .headerByNumber _ => .reqHeaderByNumber
  | .ancestor => .reqAncestor
  | .bodyRLP _ => .reqBlockBodyRlp
  | .receiptsByHash => .reqReceiptsByHash
  | .contractCodeWithPrefix => .reqContractCodeWithPrefix
  | .trieNode => .reqTrieNodeByHash

def ChainLookup.misses {Block : Type*} (container : FixedSizeBlockQueue Block) :
    ChainLookup → Bool
  | .headerByHash hash => !container.existByHash hash
  | .header _ number => (container.uniqueNumbers.lookup number).isNone
  | .headerByNumber number =>
    match container.uniqueNumbers.lookup number with
    | some [_] => false
    | _ => true
  | .bodyRLP hash => !container.existByHash hash
  | .ancestor => true
  | .receiptsByHash => true
  | .contractCodeWithPrefix => true
  | .trieNode => true

/-- Only the lookup by hash tests its callback for nil. -/
def ChainLookup.tested : ChainLookup → Bool
  | .headerByHash _ => true
  | _ => false

/-- A request to `/ratios`, with what `ParseFloat` makes of its numbers. -/
structure RatiosRequest (Ratio : Type*) where
  token : String
  ratioReplace : Option Ratio
  ratioBlock : Option Ratio
  ratioTx : Option Ratio

/-- What a node is built from.  `inRange` is the test of the sum in floating-point
arithmetic. -/
structure NodeParams (Block Tx Ratio : Type*) where
  number : Block → UInt64
  blockHash : Block → Hash
  txHash : Tx → Hash
  maxPeers : Int
  lightServ : Int
  lightPeers : Int
  adminToken : String
  inRange : Ratio → Ratio → Ratio → Bool

/-- `setPeriRatio` comes to its last statements. -/
def RatiosRequest.valid {Block Tx Ratio : Type*} (params : NodeParams Block Tx Ratio)
    (request : RatiosRequest Ratio) : Bool :=
  if request.token = params.adminToken then
    match request.ratioReplace, request.ratioBlock, request.ratioTx with
    | some ratio0, some ratio1, some ratio2 => params.inRange ratio0 ratio1 ratio2
    | _, _, _ => false
  else false

/-- The node while it starts, with the calls of nil so far. -/
structure StartingNode (Block Tx : Type*) where
  executed : List StartStatement := []
  todo : List StartStatement := startStatements
  installed : Finset Callback := ∅
  maxPeers : Int := 0
  peers : Nat := 0
  fetching : Bool := false
  serving : Bool := false
  datagrams : Bool := false
  controlled : Bool := false
  acceptTxs : Bool := false
  /-- The blocks that are on their way through the block fetcher. -/
  injected : List Block := []
  container : FixedSizeBlockQueue Block
  pool : TxPool Tx
  running : Bool := true
  nilCalls : List Callback := []

inductive NodeAction (Block Tx Ratio : Type*)
  /-- `Start` executes its next statement; a listener may fail to open. -/
  | start (succeeds : Bool)
  | connect (trusted : Bool)
  | disconnect
  | peerBlock (block : Block)
  | relayBlock (block : Block)
  | importBlock (i : Nat)
  | peerTxs (txs : List Tx) (now : AbsTime)
  | relayTx (tx : Tx) (now : AbsTime)
  | lookup (lookup : ChainLookup)
  | nodeInfo
  | postRatios (request : RatiosRequest Ratio)

namespace StartingNode

variable {Block Tx Ratio : Type*} (params : NodeParams Block Tx Ratio)

def execute (succeeds : Bool) (statement : StartStatement) (node : StartingNode Block Tx) :
    StartingNode Block Tx :=
  match statement with
  | .checkLightPeers =>
    -- `Start` returns an error, and none of the later statements is executed.
    if 0 < params.lightServ ∧ params.maxPeers ≤ params.lightPeers then { node with todo := [] }
    else node
  | .setMaxPeers =>
    { node with
      maxPeers := if 0 < params.lightServ then params.maxPeers - params.lightPeers
        else params.maxPeers }
  | .startBlockFetcher => { node with fetching := true }
  | .setupListening =>
    -- An error ends the process.
    if succeeds then node else { node with running := false }
  | .goRun => { node with serving := true }
  | .goUdpLoop => { node with datagrams := true }
  | .goGinEngine => { node with controlled := true }
  | .install callback => { node with installed := insert callback node.installed }
  | _ => node

/-- Call a function field.  A call of nil ends the process, except in the control
server, which recovers. -/
def invoke (callback : Callback) (node after : StartingNode Block Tx) : StartingNode Block Tx :=
  if callback ∈ node.installed then after
  else
    { node with
      nilCalls := callback :: node.nilCalls
      running := decide (callback = .setRatios) }

/-- `InsertChain` for one block, and the mark that the inserter sets. -/
def enqueueNewBlock (block : Block) (node : StartingNode Block Tx) : StartingNode Block Tx :=
  if node.container.exist params.blockHash (params.blockHash block) (params.number block) then
    { node with acceptTxs := true }
  else
    node.invoke .chainBroadcast
      { node with
        acceptTxs := true
        container := node.container.push params.number params.blockHash block }

def addRemotes (txs : List Tx) (now : AbsTime) (node : StartingNode Block Tx) :
    StartingNode Block Tx :=
  node.invoke .poolBroadcast
    { node with pool := (node.pool.addRemotes params.txHash now txs).2 }

def answer (lookup : ChainLookup) (node : StartingNode Block Tx) : StartingNode Block Tx :=
  if lookup.misses node.container ∧ (lookup.tested → lookup.callback ∈ node.installed) then
    node.invoke lookup.callback node
  else node

def act (action : NodeAction Block Tx Ratio) (node : StartingNode Block Tx) :
    Option (StartingNode Block Tx) :=
  match action with
  | .start succeeds =>
    match node.todo with
    | [] => none
    | statement :: todo =>
      some (execute params succeeds statement
        { node with executed := node.executed ++ [statement], todo })
  | .connect trusted =>
    if trusted ∨ (node.peers : Int) < node.maxPeers then some { node with peers := node.peers + 1 }
    else none
  | .disconnect => if 0 < node.peers then some { node with peers := node.peers - 1 } else none
  | .peerBlock block =>
    if 0 < node.peers then some { node with injected := node.injected ++ [block] } else none
  | .relayBlock block =>
    if node.serving ∧ node.container.existByHash (params.blockHash block) = false then
      some { node with injected := node.injected ++ [block] }
    else none
  | .importBlock i =>
    match node.injected[i]? with
    | some block =>
      if node.fetching then
        some (enqueueNewBlock params block
          { node with injected := node.injected.eraseIdx i })
      else none
    | none => none
  | .peerTxs txs now =>
    if 0 < node.peers then some (if node.acceptTxs then node.addRemotes params txs now else node)
    else none
  | .relayTx tx now =>
    if (node.serving ∨ node.datagrams) ∧ node.pool.has (params.txHash tx) = false then
      some (node.addRemotes params [tx] now)
    else none
  | .lookup lookup => if 0 < node.peers then some (node.answer lookup) else none
  | .nodeInfo => some (node.invoke .reqTotalDifficulty node)
  | .postRatios request =>
    if node.controlled then
      some (if request.valid params then node.invoke .setRatios node else node)
    else none

/-- Nothing happens any more in a process that has ended. -/
def step (action : NodeAction Block Tx Ratio) (node : StartingNode Block Tx) :
    Option (StartingNode Block Tx) :=
  if node.running then node.act params action else none

def beginning (capacity : Nat) (expirePeriod : AbsTime) : StartingNode Block Tx where
  container := .newFixedSizeBlockQueue capacity
  pool := .newTxPool expirePeriod

def NoNilCall (node : StartingNode Block Tx) : Prop := node.nilCalls = []

/-- The work waits for the statement that installs the callback it leads to. -/
def Waits (node : StartingNode Block Tx) : NodeAction Block Tx Ratio → Prop
  | .importBlock i => ∀ block, node.injected[i]? = some block →
      node.container.exist params.blockHash (params.blockHash block) (params.number block) = false →
      .install .chainBroadcast ∈ node.executed
  | .relayTx _ _ => .install .poolBroadcast ∈ node.executed
  | .lookup lookup => lookup.misses node.container = true → lookup.tested = false →
      .install lookup.callback ∈ node.executed
  | .nodeInfo => .install .reqTotalDifficulty ∈ node.executed
  | .postRatios request => request.valid params = true → .install .setRatios ∈ node.executed
  | _ => True

structure Kept (node : StartingNode Block Tx) : Prop where
  noNilCall : node.NoNilCall
  ordered : node.executed ++ node.todo <+: startStatements
  installs : ∀ callback, callback ∈ node.installed ↔ .install callback ∈ node.executed
  /-- Blocks are accepted only with the callback for them in place. -/
  imported : node.acceptTxs = true ∨
    (∃ hash number, node.container.exist params.blockHash hash number = true) →
    .chainBroadcast ∈ node.installed

variable {params} {node next : StartingNode Block Tx} {action : NodeAction Block Tx Ratio}

theorem beginning_kept (capacity : Nat) (expirePeriod : AbsTime) :
    Kept params (beginning capacity expirePeriod) where
  noNilCall := rfl
  ordered := prefix_rfl
  installs := by simp [beginning]
  imported := by
    simp [beginning,FixedSizeBlockQueue.newFixedSizeBlockQueue,FixedSizeBlockQueue.exist]

/-- In every part of `Start` the pool's callback comes before the chain's. -/
theorem pool_before_chain {front : List StartStatement} (isPrefix : front <+: startStatements)
    (chain : .install .chainBroadcast ∈ front) : .install .poolBroadcast ∈ front := by
  rw [prefix_iff_eq_take] at isPrefix
  have bounded : front.length < 25 := by
    have short := congrArg length isPrefix
    have whole : startStatements.length = 24 := rfl
    rw [length_take,whole] at short
    omega
  generalize front.length = length at isPrefix bounded
  subst isPrefix
  revert chain
  decide +revert

theorem Kept.pool_of_chain (kept : Kept params node) (chain : .chainBroadcast ∈ node.installed) :
    .poolBroadcast ∈ node.installed := by
  rw [kept.installs] at chain ⊢
  exact pool_before_chain ((prefix_append _ _).trans kept.ordered) chain

theorem invoke_of_installed {callback : Callback} (installed : callback ∈ node.installed)
    (after : StartingNode Block Tx) : node.invoke callback after = after :=
  if_pos installed

theorem invoke_of_nil {callback : Callback} (missing : callback ∉ node.installed)
    (after : StartingNode Block Tx) : ¬ (node.invoke callback after).NoNilCall := by
  rw [invoke,if_neg missing]
  exact cons_ne_nil _ _

theorem kept_of_same (kept : Kept params node) (noNilCall : next.nilCalls = node.nilCalls)
    (ordered : next.executed ++ next.todo <+: startStatements)
    (installs : ∀ callback, callback ∈ next.installed ↔ .install callback ∈ next.executed)
    (more : node.installed ⊆ next.installed) (acceptTxs : next.acceptTxs = node.acceptTxs)
    (container : next.container = node.container) : Kept params next where
  noNilCall := noNilCall.trans kept.noNilCall
  ordered := ordered
  installs := installs
  imported := by
    rw [acceptTxs,container]
    exact fun imported => more (kept.imported imported)

theorem start_kept (kept : Kept params node) {statement : StartStatement}
    {todo : List StartStatement} (todoEq : node.todo = statement :: todo) (succeeds : Bool) :
    Kept params (execute params succeeds statement
      { node with executed := node.executed ++ [statement], todo }) := by
  have ordered : (node.executed ++ [statement]) ++ todo <+: startStatements := by
    rw [append_assoc,singleton_append,← todoEq]
    exact kept.ordered
  have front : (node.executed ++ [statement]) ++ [] <+: startStatements := by
    rw [append_nil]
    exact (prefix_append _ _).trans ordered
  have installs : (∀ callback, statement ≠ .install callback) → ∀ callback,
      callback ∈ node.installed ↔ .install callback ∈ node.executed ++ [statement] := by
    intro other callback
    rw [mem_append,mem_singleton,kept.installs,or_iff_left (Ne.symm (other callback))]
  cases statement with
  | install callback =>
    refine kept_of_same kept rfl ordered ?_ (Finset.subset_insert _ _) rfl rfl
    intro other
    change other ∈ insert callback node.installed ↔
      StartStatement.install other ∈ node.executed ++ [.install callback]
    rw [Finset.mem_insert,mem_append,mem_singleton,kept.installs,
      StartStatement.install.injEq,or_comm]
  | checkLightPeers =>
    rw [execute]
    split
    · exact kept_of_same kept rfl front (installs (by simp)) subset_rfl rfl rfl
    · exact kept_of_same kept rfl ordered (installs (by simp)) subset_rfl rfl rfl
  | setupListening =>
    rw [execute]
    split
    · exact kept_of_same kept rfl ordered (installs (by simp)) subset_rfl rfl rfl
    · exact kept_of_same kept rfl ordered (installs (by simp)) subset_rfl rfl rfl
  | _ => exact kept_of_same kept rfl ordered (installs (by simp)) subset_rfl rfl rfl

theorem enqueueNewBlock_kept (kept : Kept params node) {block : Block}
    (waits : node.container.exist params.blockHash (params.blockHash block)
      (params.number block) = false → .chainBroadcast ∈ node.installed) :
    Kept params (node.enqueueNewBlock params block) := by
  rw [enqueueNewBlock]
  split
  · rename_i there
    have installed := kept.imported (Or.inr ⟨_,_,there⟩)
    exact { kept with imported := fun _ => installed }
  · rename_i missing
    have installed := waits (by simpa using missing)
    rw [invoke_of_installed installed]
    exact { kept with imported := fun _ => installed }

theorem enqueueNewBlock_hurried {block : Block}
    (missing : node.container.exist params.blockHash (params.blockHash block)
      (params.number block) = false) (uninstalled : .chainBroadcast ∉ node.installed) :
    ¬ (node.enqueueNewBlock params block).NoNilCall := by
  rw [enqueueNewBlock,if_neg (by simp [missing])]
  exact invoke_of_nil uninstalled _

theorem addRemotes_kept (kept : Kept params node) (installed : .poolBroadcast ∈ node.installed)
    (txs : List Tx) (now : AbsTime) : Kept params (node.addRemotes params txs now) := by
  rw [addRemotes,invoke_of_installed installed]
  exact { kept with }

theorem answer_kept (kept : Kept params node) {lookup : ChainLookup}
    (waits : lookup.misses node.container = true → lookup.tested = false →
      lookup.callback ∈ node.installed) : Kept params (node.answer lookup) := by
  rw [answer]
  split
  · rename_i asks
    have installed : lookup.callback ∈ node.installed := by
      cases testedEq : lookup.tested with
      | true => exact asks.2 testedEq
      | false => exact waits asks.1 testedEq
    rw [invoke_of_installed installed]
    exact kept
  · exact kept

theorem importBlock_of_act {i : Nat} (acted : node.act params (.importBlock i) = some next) :
    ∃ block, node.injected[i]? = some block ∧
      next = enqueueNewBlock params block { node with injected := node.injected.eraseIdx i } := by
  simp only [act] at acted
  split at acted
  · rename_i block there
    rw [ite_none_right_eq_some,some.injEq] at acted
    exact ⟨block,there,acted.2.symm⟩
  · cases acted

theorem act_kept (kept : Kept params node) (waits : Waits params node action)
    (acted : node.act params action = some next) : Kept params next := by
  cases action with
  | start succeeds =>
    simp only [act] at acted
    split at acted
    · cases acted
    · rename_i statement todo todoEq
      cases acted
      exact start_kept kept todoEq succeeds
  | importBlock i =>
    rcases importBlock_of_act acted with ⟨block,there,rfl⟩
    have sameNode : Kept params { node with injected := node.injected.eraseIdx i } :=
      { kept with }
    apply enqueueNewBlock_kept sameNode
    intro missing
    exact (kept.installs _).mpr (waits block there missing)
  | peerTxs txs now =>
    simp only [act,ite_none_right_eq_some,some.injEq] at acted
    rcases acted with ⟨-,rfl⟩
    split
    · rename_i accepts
      exact addRemotes_kept kept (kept.pool_of_chain (kept.imported (Or.inl accepts))) txs now
    · exact kept
  | relayTx tx now =>
    simp only [act,ite_none_right_eq_some,some.injEq] at acted
    rcases acted with ⟨-,rfl⟩
    exact addRemotes_kept kept ((kept.installs _).mpr waits) [tx] now
  | lookup lookup =>
    simp only [act,ite_none_right_eq_some,some.injEq] at acted
    rcases acted with ⟨-,rfl⟩
    exact answer_kept kept fun misses untested => (kept.installs _).mpr (waits misses untested)
  | nodeInfo =>
    cases acted
    rw [invoke_of_installed ((kept.installs _).mpr waits)]
    exact kept
  | postRatios request =>
    simp only [act,ite_none_right_eq_some,some.injEq] at acted
    rcases acted with ⟨-,rfl⟩
    split
    · rename_i valid
      rw [invoke_of_installed ((kept.installs _).mpr (waits valid))]
      exact kept
    · exact kept
  | connect | disconnect | peerBlock | relayBlock =>
    -- Neither the callbacks nor the accepted blocks change.
    simp only [act,ite_none_right_eq_some,some.injEq] at acted
    rcases acted with ⟨-,rfl⟩
    exact { kept with }

theorem act_hurried (kept : Kept params node) (hurried : ¬ Waits params node action)
    (acted : node.act params action = some next) : ¬ next.NoNilCall := by
  cases action with
  | importBlock i =>
    simp only [Waits,not_forall,← kept.installs] at hurried
    rcases hurried with ⟨block,there,missing,uninstalled⟩
    rcases importBlock_of_act acted with ⟨_,there',rfl⟩
    cases there.symm.trans there'
    exact enqueueNewBlock_hurried missing uninstalled
  | relayTx tx now =>
    simp only [Waits,← kept.installs] at hurried
    simp only [act,ite_none_right_eq_some,some.injEq] at acted
    rcases acted with ⟨-,rfl⟩
    exact invoke_of_nil hurried _
  | lookup lookup =>
    simp only [Waits,not_forall,← kept.installs] at hurried
    rcases hurried with ⟨misses,untested,uninstalled⟩
    simp only [act,ite_none_right_eq_some,some.injEq] at acted
    rcases acted with ⟨-,rfl⟩
    rw [answer,if_pos ⟨misses,by simp [untested]⟩]
    exact invoke_of_nil uninstalled _
  | nodeInfo =>
    simp only [Waits,← kept.installs] at hurried
    cases acted
    exact invoke_of_nil hurried _
  | postRatios request =>
    simp only [Waits,not_forall,← kept.installs] at hurried
    rcases hurried with ⟨valid,uninstalled⟩
    simp only [act,ite_none_right_eq_some,some.injEq] at acted
    rcases acted with ⟨-,rfl⟩
    rw [if_pos valid]
    exact invoke_of_nil uninstalled _
  | _ => exact absurd trivial hurried

theorem act_of_step (stepped : node.step params action = some next) :
    node.act params action = some next := by
  rw [step] at stepped
  split at stepped
  · exact stepped
  · cases stepped

/-- In every interleaving of `Start` with incoming work no callback is called
while it is nil exactly as long as the work waits. -/
theorem noNilCall_iff_waits (params : NodeParams Block Tx Ratio) (capacity : Nat)
    (expirePeriod : AbsTime) (schedule : List (NodeAction Block Tx Ratio)) :
    Always (step params) NoNilCall (beginning capacity expirePeriod) schedule ↔
      Guarded (step params) (Waits params) (beginning capacity expirePeriod) schedule :=
  always_iff_guarded
    (fun _ _ _ kept waits stepped => act_kept kept waits (act_of_step stepped))
    (fun _ => Kept.noNilCall)
    (fun _ _ _ kept hurried stepped => act_hurried kept hurried (act_of_step stepped))
    (beginning_kept capacity expirePeriod)

def byteParams : NodeParams UInt8 UInt8 Unit where
  number := UInt8.toUInt64
  blockHash := ObjectCodec.byte.hash
  txHash := ObjectCodec.byte.hash
  maxPeers := 50
  lightServ := 0
  lightPeers := 0
  adminToken := "secret"
  inRange _ _ _ := true

/-- A relay connects as soon as the server runs, and sends a transaction before
`Start` has installed the pool's callback. -/
theorem relay_transaction_calls_nil : ∃ last, runAll (step byteParams) (beginning 128 5)
      (replicate 8 (.start true) ++ [.relayTx 7 0]) = some last ∧
    last.nilCalls = [.poolBroadcast] ∧ last.running = false :=
  ⟨_,rfl,rfl,rfl⟩

end StartingNode

end PioplatRelay
