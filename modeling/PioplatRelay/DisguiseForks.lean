import PioplatRelay.DisguiseClient
import PioplatRelay.ForkIds
import PioplatRelay.StepRuns
import PioplatRelay.TxPool

/-!
# Fork information from the full node

At its start the client asks the full node for the forks, the genesis hash and
the block number, and later for the block number alone, at most every two seconds.
`GetForkInfo` builds a new identifier and a new filter only when the exchange has
failed, so after a successful one it returns the pair of an earlier block number.
-/

namespace PioplatRelay

open LittleEndian

/-- The fields of `DisguiseClient` that concern forks, with the arrays that its
slices point into. -/
structure ForkClient where
  arrays : Arrays UInt64
  forks : SharedSlice
  genesisHash : Hash
  curBlockNumber : UInt64
  lastGetForkIdTime : AbsTime
  forkID : ForkID
  forkFilter : ForkFilter
  deriving DecidableEq

namespace ForkClient

open DisguiseClient (cmdSize lengthSize hashSize blockNumberSize command)

def forkNumberSize : Nat := 8

/-! ## Messages -/

inductive MsgError
  | invalidCommand
  | invalidLength
  deriving DecidableEq, Repr

inductive ForkMsg
  | all (genesisHash : Hash) (blockNumber : UInt64) (forks : List UInt64)
  | forks (forks : List UInt64)
  | genesis (genesisHash : Hash)
  | blockNumber (blockNumber : UInt64)
  deriving DecidableEq

def getGenesisMsg : List UInt8 := command ['1', '1', '0', '0']
def getBlockNumber : List UInt8 := command ['1', '2', '0', '0']
def getForksMsg : List UInt8 := command ['1', '3', '0', '0']
def getAllAbove : List UInt8 := command ['1', '4', '0', '0']

def readForks (buffer : List UInt8) (low high : Nat → Nat) : Nat → Nat → Option (List UInt64)
  | _, 0 => some []
  | i, count + 1 => do
      let bytes ← slice buffer (low i) (high i)
      let forks ← readForks buffer low high (i + 1) count
      return uint64 bytes :: forks

/-- `decodeMsg` up to its assignments, on the first bytes of a buffer.  The
message is a slice of the buffer and may be sliced up to the buffer's end;
`none` stands for the bounds panic.  The total length is a 32-bit number. -/
def parseMsg (buffer : List UInt8) (length : Nat) : Option (Except MsgError ForkMsg) :=
  let msg := buffer.take length
  if getAllAbove <+: msg then
    if length < cmdSize + lengthSize + hashSize + blockNumberSize then some (.error .invalidLength)
    else do
      let forksLength := uint32 (← slice buffer cmdSize ↑(cmdSize + lengthSize))
      let msgTotalLength : UInt32 := 48 + 8 * forksLength
      if length ≠ msgTotalLength.toNat then
        return .error .invalidLength
      let genesisHash ← slice buffer ↑(cmdSize + lengthSize) ↑(cmdSize + lengthSize + hashSize)
      let blockNumber ← slice buffer ↑(cmdSize + lengthSize + hashSize)
        ↑(cmdSize + lengthSize + hashSize + blockNumberSize)
      let offsite := cmdSize + lengthSize + hashSize + blockNumberSize
      let forks ← readForks buffer (fun i => offsite + i * forkNumberSize)
        (fun i => offsite + i * forkNumberSize + forkNumberSize) 0 forksLength.toNat
      return .ok (.all (Hash.zero.setBytes genesisHash) (uint64 blockNumber) forks)
  else if getForksMsg <+: msg then
    if length < cmdSize + lengthSize then some (.error .invalidLength)
    else do
      let forksLength := uint32 (← slice buffer cmdSize ↑(cmdSize + lengthSize))
      let msgTotalLength : UInt32 := 8 + 8 * forksLength
      if length ≠ msgTotalLength.toNat then
        return .error .invalidLength
      let forks ← readForks buffer (fun _ => cmdSize + lengthSize)
        (fun i => cmdSize + lengthSize + i * forkNumberSize) 1 forksLength.toNat
      return .ok (.forks forks)
  else if getGenesisMsg <+: msg then
    if length ≠ cmdSize + hashSize then some (.error .invalidCommand)
    else do
      let genesisHash ← slice buffer cmdSize ↑(cmdSize + hashSize)
      return .ok (.genesis (Hash.zero.setBytes genesisHash))
  else if getBlockNumber <+: msg then
    if length ≠ cmdSize + blockNumberSize then some (.error .invalidLength)
    else do
      let blockNumber ← slice buffer cmdSize ↑(cmdSize + blockNumberSize)
      return .ok (.blockNumber (uint64 blockNumber))
  else some (.error .invalidCommand)

variable (spare : Nat → Nat)

def setForks (dc : ForkClient) (forks : List UInt64) : ForkClient :=
  let stored := dc.forks.emptied.appendAll spare dc.arrays forks
  { dc with arrays := stored.1, forks := stored.2 }

def store (dc : ForkClient) : ForkMsg → ForkClient
  | .all genesisHash blockNumber forks =>
    setForks spare { dc with genesisHash := genesisHash, curBlockNumber := blockNumber } forks
  | .forks forks => setForks spare dc forks
  | .genesis genesisHash => { dc with genesisHash := genesisHash }
  | .blockNumber blockNumber => { dc with curBlockNumber := blockNumber }

/-- `decodeMsg`.  An error comes before any assignment. -/
def decodeMsg (buffer : List UInt8) (length : Nat) (dc : ForkClient) :
    Option (Except MsgError ForkClient) :=
  (parseMsg buffer length).map fun parsed => parsed.map (dc.store spare)

/-! ## The client -/

def rebuild (dc : ForkClient) : ForkClient :=
  let built := newFilterInDisguise spare dc.arrays dc.forks dc.genesisHash dc.curBlockNumber
  { dc with
    arrays := built.1
    forkFilter := built.2
    forkID := newIdInDisguise (dc.forks.contents built.1) dc.genesisHash dc.curBlockNumber }

def readInto (size : Nat) (bytes : List UInt8) : List UInt8 × Nat :=
  (copyAt (List.replicate size 0) 0 bytes, min size bytes.length)

def zeroClient : ForkClient where
  arrays := []
  forks := .nil
  genesisHash := .zero
  curBlockNumber := 0
  lastGetForkIdTime := 0
  forkID := ⟨⟨#[0, 0, 0, 0], rfl⟩, 0⟩
  forkFilter := ⟨[], .nil, 0⟩

/-- `CreateDisguise` on a connection that answers with some bytes.  A message
that does not decode ends the program. -/
def createDisguise (now : AbsTime) (bytes : List UInt8) : Option ForkClient :=
  let received := readInto 0x100 bytes
  match decodeMsg spare received.1 received.2 zeroClient with
  | some (.ok dc) => some (rebuild spare { dc with lastGetForkIdTime := now })
  | _ => none

/-- What happens on the connection during a call of `GetForkInfo`. -/
inductive ForkExchange
  | writeFailed
  | readFailed
  | received (bytes : List UInt8)

/-- A call of `GetForkInfo`: its readings of the clock, before and after the
exchange, and of the flag `connecting`. -/
structure ForkCall where
  now : AbsTime
  connecting : Bool
  exchange : ForkExchange
  doneAt : AbsTime

def Exchanges (dc : ForkClient) (call : ForkCall) : Prop :=
  2000000000 < call.now - dc.lastGetForkIdTime ∧ call.connecting = false

instance (dc : ForkClient) (call : ForkCall) : Decidable (dc.Exchanges call) :=
  inferInstanceAs (Decidable (_ ∧ _))

/-- `GetForkInfo`; it returns the identifier and the filter of the new state. -/
def getForkInfo (call : ForkCall) (dc : ForkClient) : Option ForkClient :=
  if dc.Exchanges call then
    match call.exchange with
    | .writeFailed => some dc
    | .readFailed => some (rebuild spare dc)
    | .received bytes =>
      let received := readInto 0x400 bytes
      match decodeMsg spare received.1 received.2 dc with
      | none => none
      | some (.error _) => some (rebuild spare dc)
      | some (.ok dc) => some { dc with lastGetForkIdTime := call.doneAt }
  else some dc

def getForkInfos : ForkClient → List ForkCall → Option ForkClient := runAll (getForkInfo spare)

variable {spare} {dc : ForkClient} {bytes : List UInt8} {msg : ForkMsg}

theorem decodeMsg_of_parsed {buffer : List UInt8} {length : Nat}
    (parsed : parseMsg buffer length = some (.ok msg)) :
    decodeMsg spare buffer length dc = some (.ok (dc.store spare msg)) := by
  rw [decodeMsg,parsed]
  rfl

theorem createDisguise_of_parsed {now : AbsTime}
    (parsed : parseMsg (readInto 0x100 bytes).1 (readInto 0x100 bytes).2 = some (.ok msg)) :
    createDisguise spare now bytes =
      some (rebuild spare { zeroClient.store spare msg with lastGetForkIdTime := now }) := by
  rw [createDisguise,decodeMsg_of_parsed parsed]

theorem getForkInfo_of_parsed {call : ForkCall} (exchanges : dc.Exchanges call)
    (exchanged : call.exchange = .received bytes)
    (parsed : parseMsg (readInto 0x400 bytes).1 (readInto 0x400 bytes).2 = some (.ok msg)) :
    getForkInfo spare call dc =
      some { dc.store spare msg with lastGetForkIdTime := call.doneAt } := by
  rw [getForkInfo,if_pos exchanges,exchanged]
  dsimp only
  rw [decodeMsg_of_parsed parsed]

end ForkClient

end PioplatRelay
