import PioplatRelay.RelayFrames
import PioplatRelay.SharedSlices

/-!
# Fork identifiers

A fork identifier is a checksum of the genesis hash and of the forks passed so
far, with the number of the next fork.  A filter judges the identifiers of
remote nodes.  Its list of forks ends in a sentinel that is appended to the
slice it was built from, so it may share its array with that slice.
-/

namespace PioplatRelay

structure ForkID where
  hash : Vector UInt8 4
  next : UInt64
  deriving DecidableEq

inductive ForkError
  | remoteStale
  | localIncompatibleOrStale
  deriving DecidableEq, Repr

def crc32Update (crc : UInt32) (bytes : List UInt8) : UInt32 :=
  ~~~ bytes.foldl (fun crc byte => divideBits 8 (crc ^^^ byte.toUInt32)) (~~~ crc)

def checksumUpdate (hash : UInt32) (fork : UInt64) : UInt32 :=
  crc32Update hash (LittleEndian.bytesOf 8 fork.toNat).reverse

def checksumToBytes (hash : UInt32) : Vector UInt8 4 :=
  ⟨⟨(LittleEndian.putUint32 hash).reverse⟩, by simp⟩

/-- The checksum of a genesis hash, and how it goes on with a fork number. -/
structure ForkChecksum where
  start : Hash → UInt32
  update : UInt32 → UInt64 → UInt32

def maxUint64 : UInt64 := 0xffffffffffffffff

/-- The body of a filter, with `none` for acceptance.  Its loop skips the forks
that the head has passed and decides at the first other one; where there is
none it accepts. -/
def validate (sums : List (Vector UInt8 4)) (forks : List UInt64) (head : UInt64) (id : ForkID) :
    Option ForkError :=
  match forks.findIdx? fun fork => head < fork with
  | none => none
  | some i =>
    if sums[i]? = some id.hash then
      if 0 < id.next ∧ id.next ≤ head then some .localIncompatibleOrStale else none
    else
      match (sums.take i).findIdx? fun sum => sum = id.hash with
      | some j => if forks[j]? = some id.next then none else some .remoteStale
      | none => if id.hash ∈ sums.drop (i + 1) then none else some .localIncompatibleOrStale

/-- The closure that `NewFilterInDisguise` returns. -/
structure ForkFilter where
  sums : List (Vector UInt8 4)
  forks : SharedSlice
  blockNumber : UInt64
  deriving DecidableEq

def ForkFilter.check (filter : ForkFilter) (arrays : Arrays UInt64) (id : ForkID) :
    Option ForkError :=
  validate filter.sums (filter.forks.contents arrays) filter.blockNumber id

namespace ForkChecksum

def ieee : ForkChecksum := ⟨fun genesis => checksumIEEE genesis.bytes, checksumUpdate⟩

variable (checksum : ForkChecksum)

/-- The loop of `NewIdInDisguise`: passed forks go into the checksum, and the
first other one is the next fork. -/
def idLoop (head : UInt64) : List UInt64 → UInt32 → ForkID
  | [], hash => ⟨checksumToBytes hash,0⟩
  | fork :: forks, hash =>
    if fork ≤ head then idLoop head forks (checksum.update hash fork)
    else ⟨checksumToBytes hash,fork⟩

def newIdInDisguise (forks : List UInt64) (genesis : Hash) (head : UInt64) : ForkID :=
  checksum.idLoop head forks (checksum.start genesis)

def sumsFrom : List UInt64 → UInt32 → List (Vector UInt8 4)
  | [], hash => [checksumToBytes hash]
  | fork :: forks, hash => checksumToBytes hash :: sumsFrom forks (checksum.update hash fork)

def sums (forks : List UInt64) (genesis : Hash) : List (Vector UInt8 4) :=
  checksum.sumsFrom forks (checksum.start genesis)

def newFilterInDisguise (spare : Nat → Nat) (arrays : Arrays UInt64) (forks : SharedSlice)
    (genesisHash : Hash) (blockNumber : UInt64) : Arrays UInt64 × ForkFilter :=
  let sums := checksum.sums (forks.contents arrays) genesisHash
  let appended := forks.append spare arrays maxUint64
  (appended.1, ⟨sums,appended.2,blockNumber⟩)

end ForkChecksum

def newIdInDisguise : List UInt64 → Hash → UInt64 → ForkID := ForkChecksum.ieee.newIdInDisguise

def newFilterInDisguise : (Nat → Nat) → Arrays UInt64 → SharedSlice → Hash → UInt64 →
    Arrays UInt64 × ForkFilter :=
  ForkChecksum.ieee.newFilterInDisguise

def forkVerdict (forks : List UInt64) (genesisHash : Hash) (blockNumber : UInt64) (id : ForkID) :
    Option ForkError :=
  validate (ForkChecksum.ieee.sums forks genesisHash) (forks ++ [maxUint64]) blockNumber id

/-- A filter as it was built from some forks, with its list unchanged. -/
structure ForkFilter.BuiltFrom (filter : ForkFilter) (arrays : Arrays UInt64)
    (forks : List UInt64) (genesisHash : Hash) (blockNumber : UInt64) : Prop where
  sums : filter.sums = ForkChecksum.ieee.sums forks genesisHash
  within : filter.forks.Within arrays
  contents : filter.forks.contents arrays = forks ++ [maxUint64]
  blockNumber : filter.blockNumber = blockNumber

theorem ForkFilter.BuiltFrom.check {filter : ForkFilter} {arrays : Arrays UInt64}
    {forks : List UInt64} {genesisHash : Hash} {blockNumber : UInt64}
    (built : filter.BuiltFrom arrays forks genesisHash blockNumber) (id : ForkID) :
    filter.check arrays id = forkVerdict forks genesisHash blockNumber id := by
  rw [ForkFilter.check,built.sums,built.contents,built.blockNumber]
  rfl

theorem newFilterInDisguise_builtFrom (spare : Nat → Nat) {arrays : Arrays UInt64}
    {forks : SharedSlice} (within : forks.Within arrays) (genesisHash : Hash)
    (blockNumber : UInt64) :
    (newFilterInDisguise spare arrays forks genesisHash blockNumber).2.BuiltFrom
      (newFilterInDisguise spare arrays forks genesisHash blockNumber).1
      (forks.contents arrays) genesisHash blockNumber :=
  ⟨rfl,within.append spare maxUint64,within.contents_append spare maxUint64,rfl⟩

end PioplatRelay
