import PioplatRelay.NetSets
import PioplatRelay.StepRuns

/-!
# The address limits of the discovery table

The table of the node discovery keeps nodes in buckets by their distance, each bucket
with a list of replacements.  To keep one network from filling it, the table and each
bucket count the addresses of their nodes by subnet.  This file models the operations
that move nodes or change their addresses.
-/

namespace PioplatRelay.Discovery

open NetUtil

abbrev ID := Vector UInt8 32

structure Node where
  id : ID
  ip : IP
  seq : Nat
  deriving DecidableEq

def bucketSize : Nat := 16
def maxReplacements : Nat := 10
def hashBits : Nat := 32 * 8
abbrev nBuckets : Nat := 17
def bucketMinDistance : Nat := hashBits - nBuckets

abbrev bucketIPLimit : Nat := 2
abbrev bucketSubnet : Nat := 24
abbrev tableIPLimit : Nat := 10
abbrev tableSubnet : Nat := 24

def leadingZeros : List UInt8 → Nat
  | [] => 0
  | x :: xs => if x = 0 then 8 + leadingZeros xs else 7 - Nat.log2 x.toNat

def logDist (a b : ID) : Nat := hashBits - leadingZeros (List.zipWith (· ^^^ ·) a.toList b.toList)

structure Bucket where
  entries : List Node
  replacements : List Node
  ips : DistinctNetSet bucketSubnet bucketIPLimit

/-- A bucket together with the counters of the table: what the operations on one
bucket change. -/
structure Slot where
  ips : DistinctNetSet tableSubnet tableIPLimit
  bucket : Bucket

def contains (nodes : List Node) (id : ID) : Bool := nodes.any fun node => decide (node.id = id)

def pushNode (list : List Node) (n : Node) (max : Nat) : List Node × Option Node :=
  if list.length < max then (n :: list, none) else (n :: list.dropLast, list.getLast?)

def deleteNode (list : List Node) (n : Node) : List Node :=
  list.eraseP fun node => decide (node.id = n.id)

namespace Slot

variable (s : Slot)

def addIP (ip : IP) : Bool × Slot :=
  if ip.length = 0 then (false, s)
  else if isLAN ip then (true, s)
  else
    let table := s.ips.add ip
    if !table.1 then (false, s)
    else
      let bucket := s.bucket.ips.add ip
      if !bucket.1 then (false, { s with ips := table.2.remove ip })
      else (true, { ips := table.2, bucket := { s.bucket with ips := bucket.2 } })

def removeIP (ip : IP) : Slot :=
  if isLAN ip then s
  else { ips := s.ips.remove ip, bucket := { s.bucket with ips := s.bucket.ips.remove ip } }

variable (n : Node)

def addReplacement : Slot :=
  if contains s.bucket.replacements n.id then s
  else
    let added := s.addIP n.ip
    if !added.1 then added.2
    else
      let pushed := pushNode added.2.bucket.replacements n maxReplacements
      let after : Slot :=
        { added.2 with bucket := { added.2.bucket with replacements := pushed.1 } }
      match pushed.2 with
      | none => after
      | some removed => after.removeIP removed.ip

def moveToFront : Slot :=
  { s with bucket := { s.bucket with entries := n :: deleteNode s.bucket.entries n } }

def bumpInBucket : Bool × Slot :=
  match s.bucket.entries.find? fun entry => decide (entry.id = n.id) with
  | none => (false, s)
  | some entry =>
    if !equal n.ip entry.ip then
      let added := (s.removeIP entry.ip).addIP n.ip
      if !added.1 then (false, (added.2.addIP entry.ip).2)
      else (true, added.2.moveToFront n)
    else (true, s.moveToFront n)

def deleteInBucket : Slot :=
  { s with bucket := { s.bucket with
      entries := deleteNode s.bucket.entries n } }.removeIP n.ip

/-- The draw is what `rand` gives before it is reduced to the length of the list. -/
def replace (last : Node) (draw : Nat) : Slot × Option Node :=
  match s.bucket.entries.getLast? with
  | none => (s, none)
  | some entry =>
    if entry.id ≠ last.id then (s, none)
    else
      match s.bucket.replacements[draw % s.bucket.replacements.length]? with
      | none => (s.deleteInBucket last, none)
      | some r =>
        ({ s with bucket := { s.bucket with
            replacements := deleteNode s.bucket.replacements r
            entries := s.bucket.entries.dropLast ++ [r] } }.removeIP last.ip, some r)

def addSeenNode : Slot :=
  if contains s.bucket.entries n.id then s
  else if bucketSize ≤ s.bucket.entries.length then s.addReplacement n
  else
    let added := s.addIP n.ip
    if !added.1 then added.2
    else
      { added.2 with bucket := { added.2.bucket with
          entries := added.2.bucket.entries ++ [n]
          replacements := deleteNode added.2.bucket.replacements n } }

def addVerifiedNode : Slot :=
  let bumped := s.bumpInBucket n
  if bumped.1 then bumped.2
  else if bucketSize ≤ bumped.2.bucket.entries.length then bumped.2.addReplacement n
  else
    let added := bumped.2.addIP n.ip
    if !added.1 then added.2
    else
      { added.2 with bucket := { added.2.bucket with
          entries := (pushNode added.2.bucket.entries n bucketSize).1
          replacements := deleteNode added.2.bucket.replacements n } }

def revalidated (last : Node) (failed : Bool) (draw : Nat) : Slot :=
  if failed then (s.replace last draw).1 else (s.bumpInBucket last).2

end Slot

/-- The table, whether it is initialised, and the revalidation that is under way. -/
structure Table where
  self : ID
  buckets : Fin nBuckets → Bucket
  ips : DistinctNetSet tableSubnet tableIPLimit
  initDone : Bool
  revalidating : Option (Node × Fin nBuckets)

namespace Table

def bucketAtDistance (d : Nat) (le : d ≤ hashBits) : Fin nBuckets :=
  if above : d ≤ bucketMinDistance then 0
  else ⟨d - bucketMinDistance - 1, by
    simp only [bucketMinDistance,hashBits] at *
    omega⟩

variable (tab : Table)

def bucket (id : ID) : Fin nBuckets := bucketAtDistance (logDist tab.self id) (Nat.sub_le _ _)

def slot (bi : Fin nBuckets) : Slot := ⟨tab.ips,tab.buckets bi⟩

def put (bi : Fin nBuckets) (s : Slot) : Table :=
  { tab with ips := s.ips, buckets := Function.update tab.buckets bi s.bucket }

def addSeenNode (n : Node) : Table :=
  if n.id = tab.self then tab
  else tab.put (tab.bucket n.id) ((tab.slot (tab.bucket n.id)).addSeenNode n)

def addVerifiedNode (n : Node) : Table :=
  if !tab.initDone then tab
  else if n.id = tab.self then tab
  else tab.put (tab.bucket n.id) ((tab.slot (tab.bucket n.id)).addVerifiedNode n)

def delete (n : Node) : Table :=
  tab.put (tab.bucket n.id) ((tab.slot (tab.bucket n.id)).deleteInBucket n)

/-- The record that a revalidation ends with: a newer one if the node has announced it
and delivered it. -/
def currentRecord (last : Node) (remoteSeq : Nat) (record : Option Node) : Node :=
  if last.seq < remoteSeq then record.getD last else last

inductive Action where
  | addSeenNode (n : Node)
  | addVerifiedNode (n : Node)
  | delete (n : Node)
  | initialised
  | nodeToRevalidate (bi : Fin nBuckets)
  | revalidated (remoteSeq : Nat) (failed : Bool) (record : Option Node) (draw : Nat)

/-- One operation under the lock.  A revalidation takes the lock twice; any bucket that is
not empty may come first in the random order. -/
def step (action : Action) (tab : Table) : Option Table :=
  match action with
  | .addSeenNode n => some (tab.addSeenNode n)
  | .addVerifiedNode n => some (tab.addVerifiedNode n)
  | .delete n => some (tab.delete n)
  | .initialised => some { tab with initDone := true }
  | .nodeToRevalidate bi =>
    match tab.revalidating, (tab.buckets bi).entries.getLast? with
    | none, some last => some { tab with revalidating := some (last, bi) }
    | _, _ => none
  | .revalidated remoteSeq failed record draw =>
    match tab.revalidating with
    | none => none
    | some (last, bi) =>
      some { tab.put bi ((tab.slot bi).revalidated
        (currentRecord last remoteSeq record) failed draw) with revalidating := none }

def newTable (self : ID) : Table where
  self := self
  buckets _ := ⟨[], [], ⟨∅⟩⟩
  ips := ⟨∅⟩
  initDone := false
  revalidating := none

end Table

end PioplatRelay.Discovery
