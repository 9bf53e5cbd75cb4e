import Mathlib.Algebra.GroupWithZero.Nat
import Mathlib.Data.Fintype.BigOperators
import PioplatRelay.DiscoveryTable

/-!
# Counters of the discovery table

The counters agree with the lists as long as every address that is taken out of the
counters is that of the node that leaves the lists.  Two operations do not ensure this.
Joining the entries drops a replacement with the same id but keeps its address counted,
and a deletion takes out the address that its caller believes the node to have.
-/

namespace PioplatRelay.Discovery

open NetUtil Function Slot Nat Option DistinctNetSet
open List hiding Vector

def weight (ip : IP) (subnet : IP) : Nat :=
  if isLAN ip = false ∧ key tableSubnet ip = subnet then 1 else 0

def nodeCount (nodes : List Node) (subnet : IP) : Nat :=
  (nodes.map fun node => weight node.ip subnet).sum

theorem weight_le_one (ip subnet : IP) : weight ip subnet ≤ 1 := by
  rw [weight]
  split <;> omega

theorem weight_of_isLAN {ip : IP} (lan : isLAN ip = true) (subnet : IP) : weight ip subnet = 0 := by
  rw [weight,if_neg]
  rw [lan]
  exact fun both => Bool.noConfusion both.1

theorem weight_self {ip : IP} (wan : isLAN ip = false) : weight ip (key tableSubnet ip) = 1 :=
  if_pos ⟨wan,rfl⟩

theorem weight_congr {ip x : IP} (isEqual : equal ip x = true) (subnet : IP) :
    weight ip subnet = weight x subnet := by
  rw [weight,weight,isLAN_eq_of_equal isEqual,key_eq_of_equal isEqual]

@[simp]
theorem nodeCount_nil (subnet : IP) : nodeCount [] subnet = 0 := rfl

@[simp]
theorem nodeCount_cons (node : Node) (nodes : List Node) (subnet : IP) :
    nodeCount (node :: nodes) subnet = weight node.ip subnet + nodeCount nodes subnet :=
  rfl

@[simp]
theorem nodeCount_append (front back : List Node) (subnet : IP) :
    nodeCount (front ++ back) subnet = nodeCount front subnet + nodeCount back subnet := by
  simp [nodeCount]

theorem nodeCount_perm {nodes others : List Node} (perm : nodes.Perm others) (subnet : IP) :
    nodeCount nodes subnet = nodeCount others subnet :=
  (perm.map _).sum_eq

theorem update_weight {ip : IP} (wan : isLAN ip = false) (count : IP → Nat) (op : Nat → Nat → Nat)
    (op_zero : ∀ number, op number 0 = number) :
    Function.update count (key tableSubnet ip) (op (count (key tableSubnet ip)) 1) =
      fun subnet => op (count subnet) (weight ip subnet) := by
  funext subnet
  rw [update_apply,weight]
  by_cases same : subnet = key tableSubnet ip
  · rw [if_pos same,if_pos ⟨wan,same.symm⟩,same]
  · rw [if_neg same,if_neg fun both => same both.2.symm,op_zero]

namespace Slot

def nodes (s : Slot) : List Node := s.bucket.entries ++ s.bucket.replacements

variable (others : IP → Nat) (nodes : List Node)

structure Counted (s : Slot) : Prop where
  table : Counts s.ips.members fun subnet => others subnet + nodeCount nodes subnet
  bucket : Counts s.bucket.ips.members (nodeCount nodes)

/-- These nodes and those of the other buckets keep the limits. -/
structure Limited : Prop where
  table_le : ∀ subnet, others subnet + nodeCount nodes subnet ≤ tableIPLimit
  bucket_le : ∀ subnet, nodeCount nodes subnet ≤ bucketIPLimit

def Room (ip : IP) : Prop :=
  ip.length ≠ 0 ∧ (isLAN ip = false →
    others (key tableSubnet ip) + nodeCount nodes (key tableSubnet ip) < tableIPLimit ∧
      nodeCount nodes (key tableSubnet ip) < bucketIPLimit)

variable {others : IP → Nat} {nodes : List Node} {s : Slot}

variable {after list : List Node} {n : Node}

theorem Counted.congr (counted : Counted others nodes s)
    (same : ∀ subnet, nodeCount nodes subnet = nodeCount after subnet) :
    Counted others after s := by
  obtain ⟨table,bucket⟩ := counted
  rw [funext same] at bucket
  simp only [same] at table
  exact ⟨table,bucket⟩

theorem Counted.of_ips_eq (counted : Counted others nodes s) {other : Slot}
    (table : other.ips = s.ips) (bucket : other.bucket.ips = s.bucket.ips) :
    Counted others nodes other :=
  ⟨table ▸ counted.table,bucket ▸ counted.bucket⟩

theorem Limited.congr (limited : Limited others nodes)
    (same : ∀ subnet, nodeCount nodes subnet = nodeCount after subnet) : Limited others after :=
  ⟨fun subnet => same subnet ▸ limited.table_le subnet,
    fun subnet => same subnet ▸ limited.bucket_le subnet⟩

theorem Counted.nodeCount_eq (counted : Counted others nodes s) (other : Counted others after s)
    (subnet : IP) : nodeCount nodes subnet = nodeCount after subnet := by
  have first := counted.bucket.getD_eq subnet
  rw [other.bucket.getD_eq] at first
  exact_mod_cast first.symm

theorem Limited.of_le (limited : Limited others nodes)
    (le : ∀ subnet, nodeCount after subnet ≤ nodeCount nodes subnet) : Limited others after :=
  ⟨fun subnet => (Nat.add_le_add_left (le subnet) _).trans (limited.table_le subnet),
    fun subnet => (le subnet).trans (limited.bucket_le subnet)⟩

theorem Limited.add (limited : Limited others nodes) (room : Room others nodes n.ip) :
    Limited others (n :: nodes) := by
  refine ⟨fun subnet => ?_,fun subnet => ?_⟩
  all_goals
    have tableLe := limited.table_le subnet
    have bucketLe := limited.bucket_le subnet
    rw [nodeCount_cons,weight]
    split
    · case isTrue counts =>
        obtain ⟨wan,rfl⟩ := counts
        have := room.2 wan
        omega
    · omega

/-- `addIP` counts the address of a new node, or refuses it and changes nothing. -/
theorem Counted.addIP (counted : Counted others nodes s) (ip : IP) :
    (Room others nodes ip ∧ ∃ after, s.addIP ip = (true, after) ∧
      after.bucket.entries = s.bucket.entries ∧ after.bucket.replacements = s.bucket.replacements ∧
      ∀ n : Node, n.ip = ip → Counted others (n :: nodes) after) ∨
    (¬Room others nodes ip ∧ s.addIP ip = (false, s)) := by
  by_cases empty : ip.length = 0
  · exact .inr ⟨fun room => room.1 empty,by rw [Slot.addIP,if_pos empty]⟩
  by_cases lan : isLAN ip = true
  · refine .inl ⟨⟨empty,fun wan => ?_⟩,s,by rw [Slot.addIP,if_neg empty,if_pos lan],rfl,rfl,?_⟩
    · rw [lan] at wan
      cases wan
    · rintro n rfl
      refine counted.congr fun subnet => ?_
      rw [nodeCount_cons,weight_of_isLAN lan,zero_add]
  have wan : isLAN ip = false := Bool.eq_false_iff.mpr lan
  by_cases tableRoom :
      others (key tableSubnet ip) + nodeCount nodes (key tableSubnet ip) < tableIPLimit
  · obtain ⟨table,tableEq,tableCounts⟩ := add_eq_of_lt counted.table tableRoom
    by_cases bucketRoom : nodeCount nodes (key tableSubnet ip) < bucketIPLimit
    · obtain ⟨bucket,bucketEq,bucketCounts⟩ :=
        add_eq_of_lt counted.bucket bucketRoom
      refine .inl ⟨⟨empty,fun _ => ⟨tableRoom,bucketRoom⟩⟩,
        ⟨table,{ s.bucket with ips := bucket }⟩,?_,rfl,rfl,?_⟩
      · simp only [Slot.addIP,if_neg empty,if_neg lan,tableEq,bucketEq]
        rfl
      · rintro n rfl
        rw [update_weight wan (fun subnet => others subnet + nodeCount nodes subnet) (· + ·)
          add_zero] at tableCounts
        rw [update_weight wan _ (· + ·) add_zero] at bucketCounts
        have countEq (subnet : IP) :
            nodeCount (n :: nodes) subnet = nodeCount nodes subnet + weight n.ip subnet := by
          rw [nodeCount_cons,add_comm]
        refine ⟨?_,(funext countEq).symm ▸ bucketCounts⟩
        simpa only [countEq,add_assoc] using tableCounts
    · -- the table has counted the address and takes it out again
      refine .inr ⟨fun room => bucketRoom (room.2 wan).2,?_⟩
      have bucketEq := add_eq_of_le counted.bucket (Nat.le_of_not_lt bucketRoom)
      have restored : table.remove ip = s.ips := by
        have removed := counts_remove tableCounts ip
        rw [update_self,Nat.add_sub_cancel,update_idem,update_eq_self] at removed
        exact congrArg DistinctNetSet.mk (removed.eq counted.table)
      simp only [Slot.addIP,if_neg empty,if_neg lan,tableEq,bucketEq,restored]
      rfl
  · refine .inr ⟨fun room => tableRoom (room.2 wan).1,?_⟩
    have tableEq := add_eq_of_le counted.table (Nat.le_of_not_lt tableRoom)
    simp only [Slot.addIP,if_neg empty,if_neg lan,tableEq]
    rfl

@[simp]
theorem removeIP_entries (s : Slot) (ip : IP) :
    (s.removeIP ip).bucket.entries = s.bucket.entries := by
  rw [removeIP]
  split <;> rfl

@[simp]
theorem removeIP_replacements (s : Slot) (ip : IP) :
    (s.removeIP ip).bucket.replacements = s.bucket.replacements := by
  rw [removeIP]
  split <;> rfl

@[simp]
theorem removeIP_nodes (s : Slot) (ip : IP) : (s.removeIP ip).nodes = s.nodes := by
  rw [nodes,removeIP_entries,removeIP_replacements,nodes]

theorem Counted.counts_removeIP (counted : Counted others nodes s) (ip : IP) :
    Counts (s.removeIP ip).ips.members
        (fun subnet => others subnet + nodeCount nodes subnet - weight ip subnet) ∧
      Counts (s.removeIP ip).bucket.ips.members
        (fun subnet => nodeCount nodes subnet - weight ip subnet) := by
  rw [removeIP]
  cases lan : isLAN ip with
  | true =>
    simp only [weight_of_isLAN lan]
    exact ⟨counted.table,counted.bucket⟩
  | false =>
    have table := counts_remove counted.table ip
    have bucket := counts_remove counted.bucket ip
    rw [update_weight lan (fun subnet => others subnet + nodeCount nodes subnet) (· - ·)
      Nat.sub_zero] at table
    rw [update_weight lan _ (· - ·) Nat.sub_zero] at bucket
    exact ⟨table,bucket⟩

def goneWeight (gone : Option Node) (subnet : IP) : Nat :=
  gone.elim 0 fun node => weight node.ip subnet

/-- Taking out an address is right if it counts like the node that leaves, but for
subnets in which there is nothing to take out. -/
def Releases (total : IP → Nat) (ip : IP) (gone : Option Node) : Prop :=
  ∀ subnet, weight ip subnet = goneWeight gone subnet ∨ total subnet = 0

theorem Counted.removeIP_iff (counted : Counted others nodes s) (ip : IP) (gone : Option Node)
    (perm : nodes.Perm (gone.toList ++ after)) : Counted others after (s.removeIP ip) ↔
      Releases (fun subnet => others subnet + nodeCount nodes subnet) ip gone := by
  obtain ⟨table,bucket⟩ := counted.counts_removeIP ip
  have countEq (subnet : IP) :
      nodeCount nodes subnet = goneWeight gone subnet + nodeCount after subnet := by
    rw [nodeCount_perm perm,nodeCount_append]
    cases gone <;> rfl
  constructor
  · intro still subnet
    have tableEq := table.getD_eq subnet
    have bucketEq := bucket.getD_eq subnet
    rw [still.table.getD_eq] at tableEq
    have := countEq subnet
    have := weight_le_one ip subnet
    simp only at tableEq bucketEq ⊢
    omega
  · intro releases
    have releasesAt (subnet : IP) : weight ip subnet = goneWeight gone subnet ∨
        others subnet + nodeCount nodes subnet = 0 :=
      releases subnet
    have tableEq (subnet : IP) : others subnet + nodeCount nodes subnet - weight ip subnet =
        others subnet + nodeCount after subnet := by
      have := countEq subnet
      have := releasesAt subnet
      omega
    have bucketEq (subnet : IP) : nodeCount nodes subnet - weight ip subnet =
        nodeCount after subnet := by
      have := countEq subnet
      have := releasesAt subnet
      omega
    rw [funext tableEq] at table
    rw [funext bucketEq] at bucket
    exact ⟨table,bucket⟩

theorem Counted.removeIP (counted : Counted others (n :: nodes) s) :
    Counted others nodes (s.removeIP n.ip) :=
  (counted.removeIP_iff n.ip (some n) .rfl).mpr fun _ => .inl rfl

/-! ## The lists -/

theorem contains_eq_false_iff {nodes : List Node} {id : ID} :
    contains nodes id = false ↔ ∀ node ∈ nodes, node.id ≠ id := by
  simp [contains]

theorem perm_deleteNode {entry : Node}
    (found : list.find? (fun node => decide (node.id = n.id)) = some entry) :
    list.Perm (entry :: deleteNode list n) := by
  induction list with
  | nil => cases found
  | cons first list ih =>
    by_cases same : first.id = n.id
    · rw [find?_cons_of_pos (by simpa using same)] at found
      cases found
      rw [deleteNode,eraseP_cons_of_pos (by simpa using same)]
    · rw [find?_cons_of_neg (by simpa using same)] at found
      rw [deleteNode,eraseP_cons_of_neg (by simpa using same)]
      exact ((ih found).cons first).trans (Perm.swap entry first _)

theorem deleteNode_of_absent (absent : ∀ node ∈ list, node.id ≠ n.id) : deleteNode list n = list :=
  eraseP_of_forall_not fun node member => by simpa using absent node member

theorem perm_find_append_deleteNode (list : List Node) (n : Node) :
    list.Perm ((list.find? fun node => decide (node.id = n.id)).toList ++ deleteNode list n) := by
  cases found : list.find? fun node => decide (node.id = n.id) with
  | none =>
    have absent : ∀ node ∈ list, node.id ≠ n.id := by simpa [find?_eq_none] using found
    rw [deleteNode_of_absent absent]
    rfl
  | some entry => exact perm_deleteNode found

theorem find_of_mem (distinct : (list.map Node.id).Nodup) {node : Node} (member : node ∈ list)
    (sameId : node.id = n.id) : list.find? (fun node => decide (node.id = n.id)) = some node := by
  have isSome : (list.find? fun node => decide (node.id = n.id)).isSome :=
    find?_isSome.mpr ⟨node,member,decide_eq_true sameId⟩
  obtain ⟨other,found⟩ := isSome_iff_exists.mp isSome
  have otherId : other.id = n.id := by simpa using find?_some found
  rw [found,inj_on_of_nodup_map distinct (mem_of_find?_eq_some found) member
    (otherId.trans sameId.symm)]

theorem id_ne_of_mem_deleteNode (distinct : (list.map Node.id).Nodup) {node : Node}
    (member : node ∈ deleteNode list n) : node.id ≠ n.id := by
  intro sameId
  have inList : node ∈ list := mem_of_mem_eraseP member
  have perm := (perm_deleteNode (find_of_mem distinct inList sameId)).map Node.id
  rw [perm.nodup_iff,map_cons,nodup_cons] at distinct
  exact distinct.1 (mem_map_of_mem member)

structure Sound (others : IP → Nat) (s : Slot) : Prop where
  counted : Counted others s.nodes s
  limited : Limited others s.nodes
  distinct : (s.nodes.map Node.id).Nodup
  addressed : ∀ node ∈ s.nodes, node.ip.length ≠ 0

/-- A bucket after an operation: sound under the guard, and without it miscounted. -/
structure SoundIff (others : IP → Nat) (guard : Prop) (s : Slot) : Prop where
  sound : guard → Sound others s
  miscounted : ¬guard → ¬Counted others s.nodes s

theorem Sound.soundIff (sound : Sound others s) {guard : Prop} (holds : guard) :
    SoundIff others guard s where
  sound _ := sound
  miscounted fails := absurd holds fails

theorem Sound.of_perm (list : List Node) (perm : s.nodes.Perm list)
    (counted : Counted others list s) (limited : Limited others list)
    (distinct : (list.map Node.id).Nodup) (addressed : ∀ node ∈ list, node.ip.length ≠ 0) :
    Sound others s where
  counted := counted.congr fun subnet => (nodeCount_perm perm subnet).symm
  limited := limited.congr fun subnet => (nodeCount_perm perm subnet).symm
  distinct := (perm.map Node.id).nodup_iff.mpr distinct
  addressed node member := addressed node (perm.mem_iff.mp member)

theorem Sound.cons (sound : Sound others s) {n : Node} (room : Room others s.nodes n.ip)
    (new : ∀ node ∈ s.nodes, node.id ≠ n.id) :
    Limited others (n :: s.nodes) ∧ ((n :: s.nodes).map Node.id).Nodup ∧
      ∀ node ∈ n :: s.nodes, node.ip.length ≠ 0 := by
  refine ⟨sound.limited.add room,?_,?_⟩
  · rw [map_cons,nodup_cons]
    refine ⟨fun member => ?_,sound.distinct⟩
    obtain ⟨node,nodeMem,same⟩ := mem_map.mp member
    exact new node nodeMem same
  · exact forall_mem_cons.mpr ⟨room.1,sound.addressed⟩

theorem Sound.release (sound : Sound others s) (entries replacements : List Node)
    (gone : Option Node) (perm : s.nodes.Perm (gone.toList ++ (entries ++ replacements)))
    (ip : IP) {left : Slot}
    (leftEq : left = removeIP ⟨s.ips,entries,replacements,s.bucket.ips⟩ ip) :
    SoundIff others (Releases (fun subnet => others subnet + nodeCount s.nodes subnet) ip gone)
      left := by
  have counted : Counted others s.nodes ⟨s.ips,entries,replacements,s.bucket.ips⟩ :=
    sound.counted.of_ips_eq rfl rfl
  have releases := counted.removeIP_iff ip gone perm
  have nodesEq : left.nodes = entries ++ replacements := by
    rw [leftEq,removeIP_nodes]
    rfl
  constructor
  · intro isReleased
    rw [← releases,← leftEq] at isReleased
    refine Sound.of_perm (entries ++ replacements) (by rw [nodesEq]) isReleased ?_ ?_ ?_
    · refine sound.limited.of_le fun subnet => ?_
      rw [nodeCount_perm perm,nodeCount_append gone.toList]
      exact le_add_left _ _
    · have distinct := (perm.map Node.id).nodup_iff.mp sound.distinct
      rw [map_append] at distinct
      exact distinct.of_append_right
    · exact fun node member => sound.addressed node
        (perm.mem_iff.mpr (mem_append_right _ member))
  · rw [nodesEq,leftEq,releases]
    exact id

theorem addReplacement_of_noRoom (counted : Counted others s.nodes s)
    (noRoom : ¬Room others s.nodes n.ip) : s.addReplacement n = s := by
  rw [Slot.addReplacement]
  split
  · rfl
  · rcases counted.addIP n.ip with ⟨room,-⟩ | ⟨-,addEq⟩
    · exact absurd room noRoom
    · rw [addEq]
      rfl

theorem Sound.addReplacement (sound : Sound others s)
    (absent : contains s.bucket.entries n.id = false) : Sound others (s.addReplacement n) := by
  by_cases listed : contains s.bucket.replacements n.id = true
  · rwa [Slot.addReplacement,if_pos listed]
  rcases sound.counted.addIP n.ip with ⟨room,added,addEq,entriesEq,replacementsEq,counted⟩ |
    ⟨noRoom,-⟩
  case inr => rwa [addReplacement_of_noRoom sound.counted noRoom]
  have new (node : Node) (member : node ∈ s.nodes) : node.id ≠ n.id := by
    rw [Bool.not_eq_true,contains_eq_false_iff] at listed
    rw [contains_eq_false_iff] at absent
    rcases mem_append.mp member with inEntries | inReplacements
    · exact absent node inEntries
    · exact listed node inReplacements
  obtain ⟨limited,distinct,addressed⟩ := sound.cons room new
  let pushed : Slot :=
    { added with bucket := { added.bucket with replacements := n :: s.bucket.replacements } }
  have pushedSound : Sound others pushed := by
    refine Sound.of_perm (n :: s.nodes) ?_ ((counted n rfl).of_ips_eq rfl rfl) limited distinct
      addressed
    simpa only [pushed,nodes,entriesEq] using perm_middle
  by_cases space : s.bucket.replacements.length < maxReplacements
  · have afterEq : s.addReplacement n = pushed := by
      simp only [Slot.addReplacement,if_neg listed,addEq,replacementsEq,pushNode,if_pos space]
      rfl
    rwa [afterEq]
  · -- the oldest replacement is pushed out
    obtain ⟨removed,lastEq⟩ : ∃ removed, s.bucket.replacements.getLast? = some removed := by
      refine ⟨_,getLast?_eq_some_getLast fun isEmpty => space ?_⟩
      rw [isEmpty]
      decide
    have afterEq : s.addReplacement n = removeIP ⟨pushed.ips,pushed.bucket.entries,
        n :: s.bucket.replacements.dropLast,pushed.bucket.ips⟩ removed.ip := by
      simp only [Slot.addReplacement,if_neg listed,addEq,replacementsEq,pushNode,
        if_neg space,lastEq]
      rfl
    refine (pushedSound.release _ _ (some removed) ?_ removed.ip afterEq).sound
      fun subnet => .inl rfl
    have splits : pushed.nodes =
        pushed.bucket.entries ++ n :: s.bucket.replacements.dropLast ++ [removed] := by
      rw [append_assoc,cons_append,dropLast_append_getLast? removed lastEq]
      rfl
    rw [splits]
    exact perm_append_comm

def besides (s : Slot) (n : Node) : List Node :=
  deleteNode s.bucket.entries n ++ s.bucket.replacements

theorem Sound.moveToFront (sound : Sound others s) {entry : Node} {moved : Slot}
    (found : s.bucket.entries.find? (fun node => decide (node.id = n.id)) = some entry)
    (entriesEq : moved.bucket.entries = n :: deleteNode s.bucket.entries n)
    (replacementsEq : moved.bucket.replacements = s.bucket.replacements)
    (counted : Counted others (n :: s.besides n) moved)
    (limited : Limited others (n :: s.besides n))
    (addressed : n.ip.length ≠ 0) : Sound others moved := by
  have sameId : entry.id = n.id := by simpa using find?_some found
  have perm : s.nodes.Perm
      (entry :: s.besides n) :=
    (perm_deleteNode found).append_right _
  refine Sound.of_perm _ ?_ counted limited ?_ ?_
  · rw [nodes,entriesEq,replacementsEq]
    rfl
  · have distinct := (perm.map Node.id).nodup_iff.mp sound.distinct
    rwa [map_cons,sameId] at distinct
  · refine forall_mem_cons.mpr ⟨addressed,fun node member => ?_⟩
    exact sound.addressed node (perm.mem_iff.mpr (mem_cons_of_mem _ member))

theorem length_ne_zero_of_equal {ip x : IP} (isEqual : equal ip x = true)
    (nonempty : x.length ≠ 0) : ip.length ≠ 0 := by
  rcases eq_of_equal isEqual with rfl | ⟨isSome,-⟩
  · exact nonempty
  · intro isEmpty
    rw [to4,if_neg (by omega),if_neg (by omega)] at isSome
    cases isSome

theorem Limited.room (limited : Limited others (n :: nodes)) (addressed : n.ip.length ≠ 0) :
    Room others nodes n.ip := by
  refine ⟨addressed,fun wan => ?_⟩
  have tableLe := limited.table_le (key tableSubnet n.ip)
  have bucketLe := limited.bucket_le (key tableSubnet n.ip)
  rw [nodeCount_cons,weight_self wan] at tableLe bucketLe
  omega

theorem Room.of_le {ip : IP} (room : Room others nodes ip) {fewer : List Node}
    (le : ∀ subnet, nodeCount fewer subnet ≤ nodeCount nodes subnet) : Room others fewer ip := by
  refine ⟨room.1,fun wan => ?_⟩
  have := room.2 wan
  have := le (key tableSubnet ip)
  omega

theorem Counted.slot_eq {other : Slot} (counted : Counted others nodes s)
    (otherCounted : Counted others nodes other)
    (entriesEq : s.bucket.entries = other.bucket.entries)
    (replacementsEq : s.bucket.replacements = other.bucket.replacements) : s = other := by
  obtain ⟨⟨table⟩,⟨entries,replacements,⟨bucket⟩⟩⟩ := s
  obtain ⟨⟨otherTable⟩,⟨otherEntries,otherReplacements,⟨otherBucket⟩⟩⟩ := other
  obtain rfl : table = otherTable := counted.table.eq otherCounted.table
  obtain rfl : bucket = otherBucket := counted.bucket.eq otherCounted.bucket
  obtain rfl : entries = otherEntries := entriesEq
  obtain rfl : replacements = otherReplacements := replacementsEq
  rfl

/-- A bump moves the node to the front, or changes nothing: the node is not an entry, or
its new address has no room. -/
theorem Sound.bumpInBucket (sound : Sound others s) (n : Node) :
    (∃ after, s.bumpInBucket n = (true, after) ∧ Sound others after ∧
      contains s.bucket.entries n.id = true) ∨ (s.bumpInBucket n = (false, s) ∧
      (contains s.bucket.entries n.id = true → ¬Room others s.nodes n.ip)) := by
  cases found : s.bucket.entries.find? fun node => decide (node.id = n.id) with
  | none =>
    refine .inr ⟨by rw [Slot.bumpInBucket,found],fun listed => ?_⟩
    have absent : contains s.bucket.entries n.id = false := by
      rw [contains_eq_false_iff]
      simpa [find?_eq_none] using found
    rw [absent] at listed
    cases listed
  | some entry =>
    have entryMem := mem_of_find?_eq_some found
    have listed : contains s.bucket.entries n.id = true := by
      have sameId : entry.id = n.id := by simpa using find?_some found
      exact any_eq_true.mpr ⟨entry,entryMem,decide_eq_true sameId⟩
    have entryAddressed := sound.addressed entry (mem_append_left _ entryMem)
    have perm : s.nodes.Perm
        (entry :: s.besides n) :=
      (perm_deleteNode found).append_right _
    have counted := sound.counted.congr fun subnet => nodeCount_perm perm subnet
    have limited := sound.limited.congr fun subnet => nodeCount_perm perm subnet
    by_cases same : equal n.ip entry.ip = true
    · -- the address stays, in this form or the other
      refine .inl ⟨s.moveToFront n,by simp [Slot.bumpInBucket,found,same],?_,listed⟩
      have sameCount (subnet : IP) :
          nodeCount (entry :: s.besides n) subnet =
            nodeCount (n :: s.besides n)
              subnet := by
        rw [nodeCount_cons,nodeCount_cons,weight_congr same]
      exact sound.moveToFront found rfl rfl ((counted.congr sameCount).of_ips_eq rfl rfl)
        (limited.congr sameCount) (length_ne_zero_of_equal same entryAddressed)
    · have removed := counted.removeIP
      rcases removed.addIP n.ip with ⟨room,added,addEq,entriesEq,replacementsEq,addCounted⟩ |
        ⟨noRoom,addEq⟩
      · refine .inl ⟨added.moveToFront n,by simp [Slot.bumpInBucket,found,same,addEq],?_,listed⟩
        refine sound.moveToFront found ?_ ?_ ((addCounted n rfl).of_ips_eq rfl rfl)
          ((limited.of_le ?_).add room) room.1
        · simp [Slot.moveToFront,entriesEq,removeIP_entries]
        · simp [Slot.moveToFront,replacementsEq,removeIP_replacements]
        · intro subnet
          rw [nodeCount_cons]
          exact le_add_left _ _
      · refine .inr ⟨?_,fun _ room => noRoom (room.of_le fun subnet => ?_)⟩
        · rcases removed.addIP entry.ip with
            ⟨-,back,backEq,entriesEq,replacementsEq,backCounted⟩ | ⟨noRoomBack,-⟩
          · have restored : back = s :=
              (backCounted entry rfl).slot_eq counted
                (entriesEq.trans (removeIP_entries s entry.ip))
                (replacementsEq.trans (removeIP_replacements s entry.ip))
            simp [Slot.bumpInBucket,found,same,addEq,backEq,restored]
          · exact absurd (limited.room entryAddressed) noRoomBack
        · rw [nodeCount_perm perm subnet,nodeCount_cons]
          exact le_add_left _ _

def Joins (others : IP → Nat) (s : Slot) (n : Node) : Prop :=
  contains s.bucket.entries n.id = false ∧ s.bucket.entries.length < bucketSize ∧
    Room others s.nodes n.ip

/-- No address is forgotten when the node leaves the replacements. -/
def FreeToJoin (s : Slot) (n : Node) : Prop :=
  ∀ r ∈ s.bucket.replacements, r.id = n.id → isLAN r.ip = true

/-- A node joins the entries and leaves the replacements.  Only its address as an entry
enters the counters. -/
theorem Sound.join (sound : Sound others s) (joins : Joins others s n) {joined : Slot}
    (counted : Counted others (n :: s.nodes) joined)
    (entriesPerm : joined.bucket.entries.Perm (n :: s.bucket.entries))
    (replacementsEq : joined.bucket.replacements = deleteNode s.bucket.replacements n) :
    SoundIff others (FreeToJoin s n) joined := by
  obtain ⟨absent,-,room⟩ := joins
  rw [contains_eq_false_iff] at absent
  have replacementsDistinct : (s.bucket.replacements.map Node.id).Nodup := by
    have distinct := sound.distinct
    rw [nodes,map_append] at distinct
    exact distinct.of_append_right
  set gone := s.bucket.replacements.find? fun node => decide (node.id = n.id) with goneEq
  set rest := n :: (s.bucket.entries ++ deleteNode s.bucket.replacements n) with restEq
  have joinedPerm : joined.nodes.Perm rest := by
    rw [nodes,replacementsEq]
    exact entriesPerm.append_right _
  have splits : s.nodes.Perm
      (gone.toList ++ (s.bucket.entries ++ deleteNode s.bucket.replacements n)) := by
    refine ((perm_find_append_deleteNode s.bucket.replacements n).append_left _).trans ?_
    rw [← append_assoc,← append_assoc]
    exact perm_append_comm.append_right _
  have countEq (subnet : IP) : nodeCount (n :: s.nodes) subnet =
      goneWeight gone subnet + nodeCount rest subnet := by
    rw [nodeCount_cons,nodeCount_perm splits,nodeCount_append,restEq,nodeCount_cons]
    cases gone with
    | none => simp [goneWeight]
    | some r =>
      simp only [goneWeight,toList_some,elim_some,nodeCount_cons,nodeCount_nil]
      omega
  constructor
  · intro free
    have goneZero (subnet : IP) : goneWeight gone subnet = 0 := by
      cases found : gone with
      | none => rfl
      | some r =>
        have sameId : r.id = n.id := by simpa using find?_some found
        exact weight_of_isLAN (free r (mem_of_find?_eq_some found) sameId) subnet
    have sameCount (subnet : IP) : nodeCount (n :: s.nodes) subnet = nodeCount rest subnet := by
      rw [countEq,goneZero,zero_add]
    have kept (node : Node) (member : node ∈ s.bucket.entries ++
        deleteNode s.bucket.replacements n) : node ∈ s.nodes :=
      splits.mem_iff.mpr (mem_append_right _ member)
    refine Sound.of_perm rest joinedPerm (counted.congr sameCount)
      ((sound.limited.add room).congr sameCount) ?_ ?_
    · have distinct := (splits.map Node.id).nodup_iff.mp sound.distinct
      rw [map_append] at distinct
      rw [restEq,map_cons,nodup_cons]
      refine ⟨fun member => ?_,distinct.of_append_right⟩
      obtain ⟨node,nodeMem,sameId⟩ := mem_map.mp member
      rcases mem_append.mp nodeMem with inEntries | inReplacements
      · exact absent node inEntries sameId
      · exact id_ne_of_mem_deleteNode replacementsDistinct inReplacements sameId
    · exact forall_mem_cons.mpr ⟨room.1,fun node member => sound.addressed node
        (kept node member)⟩
  · intro notFree still
    rw [FreeToJoin] at notFree
    push Not at notFree
    obtain ⟨r,member,sameId,wan⟩ := notFree
    have goneSome : gone = some r := find_of_mem replacementsDistinct member sameId
    have still' := counted.nodeCount_eq still (key tableSubnet r.ip)
    rw [countEq,nodeCount_perm joinedPerm,goneSome,goneWeight,elim_some,
      weight_self (Bool.eq_false_iff.mpr wan)] at still'
    omega

def FreeToDelete (others : IP → Nat) (s : Slot) (n : Node) : Prop :=
  Releases (fun subnet => others subnet + nodeCount s.nodes subnet) n.ip
    (s.bucket.entries.find? fun node => decide (node.id = n.id))

/-- If the node is still the last entry, it has the address of that entry. -/
def FreeToReplace (others : IP → Nat) (s : Slot) (last : Node) : Prop :=
  ∀ entry, s.bucket.entries.getLast? = some entry → entry.id = last.id →
    Releases (fun subnet => others subnet + nodeCount s.nodes subnet) last.ip (some entry)

section

variable (sound : Sound others s)

include sound

theorem Sound.deleteInBucket (n : Node) :
    SoundIff others (FreeToDelete others s n) (s.deleteInBucket n) := by
  refine sound.release (deleteNode s.bucket.entries n) s.bucket.replacements _ ?_ n.ip rfl
  rw [nodes,← append_assoc]
  exact (perm_find_append_deleteNode s.bucket.entries n).append_right _

theorem Sound.replace (last : Node) (draw : Nat) :
    SoundIff others (FreeToReplace others s last) (s.replace last draw).1 := by
  have distinct := sound.distinct
  rw [nodes,map_append] at distinct
  cases lastEq : s.bucket.entries.getLast? with
  | none =>
    have free : FreeToReplace others s last := fun entry found => by
      rw [lastEq] at found
      cases found
    have replaceEq : s.replace last draw = (s, none) := by rw [Slot.replace,lastEq]
    rw [replaceEq]
    exact sound.soundIff free
  | some entry =>
    have freeIff : FreeToReplace others s last ↔ (entry.id = last.id →
        Releases (fun subnet => others subnet + nodeCount s.nodes subnet) last.ip
          (some entry)) := by
      simp [FreeToReplace,lastEq]
    rw [freeIff]
    by_cases sameId : entry.id = last.id
    case neg =>
      have replaceEq : s.replace last draw = (s, none) := by
        rw [Slot.replace,lastEq]
        exact if_pos sameId
      rw [replaceEq]
      exact sound.soundIff fun same => absurd same sameId
    simp only [sameId,forall_const]
    cases drawn : s.bucket.replacements[draw % s.bucket.replacements.length]? with
    | none =>
      have replaceEq : s.replace last draw = (s.deleteInBucket last, none) := by
        simp [Slot.replace,lastEq,sameId,drawn]
      have found : s.bucket.entries.find? (fun node => decide (node.id = last.id)) = some entry :=
        find_of_mem distinct.of_append_left (mem_of_getLast? lastEq) sameId
      have deletes := sound.deleteInBucket last
      rw [FreeToDelete,found] at deletes
      rwa [replaceEq]
    | some r =>
      have replaceEq : s.replace last draw = (({ s with bucket := { s.bucket with
            replacements := deleteNode s.bucket.replacements r
            entries := s.bucket.entries.dropLast ++ [r] } } : Slot).removeIP last.ip,
            some r) := by
        simp [Slot.replace,lastEq,sameId,drawn]
      rw [replaceEq]
      refine sound.release (s.bucket.entries.dropLast ++ [r])
        (deleteNode s.bucket.replacements r) _ ?_ last.ip rfl
      have drawnPerm : s.bucket.replacements.Perm (r :: deleteNode s.bucket.replacements r) :=
        perm_deleteNode (find_of_mem distinct.of_append_right (mem_of_getElem? drawn) rfl)
      have entriesEq := (dropLast_append_getLast? entry lastEq).symm
      rw [nodes,entriesEq,dropLast_concat]
      simp only [append_assoc]
      exact perm_middle.trans ((drawnPerm.append_left _).cons entry)

theorem Sound.tryJoin (absent : contains s.bucket.entries n.id = false)
    (space : s.bucket.entries.length < bucketSize) {after : Slot}
    (refused : (s.addIP n.ip).1 = false → after = (s.addIP n.ip).2)
    (entriesPerm : (s.addIP n.ip).1 = true →
      after.bucket.entries.Perm (n :: (s.addIP n.ip).2.bucket.entries))
    (replacementsEq : (s.addIP n.ip).1 = true →
      after.bucket.replacements = deleteNode (s.addIP n.ip).2.bucket.replacements n)
    (ips : (s.addIP n.ip).1 = true →
      after.ips = (s.addIP n.ip).2.ips ∧ after.bucket.ips = (s.addIP n.ip).2.bucket.ips) :
    SoundIff others (Joins others s n → FreeToJoin s n) after := by
  rcases sound.counted.addIP n.ip with ⟨room,added,addEq,addedEntries,addedReplacements,
    counted⟩ | ⟨noRoom,addEq⟩
  · rw [addEq] at entriesPerm replacementsEq ips
    have joins : Joins others s n := ⟨absent,space,room⟩
    have joined := sound.join joins
      ((counted n rfl).of_ips_eq (ips rfl).1 (ips rfl).2)
      (addedEntries ▸ entriesPerm rfl) (addedReplacements ▸ replacementsEq rfl)
    exact ⟨fun free => joined.sound (free joins),
      fun notFree => joined.miscounted fun free => notFree fun _ => free⟩
  · rw [addEq] at refused
    rw [refused rfl]
    exact sound.soundIff fun joins => absurd joins.2.2 noRoom

theorem Sound.addSeenNode (n : Node) :
    SoundIff others (Joins others s n → FreeToJoin s n) (s.addSeenNode n) := by
  rw [Slot.addSeenNode]
  split
  · case isTrue listed =>
      refine sound.soundIff fun joins => ?_
      rw [joins.1] at listed
      cases listed
  case isFalse notListed =>
  have absent := Bool.eq_false_iff.mpr notListed
  split
  · case isTrue full =>
      exact (sound.addReplacement absent).soundIff fun joins => absurd joins.2.1 full.not_gt
  · case isFalse space =>
      refine sound.tryJoin absent (Nat.lt_of_not_le space) (fun no => ?_) (fun yes => ?_)
        (fun yes => ?_) (fun yes => ?_)
      · simp [no]
      · simp only [yes]
        exact perm_append_singleton _ _
      · simp [yes]
      · simp [yes]

theorem Sound.addVerifiedNode (n : Node) :
    SoundIff others (Joins others s n → FreeToJoin s n) (s.addVerifiedNode n) := by
  rw [Slot.addVerifiedNode]
  rcases sound.bumpInBucket n with ⟨after,bumpEq,afterSound,listed⟩ | ⟨bumpEq,noRoom⟩
  · simp only [bumpEq]
    refine afterSound.soundIff fun joins => ?_
    rw [joins.1] at listed
    cases listed
  simp only [bumpEq,Bool.false_eq_true,if_false]
  cases listed : contains s.bucket.entries n.id with
  | true =>
    -- the new address of an entry had no room, and has none now
    have noRoom := noRoom listed
    refine Sound.soundIff ?_ fun joins => absurd joins.2.2 noRoom
    split
    · rwa [addReplacement_of_noRoom sound.counted noRoom]
    · rcases sound.counted.addIP n.ip with ⟨room,-⟩ | ⟨-,addEq⟩
      · exact absurd room noRoom
      · simpa only [addEq,Bool.not_false,if_true] using sound
  | false =>
    split
    · case isTrue full =>
        exact (sound.addReplacement listed).soundIff fun joins => absurd joins.2.1 full.not_gt
    · case isFalse space =>
        have space := Nat.lt_of_not_le space
        have entriesEq : (s.addIP n.ip).2.bucket.entries = s.bucket.entries := by
          rcases sound.counted.addIP n.ip with ⟨-,added,addEq,same,-⟩ | ⟨-,addEq⟩
          · rw [addEq]
            exact same
          · rw [addEq]
        refine sound.tryJoin listed space (fun no => ?_) (fun yes => ?_)
          (fun yes => ?_) (fun yes => ?_)
        · simp [no]
        · simp [yes,pushNode,entriesEq,space,Perm.refl]
        · simp [yes]
        · simp [yes]

theorem Sound.revalidated (last : Node) (failed : Bool) (draw : Nat) :
    SoundIff others (failed = true → FreeToReplace others s last)
      (s.revalidated last failed draw) := by
  cases failed with
  | true =>
    simp only [forall_const]
    exact sound.replace last draw
  | false =>
    refine Sound.soundIff ?_ fun isTrue => by cases isTrue
    rw [Slot.revalidated,if_neg Bool.false_ne_true]
    rcases sound.bumpInBucket last with ⟨after,bumpEq,afterSound,-⟩ | ⟨bumpEq,-⟩
    · rw [bumpEq]
      exact afterSound
    · rw [bumpEq]
      exact sound

end

end Slot

/-! ## The table -/

namespace Table

def count (tab : Table) (subnet : IP) : Nat := ∑ b, nodeCount (tab.slot b).nodes subnet

def others (tab : Table) (bi : Fin nBuckets) (subnet : IP) : Nat :=
  ∑ b ∈ Finset.univ.erase bi, nodeCount (tab.slot b).nodes subnet

variable {tab : Table} {bi : Fin nBuckets} {s : Slot}

theorem others_add (tab : Table) (bi : Fin nBuckets) (subnet : IP) :
    tab.others bi subnet + nodeCount (tab.slot bi).nodes subnet = tab.count subnet :=
  Finset.sum_erase_add _ _ (Finset.mem_univ bi)

theorem slot_put_self : (tab.put bi s).slot bi = s := by
  simp [slot,put]

theorem nodes_put_of_ne {b : Fin nBuckets} (differ : b ≠ bi) :
    ((tab.put bi s).slot b).nodes = (tab.slot b).nodes := by
  simp [slot,put,update_of_ne differ,nodes]

theorem others_put : (tab.put bi s).others bi = tab.others bi := by
  funext subnet
  refine Finset.sum_congr rfl fun b member => ?_
  rw [nodes_put_of_ne (Finset.ne_of_mem_erase member)]

theorem count_put (subnet : IP) :
    (tab.put bi s).count subnet = tab.others bi subnet + nodeCount s.nodes subnet := by
  rw [← others_add _ bi,others_put,slot_put_self]

def Sound (tab : Table) : Prop := ∀ b, Slot.Sound (tab.others b) (tab.slot b)

theorem Sound.put (sound : tab.Sound) (slotSound : Slot.Sound (tab.others bi) s) :
    (tab.put bi s).Sound := by
  intro b
  by_cases same : b = bi
  · subst same
    rwa [others_put,slot_put_self]
  · have countEq (subnet : IP) : (tab.put bi s).others b subnet +
        nodeCount ((tab.put bi s).slot b).nodes subnet =
        tab.others bi subnet + nodeCount s.nodes subnet := by
      rw [others_add,count_put]
    refine ⟨⟨?_,?_⟩,⟨fun subnet => ?_,fun subnet => ?_⟩,?_,?_⟩
    · rw [funext countEq]
      exact slotSound.counted.table
    · rw [nodes_put_of_ne same]
      simpa only [slot,Table.put,update_of_ne same] using (sound b).counted.bucket
    · rw [countEq]
      exact slotSound.limited.table_le subnet
    · rw [nodes_put_of_ne same]
      exact (sound b).limited.bucket_le subnet
    · rw [nodes_put_of_ne same]
      exact (sound b).distinct
    · rw [nodes_put_of_ne same]
      exact (sound b).addressed

/-- The counters agree with the lists, and so the limits hold for the nodes in the table
and refuse an address only because of them. -/
structure Exact (tab : Table) : Prop where
  table : Counts tab.ips.members tab.count
  bucket : ∀ b, Counts (tab.buckets b).ips.members (nodeCount (tab.slot b).nodes)
  table_le : ∀ subnet, tab.count subnet ≤ tableIPLimit
  bucket_le : ∀ b subnet, nodeCount (tab.slot b).nodes subnet ≤ bucketIPLimit
  refuses_iff : ∀ b ip, ((tab.slot b).addIP ip).1 = false ↔
    ip.length = 0 ∨ isLAN ip = false ∧
      (tableIPLimit ≤ tab.count (key tableSubnet ip) ∨
        bucketIPLimit ≤ nodeCount (tab.slot b).nodes (key tableSubnet ip))

theorem Sound.exact (sound : tab.Sound) : tab.Exact where
  table := by
    have counted := (sound 0).counted.table
    rwa [funext fun subnet => others_add tab 0 subnet] at counted
  bucket b := (sound b).counted.bucket
  table_le subnet := others_add tab 0 subnet ▸ (sound 0).limited.table_le subnet
  bucket_le b := (sound b).limited.bucket_le
  refuses_iff b ip := by
    have roomIff : ¬Room (tab.others b) (tab.slot b).nodes ip ↔ ip.length = 0 ∨ isLAN ip = false ∧
          (tableIPLimit ≤ tab.count (key tableSubnet ip) ∨
            bucketIPLimit ≤ nodeCount (tab.slot b).nodes (key tableSubnet ip)) := by
      rw [Room,others_add,not_and_or,not_not,Classical.not_imp,not_and_or,not_lt,not_lt]
    rw [← roomIff]
    rcases (sound b).counted.addIP ip with ⟨room,after,addEq,-⟩ | ⟨noRoom,addEq⟩
    · rw [addEq]
      exact iff_of_false Bool.true_eq_false.mp fun noRoom => noRoom room
    · rw [addEq]
      exact iff_of_true rfl noRoom

theorem not_exact_put (notCounted : ¬Counted (tab.others bi) s.nodes s) :
    ¬(tab.put bi s).Exact := by
  intro exact
  have table := exact.table
  have bucket := exact.bucket bi
  rw [funext count_put] at table
  rw [slot_put_self] at bucket
  refine notCounted ⟨table,?_⟩
  simpa only [put,update_self] using bucket

/-- The operations that keep the counters in step.  A node that joins the entries has no
counted address among the replacements; a node that is deleted, or replaced while it is
the last entry, counts like the entry. -/
def InStep (tab : Table) : Action → Prop
  | .addSeenNode n =>
    n.id ≠ tab.self → (tab.slot (tab.bucket n.id)).Joins (tab.others (tab.bucket n.id)) n →
      (tab.slot (tab.bucket n.id)).FreeToJoin n
  | .addVerifiedNode n =>
    tab.initDone = true → n.id ≠ tab.self →
      (tab.slot (tab.bucket n.id)).Joins (tab.others (tab.bucket n.id)) n →
      (tab.slot (tab.bucket n.id)).FreeToJoin n
  | .delete n => (tab.slot (tab.bucket n.id)).FreeToDelete (tab.others (tab.bucket n.id)) n
  | .revalidated remoteSeq failed record _ =>
    ∀ last bi, tab.revalidating = some (last, bi) → failed = true →
      (tab.slot bi).FreeToReplace (tab.others bi) (currentRecord last remoteSeq record)
  | .initialised | .nodeToRevalidate _ => True

/-- A table after an operation: sound under the guard, and without it miscounted. -/
structure SoundIff (guard : Prop) (tab : Table) : Prop where
  sound : guard → tab.Sound
  miscounted : ¬guard → ¬tab.Exact

variable {guard : Prop} (sound : tab.Sound)

include sound

theorem Sound.soundIff (holds : guard) : SoundIff guard tab where
  sound _ := sound
  miscounted fails := absurd holds fails

theorem Sound.put_soundIff (slotSound : Slot.SoundIff (tab.others bi) guard s) :
    SoundIff guard (tab.put bi s) where
  sound holds := sound.put (slotSound.sound holds)
  miscounted fails := not_exact_put (slotSound.miscounted fails)

theorem Sound.put_unless_self {n : Node} (slotSound : Slot.SoundIff (tab.others bi) guard s) :
    SoundIff (n.id ≠ tab.self → guard) (if n.id = tab.self then tab else tab.put bi s) := by
  split
  · rename_i isSelf
    exact sound.soundIff fun differ => absurd isSelf differ
  · rename_i differ
    simp only [ne_eq,differ,not_false_iff,forall_const]
    exact sound.put_soundIff slotSound

theorem Sound.step {action : Action} {next : Table} (stepped : tab.step action = some next) :
    SoundIff (tab.InStep action) next := by
  cases action with
  | addSeenNode n =>
    obtain rfl := some.inj stepped
    exact sound.put_unless_self ((sound _).addSeenNode n)
  | addVerifiedNode n =>
    obtain rfl := some.inj stepped
    rw [Table.addVerifiedNode,InStep]
    cases init : tab.initDone with
    | false => exact sound.soundIff fun isTrue => by cases isTrue
    | true =>
      simp only [forall_const]
      exact sound.put_unless_self ((sound _).addVerifiedNode n)
  | delete n =>
    obtain rfl := some.inj stepped
    exact sound.put_soundIff ((sound _).deleteInBucket n)
  | initialised =>
    obtain rfl := some.inj stepped
    exact ⟨fun _ => sound,absurd trivial⟩
  | nodeToRevalidate bi =>
    rw [Table.step] at stepped
    split at stepped
    · obtain rfl := some.inj stepped
      exact ⟨fun _ => sound,absurd trivial⟩
    · cases stepped
  | revalidated remoteSeq failed record draw =>
    rw [Table.step] at stepped
    split at stepped
    · cases stepped
    · case h_2 last bi pending =>
        obtain rfl := some.inj stepped
        have guardIff : tab.InStep (.revalidated remoteSeq failed record draw) ↔
            (failed = true → (tab.slot bi).FreeToReplace (tab.others bi)
              (currentRecord last remoteSeq record)) := by
          simp only [InStep,pending,some.injEq,Prod.mk.injEq]
          exact ⟨fun holds => holds last bi ⟨rfl,rfl⟩,by rintro holds _ _ ⟨rfl,rfl⟩; exact holds⟩
        rw [guardIff]
        have after := sound.put_soundIff
          ((sound bi).revalidated (currentRecord last remoteSeq record) failed draw)
        exact ⟨after.sound,fun fails exact => after.miscounted fails { exact with }⟩

omit sound

theorem sound_newTable (self : ID) : (newTable self).Sound := by
  intro b
  have noNodes (b : Fin nBuckets) : ((newTable self).slot b).nodes = [] := rfl
  have noOthers : (newTable self).others b = fun _ => 0 := by
    funext subnet
    exact Finset.sum_eq_zero fun other _ => by rw [noNodes,nodeCount_nil]
  refine ⟨⟨?_,?_⟩,⟨fun subnet => ?_,fun subnet => ?_⟩,?_,?_⟩
  · rw [noOthers,noNodes]
    exact Counts.empty
  · rw [noNodes]
    exact Counts.empty
  · rw [noOthers,noNodes]
    exact zero_le _
  · rw [noNodes]
    exact zero_le _
  · rw [noNodes]
    exact nodup_nil
  · rw [noNodes]
    exact fun node member => absurd member not_mem_nil

/-- The counters are exact throughout a run if and only if every operation of the run
keeps them in step. -/
theorem always_exact_iff (self : ID) (actions : List Action) :
    Always step Exact (newTable self) actions ↔ Guarded step InStep (newTable self) actions :=
  always_iff_guarded
    (fun _ _ _ sound inStep stepped => (Sound.step sound stepped).sound inStep)
    (fun _ sound => Sound.exact sound)
    (fun _ _ _ sound notInStep stepped => (Sound.step sound stepped).miscounted notInStep)
    (sound_newTable self)

def present : Node := ⟨Vector.replicate 32 2, [1, 2, 3, 4], 0⟩
def absent : Node := ⟨Vector.replicate 32 3, [1, 2, 3, 5], 0⟩

/-- Deleting a node that is not in the table takes another node out of the counters. -/
theorem delete_absent_uncounts :
    ∃ tab, runAll step (newTable (Vector.replicate 32 0)) [.addSeenNode present, .delete absent] =
        some tab ∧ present ∈ (tab.buckets (tab.bucket present.id)).entries ∧
      tab.ips.members.lookup (key tableSubnet present.ip) = none ∧ ¬tab.Exact := by
  refine ⟨_,rfl,by decide +kernel,by decide +kernel,fun exact => ?_⟩
  have lookupEq := exact.bucket (bucket (newTable (Vector.replicate 32 0)) present.id)
    (key tableSubnet present.ip)
  revert lookupEq
  decide +kernel

end Table

end PioplatRelay.Discovery
