import PioplatRelay.Peri

/-!
# Whom a round of Peri evicts

With `b` slots for peers that deliver blocks early and `t` for peers that deliver
transactions early, a round on `n` peers drops `n - (b + t)` of them, and none of
the last `b` and `t` of the two lists.  However the two reserves overlap, the peers
outside are enough, and the branch for a larger reserve is dead.
-/

namespace PioplatRelay

open Finset List

namespace Peri

structure ScoresOf (p : Peri) (scores : List IdScore) : Prop where
  nodup : (scores.map IdScore.id).Nodup
  mem_iff : ∀ id, id ∈ scores.map IdScore.id ↔ id ∈ p.peers

def Snapped (p : Peri) : Prop := ∀ id peer, p.peers.lookup id = some peer → p.enode id = peer.url

def lastIds (count : Nat) (scores : List IdScore) : List String :=
  (scores.drop (scores.length - count)).map IdScore.id

def ipOf (p : Peri) (id : String) : Option String := extractIPFromEnode (p.enode id)

def blockCount (p : Peri) (ip : String) : Int64 :=
  ((p.blocklist.lookup ip).map BlockItem.count).getD 0

/-- These peers have been removed and blocklisted, and no others. -/
structure Evicted (p : Peri) (ids : List String) (after : Peri) : Prop where
  removed : after.removed = p.removed ++ ids
  peers : ∀ id, after.peers.lookup id = if id ∈ ids then none else p.peers.lookup id
  blocked : ∀ ip, ip ∈ after.blocklist ↔ ip ∈ p.blocklist ∨ ∃ id ∈ ids, p.ipOf id = some ip
  counted : ∀ ip, after.blockCount ip =
    p.blockCount ip + Int64.ofNat (ids.countP fun id => p.ipOf id = some ip)
  untouched : ∀ ip, (∀ id ∈ ids, p.ipOf id ≠ some ip) →
    after.blocklist.lookup ip = p.blocklist.lookup ip

/-- What a round with these scores does, with `b` and `t` slots. -/
def EvictsSurplus (choices : Choices) (b t : Nat) (scores : Scores) (p : Peri) : Prop :=
  ∃ selected after, p.toDropIds choices scores = some selected ∧
    (p.peersReserve scores).card ≤ b + t ∧
    selected.Nodup ∧
    selected.length = p.peers.keys.card - (b + t) ∧
    (∀ id ∈ selected, id ∈ p.peers ∧ id ∉ lastIds b scores.blockScores ∧
      id ∉ lastIds t scores.txScores) ∧
    p.dropByScores choices scores = some after ∧
    p.Evicted (if p.config.periActive then selected.filter (· ∉ scores.excused) else []) after

variable {p after : Peri} {choices : Choices} {scores : Scores} {b t : Nat}

variable {list : List IdScore} {ids : List String} {id : String}

theorem ScoresOf.length_eq (scoresOf : p.ScoresOf list) : list.length = p.peers.keys.card := by
  have sameIds : (list.map IdScore.id).toFinset = p.peers.keys := by
    ext id
    rw [mem_toFinset,scoresOf.mem_iff,Finmap.mem_keys]
  rw [← sameIds,toFinset_card_of_nodup scoresOf.nodup,length_map]

/-! ## The reserve -/

theorem foldl_insert_eq (list : List IdScore) (reserve : Finset String) :
    list.foldl (fun reserve score => insert score.id reserve) reserve =
      reserve ∪ (list.map IdScore.id).toFinset := by
  induction list generalizing reserve with
  | nil => simp
  | cons score list ih =>
    rw [foldl_cons,ih,List.map_cons,toFinset_cons,insert_union,union_insert]

theorem reserveLast_eq (count : Nat) (list : List IdScore) (reserve : Finset String) :
    reserveLast count list reserve = reserve ∪ (lastIds count list).toFinset := by
  have idx : (max ((list.length : Int) - count) 0).toNat = list.length - count := by omega
  rw [reserveLast,idx,foldl_insert_eq,map_reverse,toFinset_reverse]
  rfl

theorem lastIds_length_le (count : Nat) (list : List IdScore) :
    (lastIds count list).length ≤ count := by
  simp only [lastIds,length_map,length_drop]
  omega

section Slots

variable (blockSlots : p.blockPeersCount = b) (txSlots : p.txsPeerCount = t)

include blockSlots txSlots

theorem peersReserve_eq : p.peersReserve scores =
    (lastIds b scores.blockScores).toFinset ∪ (lastIds t scores.txScores).toFinset := by
  rw [peersReserve,blockSlots,txSlots,reserveLast_eq,reserveLast_eq,empty_union]

theorem peersReserve_card_le : (p.peersReserve scores).card ≤ b + t := by
  rw [peersReserve_eq blockSlots txSlots]
  calc
    _ ≤ (lastIds b scores.blockScores).toFinset.card +
        (lastIds t scores.txScores).toFinset.card := card_union_le _ _
    _ ≤ (lastIds b scores.blockScores).length + (lastIds t scores.txScores).length :=
      Nat.add_le_add (toFinset_card_le _) (toFinset_card_le _)
    _ ≤ b + t := Nat.add_le_add (lastIds_length_le _ _) (lastIds_length_le _ _)

/-! ## The peers outside the reserve -/

variable (blockIds : p.ScoresOf scores.blockScores) (txIds : p.ScoresOf scores.txScores)

include blockIds txIds

section

omit blockSlots txSlots

theorem neighbors_eq : neighbors scores = p.peers.keys.card := by
  rw [neighbors,txIds.length_eq,blockIds.length_eq,Nat.min_self]

theorem peersRemove_eq : p.peersRemove scores =
    (scores.txScores.map IdScore.id).filter fun id => id ∉ p.peersReserve scores := by
  rw [peersRemove,neighbors_eq blockIds txIds,← txIds.length_eq,take_length]

theorem peersRemove_nodup : (p.peersRemove scores).Nodup := by
  rw [peersRemove_eq blockIds txIds]
  exact txIds.nodup.filter _

theorem toFinset_peersRemove :
    (p.peersRemove scores).toFinset = p.peers.keys \ p.peersReserve scores := by
  ext id
  rw [peersRemove_eq blockIds txIds,mem_toFinset,mem_filter,mem_sdiff,
    txIds.mem_iff,Finmap.mem_keys,decide_eq_true_eq]

end

theorem le_length_peersRemove : p.peers.keys.card - (b + t) ≤ (p.peersRemove scores).length := by
  rw [← toFinset_card_of_nodup (peersRemove_nodup blockIds txIds),
    toFinset_peersRemove blockIds txIds]
  have reserved : (p.peersReserve scores).card ≤ b + t := peersReserve_card_le blockSlots txSlots
  calc
    p.peers.keys.card - (b + t) ≤ p.peers.keys.card - (p.peersReserve scores).card :=
      Nat.sub_le_sub_left reserved _
    _ ≤ (p.peers.keys \ p.peersReserve scores).card := le_card_sdiff _ _

/-! ## The selection -/

omit blockSlots txSlots blockIds txIds in
theorem sliceTo_of_le (spare : Nat) {ids : List String} {high : Nat} (inside : high ≤ ids.length) :
    sliceTo spare ids high = some (ids.take high) := by
  rw [sliceTo,if_pos (by omega),Int.toNat_natCast,take_append_of_le_length inside]

/-- The round takes the first peers of a shuffle of those outside the reserve. -/
theorem toDropIds_eq : p.toDropIds choices scores =
    some ((shuffle choices.draws (p.peersRemove scores)).take (p.peers.keys.card - (b + t))) := by
  have reserved : (p.peersReserve scores).card ≤ b + t := peersReserve_card_le blockSlots txSlots
  have enough : p.peers.keys.card - (b + t) ≤
      (shuffle choices.draws (p.peersRemove scores)).length := by
    rw [(shuffle_perm choices.draws _).length_eq]
    exact le_length_peersRemove blockSlots txSlots blockIds txIds
  rw [toDropIds,neighbors_eq blockIds txIds,blockSlots,txSlots]
  by_cases surplus : ((b : Int) + t) < p.peers.keys.card
  · have drops : (p.peers.keys.card : Int) - (b + t) =
        ((p.peers.keys.card - (b + t) : Nat) : Int) := by omega
    rw [if_pos surplus,if_pos (by omega),drops,sliceTo_of_le choices.spare enough]
  · rw [if_neg surplus,Nat.sub_eq_zero_of_le (by omega),take_zero]

variable {selected : List String} (selectedEq : p.toDropIds choices scores = some selected)

include selectedEq

theorem selected_eq : selected =
    (shuffle choices.draws (p.peersRemove scores)).take (p.peers.keys.card - (b + t)) := by
  rw [toDropIds_eq blockSlots txSlots blockIds txIds] at selectedEq
  exact (Option.some_inj.mp selectedEq).symm

theorem selected_nodup : selected.Nodup := by
  rw [selected_eq blockSlots txSlots blockIds txIds selectedEq]
  apply Nodup.sublist (take_sublist _ _)
  rw [(shuffle_perm choices.draws _).nodup_iff]
  exact peersRemove_nodup blockIds txIds

theorem selected_length : selected.length = p.peers.keys.card - (b + t) := by
  rw [selected_eq blockSlots txSlots blockIds txIds selectedEq,length_take,
    (shuffle_perm choices.draws _).length_eq]
  exact Nat.min_eq_left (le_length_peersRemove blockSlots txSlots blockIds txIds)

theorem selected_unreserved {id : String} (member : id ∈ selected) :
    id ∈ p.peers ∧ id ∉ lastIds b scores.blockScores ∧ id ∉ lastIds t scores.txScores := by
  rw [selected_eq blockSlots txSlots blockIds txIds selectedEq] at member
  have removable := (shuffle_perm choices.draws _).subset (mem_of_mem_take member)
  rw [← mem_toFinset,toFinset_peersRemove blockIds txIds,mem_sdiff,Finmap.mem_keys,
    peersReserve_eq blockSlots txSlots,mem_union,mem_toFinset,mem_toFinset,
    not_or] at removable
  exact removable

end Slots

/-! ## The removals -/

theorem dropPeer_evicted {id ip : String} (found : p.ipOf id = some ip) :
    ∃ after, p.dropPeer choices id = some after ∧ p.Evicted [id] after ∧
      after.peersSnapShot = p.peersSnapShot := by
  rw [ipOf] at found
  simp only [dropPeer,found]
  refine ⟨_,rfl,?_,rfl⟩
  constructor
  · rfl
  · intro other
    simp [lookup_erase_ite]
  · intro other
    simp only [Finmap.mem_insert,List.mem_singleton,exists_eq_left,ipOf,found,Option.some_inj]
    tauto
  · intro other
    simp only [blockCount,countP_singleton,ipOf,found,Option.some_inj,decide_eq_true_eq]
    rcases eq_or_ne other ip with rfl | different
    · cases p.blocklist.lookup other <;> simp
    · simp [different,different.symm]
  · intro other away
    have different : other ≠ ip := by
      rintro rfl
      exact away id mem_cons_self found
    simp [lookup_insert_ite,if_neg different]

theorem Evicted.cons {middle : Peri}
    (first : p.Evicted [id] middle) (rest : middle.Evicted ids after)
    (sameIps : ∀ other, middle.ipOf other = p.ipOf other) : p.Evicted (id :: ids) after where
  removed := by
    rw [rest.removed,first.removed,append_assoc]
    rfl
  peers other := by
    rw [rest.peers,first.peers]
    by_cases later : other ∈ ids <;> by_cases now : other = id <;> simp [now]
  blocked ip := by
    rw [rest.blocked,first.blocked]
    simp [sameIps,or_assoc]
  counted ip := by
    rw [rest.counted,first.counted]
    simp only [sameIps,countP_cons,countP_nil]
    rw [Int64.add_assoc,← Int64.ofNat_add]
    congr 2
    omega
  untouched ip away := by
    rw [List.forall_mem_cons] at away
    rw [rest.untouched ip (fun other member => by rw [sameIps]; exact away.2 other member),
      first.untouched ip (fun other member => by rw [List.mem_singleton.mp member]; exact away.1)]

theorem Evicted.none (p : Peri) : p.Evicted [] p where
  removed := (append_nil _).symm
  peers _ := rfl
  blocked _ := by simp
  counted _ := by simp
  untouched _ _ := rfl

theorem dropAll_evicted (found : ∀ id ∈ ids, ∃ ip, p.ipOf id = some ip) :
    ∃ after, ids.foldlM (fun p id => p.dropPeer choices id) p = some after ∧
      p.Evicted ids after := by
  induction ids generalizing p with
  | nil => exact ⟨p,rfl,.none p⟩
  | cons id ids ih =>
    rw [List.forall_mem_cons] at found
    obtain ⟨ip,ipEq⟩ := found.1
    obtain ⟨middle,dropped,first,sameSnapShot⟩ :
        ∃ middle, p.dropPeer choices id = some middle ∧ _ := dropPeer_evicted ipEq
    have sameIps (other : String) : middle.ipOf other = p.ipOf other := by
      rw [ipOf,ipOf,enode,enode,sameSnapShot]
    have foundRest : ∀ other ∈ ids, ∃ ip, middle.ipOf other = some ip := by
      intro other member
      rw [sameIps]
      exact found.2 other member
    obtain ⟨after,droppedRest,rest⟩ := ih foundRest
    refine ⟨after,?_,first.cons rest sameIps⟩
    rw [foldlM_cons,dropped]
    exact droppedRest

theorem extractIPFromEnode_of_le {url : String} (addressed : enodeSplitIndex ≤ url.length) :
    ∃ ip, extractIPFromEnode url = some ip :=
  ⟨_,if_neg (Nat.not_lt.mpr addressed)⟩

theorem Snapped.exists_ip (snapped : p.Snapped) (registered : id ∈ p.peers) :
    ∃ ip, p.ipOf id = some ip := by
  obtain ⟨peer,peerEq⟩ := Option.isSome_iff_exists.mp (Finmap.lookup_isSome.mpr registered)
  rw [ipOf,snapped id peer peerEq]
  exact extractIPFromEnode_of_le peer.addressed

theorem dropUnexcused_evicted (excused : Finset String)
    (found : ∀ id ∈ ids, ∃ ip, p.ipOf id = some ip) :
    ∃ after, ids.foldlM
        (fun p id => if id ∈ excused then some p else p.dropPeer choices id) p = some after ∧
      p.Evicted (ids.filter (· ∉ excused)) after := by
  have skips : (fun (p : Peri) (id : String) =>
      if id ∈ excused then some p else p.dropPeer choices id) =
      fun p id => if decide (id ∉ excused) = true then p.dropPeer choices id else pure p := by
    funext p id
    by_cases isExcused : id ∈ excused <;> simp [isExcused]
  rw [skips,← foldlM_filter]
  exact dropAll_evicted fun id member => found id (mem_of_mem_filter member)

theorem Evicted.resetRecords (evicted : p.Evicted ids after) :
    p.Evicted ids (after.resetRecords choices) :=
  { evicted with }

theorem dropByScores_evicted (snapped : p.Snapped) {selected : List String}
    (selectedEq : p.toDropIds choices scores = some selected)
    (registered : ∀ id ∈ selected, id ∈ p.peers) :
    ∃ after, p.dropByScores choices scores = some after ∧
      p.Evicted (if p.config.periActive then selected.filter (· ∉ scores.excused) else [])
        after := by
  obtain ⟨dropped,droppedEq,evicted⟩ : ∃ dropped, selected.foldlM
      (fun p id => if id ∈ scores.excused then some p else p.dropPeer choices id) p =
        some dropped ∧ p.Evicted (selected.filter (· ∉ scores.excused)) dropped :=
    dropUnexcused_evicted scores.excused fun id member => snapped.exists_ip (registered id member)
  cases active : p.config.periActive with
  | true =>
    refine ⟨dropped.resetRecords choices,?_,evicted.resetRecords⟩
    simp [dropByScores,selectedEq,active,droppedEq]
  | false =>
    refine ⟨p.resetRecords choices,?_,(Evicted.none p).resetRecords⟩
    simp [dropByScores,selectedEq,active]

theorem evictsSurplus (blockSlots : p.blockPeersCount = b) (txSlots : p.txsPeerCount = t)
    (blockIds : p.ScoresOf scores.blockScores) (txIds : p.ScoresOf scores.txScores)
    (snapped : p.Snapped) : p.EvictsSurplus choices b t scores := by
  have selectedEq : p.toDropIds choices scores = some _ :=
    toDropIds_eq blockSlots txSlots blockIds txIds
  have unreserved := fun id (member : id ∈ _) =>
    selected_unreserved blockSlots txSlots blockIds txIds selectedEq member
  obtain ⟨after,afterEq,evicted⟩ :=
    dropByScores_evicted snapped selectedEq fun id member => (unreserved id member).1
  exact ⟨_,after,selectedEq,peersReserve_card_le blockSlots txSlots,
    selected_nodup blockSlots txSlots blockIds txIds selectedEq,
    selected_length blockSlots txSlots blockIds txIds selectedEq,unreserved,afterEq,evicted⟩

/-! ## The scores of a round -/

def scored (choices : Choices) (p : Peri) : Peri :=
  p.snapShot (choices.peersOrder.order p.peers.keys)

def ownScores (choices : Choices) (p : Peri) : Scores :=
  let ids := choices.peersOrder.order p.peers.keys
  let scored := p.scored choices
  ⟨choices.sortBlocks.sort scored.scoreLess (ids.map (scored.blockScore choices)),
    choices.sortTxs.sort scored.scoreLess (ids.map (scored.txScore choices)),
    (ids.filter scored.isExcused).toFinset⟩

theorem scored_snapped (choices : Choices) (p : Peri) : (p.scored choices).Snapped := by
  intro id peer found
  have registered : id ∈ choices.peersOrder.order p.peers.keys := by
    rw [choices.peersOrder.mem_iff,Finmap.mem_keys]
    exact Finmap.mem_of_lookup_eq_some found
  rw [enode,scored,snapShot]
  rw [lookup_foldl_insert_ite _ (fun id => ((p.peers.lookup id).map EthPeer.url).getD ""),
    if_pos registered]
  have foundHere : p.peers.lookup id = some peer := found
  rw [foundHere]
  rfl

theorem scoresOf_sorted (choices : Choices) (p : Peri) (sorting : SliceSort IdScore)
    (less : IdScore → IdScore → Bool) {score : String → IdScore}
    (keeps : ∀ id, (score id).id = id) :
    p.ScoresOf (sorting.sort less ((choices.peersOrder.order p.peers.keys).map score)) := by
  have samePeers := (sorting.perm less
    ((choices.peersOrder.order p.peers.keys).map score)).map IdScore.id
  have ids : ((choices.peersOrder.order p.peers.keys).map score).map IdScore.id =
      choices.peersOrder.order p.peers.keys := by
    rw [List.map_map]
    exact map_id'' keeps _
  rw [ids] at samePeers
  constructor
  · exact samePeers.nodup_iff.mpr (choices.peersOrder.nodup _)
  · intro id
    rw [samePeers.mem_iff,choices.peersOrder.mem_iff,Finmap.mem_keys]

theorem ownScores_scoresOf (choices : Choices) (p : Peri) :
    (p.scored choices).ScoresOf (p.ownScores choices).blockScores ∧
      (p.scored choices).ScoresOf (p.ownScores choices).txScores :=
  ⟨scoresOf_sorted choices (p.scored choices) _ _ fun _ => rfl,
    scoresOf_sorted choices (p.scored choices) _ _ fun _ => rfl⟩

theorem sortScores_of_snapped (snapped : p.Snapped) (sorting : SliceSort IdScore)
    (registered : ∀ score ∈ list, score.id ∈ p.peers) :
    p.sortScores sorting list = some (sorting.sort p.scoreLess list) := by
  rw [sortScores,if_neg]
  rintro ⟨-,score,member,missing⟩
  obtain ⟨ip,ipEq⟩ := snapped.exists_ip (registered score member)
  rw [ipOf] at ipEq
  simp [isNoDropPeer,ipEq] at missing

theorem getScores_eq (choices : Choices) (p : Peri) :
    p.getScores choices = some (p.scored choices, p.ownScores choices) := by
  have registered (score : String → IdScore) (keeps : ∀ id, (score id).id = id) :
      ∀ entry ∈ (choices.peersOrder.order p.peers.keys).map score,
        entry.id ∈ (p.scored choices).peers := by
    intro entry member
    obtain ⟨id,idMem,rfl⟩ := mem_map.mp member
    rw [keeps]
    exact Finmap.mem_keys.mp ((choices.peersOrder.mem_iff _ _).mp idMem)
  have snapped := scored_snapped choices p
  rw [getScores,← scored,
    sortScores_of_snapped snapped choices.sortBlocks (registered _ fun _ => rfl),
    sortScores_of_snapped snapped choices.sortTxs (registered _ fun _ => rfl)]
  rfl

theorem disconnectByScore_eq (choices : Choices)
    (recorded : p.blocks.arrivals.keys.card ≠ 0 ∧ p.txs.arrivals.keys.card ≠ 0) :
    p.disconnectByScore choices =
      (p.scored choices).dropByScores choices (p.ownScores choices) := by
  rw [disconnectByScore,if_neg (not_or.mpr recorded),getScores_eq]
  rfl

/-- A round on recorded arrivals scores all registered peers and goes on to drop
by these scores; and however the two lists order the peers, it selects exactly
the surplus, distinct peers outside both reserves, and removes and blocklists
exactly those that are not excused. -/
theorem disconnectByScore_evictsSurplus (p : Peri) (b t : Nat)
    (blockSlots : p.blockPeersCount = b) (txSlots : p.txsPeerCount = t)
    (recorded : p.blocks.arrivals.keys.card ≠ 0 ∧ p.txs.arrivals.keys.card ≠ 0)
    (choices : Choices) : (∃ own, p.getScores choices = some (p.scored choices, own) ∧
        p.disconnectByScore choices = (p.scored choices).dropByScores choices own ∧
        (p.scored choices).ScoresOf own.blockScores ∧ (p.scored choices).ScoresOf own.txScores) ∧
      ∀ scores : Scores, (p.scored choices).ScoresOf scores.blockScores →
        (p.scored choices).ScoresOf scores.txScores →
        (p.scored choices).EvictsSurplus choices b t scores := by
  constructor
  · refine ⟨p.ownScores choices,getScores_eq choices p,?_,ownScores_scoresOf choices p⟩
    exact disconnectByScore_eq choices recorded
  · intro scores blockIds txIds
    exact evictsSurplus blockSlots txSlots blockIds txIds (scored_snapped choices p)

def twoPeers : Peri :=
  { Peri.fresh ⟨true, [], 0, 100⟩
      ((Finmap.singleton "first" (.ofIp "10.0.0.1" 0)).insert "second" (.ofIp "10.0.0.2" 0))
      1 0 30000 ∅ with
    blocks := ⟨.singleton (.zero, 7) 5, .singleton (.zero, 7) (.singleton "first" 5)⟩
    txs := ⟨.singleton .zero 6, .singleton .zero (.singleton "first" 6)⟩ }

/-- With one slot, one of two peers is selected. -/
theorem disconnectByScore_evictsSurplus_twoPeers :
    ∃ own selected after, twoPeers.getScores .plain = some (twoPeers.scored .plain, own) ∧
      (twoPeers.scored .plain).toDropIds .plain own = some selected ∧ selected.length = 1 ∧
      twoPeers.disconnectByScore .plain = some after ∧
      after.removed = selected.filter (· ∉ own.excused) := by
  obtain ⟨⟨own,scoresEq,roundEq,blockIds,txIds⟩,evicts⟩ :=
    disconnectByScore_evictsSurplus twoPeers 1 0 rfl rfl (by decide) .plain
  obtain ⟨selected,after,selectedEq,-,-,lengthEq,-,afterEq,evicted⟩ :=
    evicts own blockIds txIds
  exact ⟨own,selected,after,scoresEq,selectedEq,lengthEq,roundEq.trans afterEq,evicted.removed⟩

end Peri

end PioplatRelay
