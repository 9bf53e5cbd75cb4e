import PioplatRelay.Peri

/-!
# Broadcasts to the pioplat peers

A block or a transaction goes to the connected peers with an IP address in `periPeersIp`
that do not know it yet.  The loop over the peers ends when it has met as many of them as
there are addresses, so it reaches all of them exactly if there are not more.
-/

namespace PioplatRelay

open Finmap List Option IterationOrder

namespace Peri

def maxKnownTxs : Nat := 32768

def maxKnownBlocks : Nat := 1024

def maxQueuedBlocks : Nat := 4

variable (pops : IterationOrder Hash)

/-- `knownCache.Add`: hashes are popped, whichever come first, to make room. -/
def addKnown (limit : Nat) (hashes : List Hash)
    (known : Finset Hash) : Finset Hash :=
  ((pops.order known).drop (known.card - (limit - hashes.length))).toFinset ∪ hashes.toFinset

/-- A connected peer, with what has been handed to its two loops.  It is closed when one
of its channels `term` and `txTerm` is. -/
structure PioplatPeer where
  ip : String
  knownBlocks : Finset Hash
  knownTxs : Finset Hash
  queuedBlocks : List (Hash × Int)
  txBroadcast : List Hash
  closed : Bool

abbrev PioplatPeers := Finmap fun _ : String => PioplatPeer

/-- What the runtime decides in a loop over the peers. -/
structure BroadcastChoices where
  order : IterationOrder String
  pops : String → IterationOrder Hash
  /-- A `select` prefers a closed channel to the loop that takes the hashes. -/
  drops : String → Bool

def BroadcastChoices.plain : BroadcastChoices where
  order := .sorted
  pops _ := @sorted Hash Hash.byValue
  drops _ := false

/-- `AsyncSendNewBlock`; a block is dropped if the queue is full. -/
def asyncSendNewBlock (hash : Hash) (td : Int)
    (peer : PioplatPeer) : PioplatPeer :=
  if peer.queuedBlocks.length < maxQueuedBlocks then
    { peer with
      queuedBlocks := peer.queuedBlocks ++ [(hash, td)]
      knownBlocks := addKnown pops maxKnownBlocks [hash] peer.knownBlocks }
  else peer

/-- `AsyncSendTransactions`; it waits for the loop of the peer unless that is closed. -/
def asyncSendTransactions (drops : Bool) (hashes : List Hash)
    (peer : PioplatPeer) : PioplatPeer :=
  if peer.closed ∧ drops then peer
  else
    { peer with
      txBroadcast := peer.txBroadcast ++ hashes
      knownTxs := addKnown pops maxKnownTxs hashes peer.knownTxs }

/-- The loop of both broadcasts, with the peers it sends to. -/
def offer (periPeersIp : Finset String) (knows : PioplatPeer → Bool)
    (send : String → PioplatPeer → PioplatPeer) :
    List String → Nat → PioplatPeers → PioplatPeers × List String
  | [], _, peers => (peers, [])
  | id :: ids, pioplatCount, peers =>
    match peers.lookup id with
    | none => offer periPeersIp knows send ids pioplatCount peers
    | some peer =>
      if peer.ip ∈ periPeersIp then
        let next := if knows peer then peers else peers.insert id (send id peer)
        let calls := if knows peer then [] else [id]
        if periPeersIp.card ≤ pioplatCount + 1 then (next, calls)
        else
          let (next, later) := offer periPeersIp knows send ids (pioplatCount + 1) next
          (next, calls ++ later)
      else offer periPeersIp knows send ids pioplatCount peers

structure PioplatHandler where
  periBroadcast : Bool
  periPeersIp : Finset String
  peers : PioplatPeers
  currentBlock : UInt64

namespace PioplatHandler

def broadcastBlockToPioplatPeer (choices : BroadcastChoices) (number : UInt64) (hash : Hash)
    (td : Int) (h : PioplatHandler) : PioplatPeers × List String :=
  let dist := (number.toInt64 - h.currentBlock.toInt64).toInt
  if dist < -maxBlockDist ∨ dist > maxBlockDist then (h.peers, [])
  else if h.periBroadcast then
    offer h.periPeersIp (fun peer => hash ∈ peer.knownBlocks)
      (fun id => asyncSendNewBlock (choices.pops id) hash td)
      (choices.order.order h.peers.keys) 0 h.peers
  else (h.peers, [])

def offerTransaction (choices : BroadcastChoices) (tx : Hash) (h : PioplatHandler)
    (peers : PioplatPeers) : PioplatPeers × List String :=
  offer h.periPeersIp (fun peer => tx ∈ peer.knownTxs)
    (fun id => asyncSendTransactions (choices.pops id) (choices.drops id) [tx])
    (choices.order.order peers.keys) 0 peers

def broadcastTransactionsToPioplatPeer (choices : Nat → BroadcastChoices) (txs : List Hash)
    (h : PioplatHandler) : PioplatPeers × List (Hash × String) :=
  if h.periBroadcast then
    txs.zipIdx.foldl (fun state entry =>
      let (peers, calls) := h.offerTransaction (choices entry.2) entry.1 state.1
      (peers, state.2 ++ calls.map fun id => (entry.1, id))) (h.peers, [])
  else (h.peers, [])

end PioplatHandler

/-! ### The loop -/

section Loop

variable {periPeersIp : Finset String} {knows : PioplatPeer → Bool}
  {send : String → PioplatPeer → PioplatPeer} {peers : PioplatPeers} {ids : List String}

def isPioplat (periPeersIp : Finset String) (peers : PioplatPeers) (id : String) : Bool :=
  (peers.lookup id).any fun peer => peer.ip ∈ periPeersIp

def lacks (knows : PioplatPeer → Bool) (peers : PioplatPeers) (id : String) : Bool :=
  (peers.lookup id).any fun peer => !knows peer

variable {id : String} {peer : PioplatPeer}

theorem isPioplat_iff : isPioplat periPeersIp peers id = true ↔
    ∃ peer, peers.lookup id = some peer ∧ peer.ip ∈ periPeersIp := by
  rw [isPioplat]
  cases peers.lookup id <;> simp

theorem lacks_iff : lacks knows peers id = true ↔
    ∃ peer, peers.lookup id = some peer ∧ knows peer = false := by
  rw [lacks]
  cases peers.lookup id <;> simp

def visit (knows : PioplatPeer → Bool) (send : String → PioplatPeer → PioplatPeer) (id : String)
    (peer : PioplatPeer) (peers : PioplatPeers) : PioplatPeers × List String :=
  if knows peer then (peers, []) else (peers.insert id (send id peer), [id])

theorem offer_cons_of_pioplat (found : peers.lookup id = some peer) (inside : peer.ip ∈ periPeersIp)
    (count : Nat) :
    offer periPeersIp knows send (id :: ids) count peers =
      if periPeersIp.card ≤ count + 1 then visit knows send id peer peers
      else
        let later := offer periPeersIp knows send ids (count + 1) (visit knows send id peer peers).1
        (later.1, (visit knows send id peer peers).2 ++ later.2) := by
  rw [offer,found]
  dsimp only
  rw [if_pos inside,visit]
  cases knows peer <;> rfl

theorem offer_cons_of_not_pioplat (other : isPioplat periPeersIp peers id = false) (count : Nat) :
    offer periPeersIp knows send (id :: ids) count peers =
      offer periPeersIp knows send ids count peers := by
  rw [offer]
  cases found : peers.lookup id with
  | none => rfl
  | some peer =>
    rw [isPioplat,found,any_some,decide_eq_false_iff_not] at other
    exact if_neg other

theorem lookup_visit (found : peers.lookup id = some peer) (other : String) :
    (visit knows send id peer peers).1.lookup other =
      if other ∈ (visit knows send id peer peers).2 then
        (peers.lookup other).map (send other) else peers.lookup other := by
  rw [visit]
  cases knows peer with
  | true => rfl
  | false =>
    simp only [Bool.false_eq_true,if_false,List.mem_singleton,lookup_insert_ite]
    by_cases same : other = id
    · rw [if_pos same,if_pos same,same,found,map_some]
    · rw [if_neg same,if_neg same]

theorem visit_calls (found : peers.lookup id = some peer) :
    (visit knows send id peer peers).2 = [id].filter (lacks knows peers) := by
  have lacksEq : lacks knows peers id = !knows peer := by rw [lacks,found,any_some]
  rw [visit]
  cases known : knows peer with
  | true => rw [filter_cons_of_neg (by rw [lacksEq,known]; decide)]; rfl
  | false => rw [filter_cons_of_pos (by rw [lacksEq,known]; decide)]; rfl

theorem mem_visit_calls {other : String} (called : other ∈ (visit knows send id peer peers).2) :
    other = id := by
  rw [visit] at called
  split at called
  · cases called
  · exact List.mem_singleton.mp called

theorem filters_congr {next : PioplatPeers} (same : ∀ id ∈ ids, next.lookup id = peers.lookup id) :
    ids.filter (isPioplat periPeersIp next) = ids.filter (isPioplat periPeersIp peers) ∧
      ∀ some_ids, some_ids ⊆ ids →
        some_ids.filter (lacks knows next) = some_ids.filter (lacks knows peers) := by
  constructor
  · apply filter_congr
    intro id member
    rw [isPioplat,same id member,isPioplat]
  · intro some_ids subset
    apply filter_congr
    intro id member
    rw [lacks,same id (subset member),lacks]

/-- The peers that the loop sends to are those that lack the item, among the first pioplat
peers, as many as there are addresses left. -/
theorem offer_spec (distinct : ids.Nodup) {count : Nat}
    (room : count < periPeersIp.card ∨ ids.filter (isPioplat periPeersIp peers) = []) :
    (offer periPeersIp knows send ids count peers).2 =
        ((ids.filter (isPioplat periPeersIp peers)).take (periPeersIp.card - count)).filter
          (lacks knows peers) ∧
      ∀ id, (offer periPeersIp knows send ids count peers).1.lookup id =
        if id ∈ (offer periPeersIp knows send ids count peers).2 then
          (peers.lookup id).map (send id) else peers.lookup id := by
  induction ids generalizing count peers with
  | nil => exact ⟨by simp [offer],fun _ => rfl⟩
  | cons id ids ih =>
    obtain ⟨fresh,distinct⟩ := nodup_cons.mp distinct
    cases pioplat : isPioplat periPeersIp peers id with
    | false =>
      rw [filter_cons_of_neg (by rw [pioplat]; decide)] at room ⊢
      rw [offer_cons_of_not_pioplat pioplat]
      exact ih distinct room
    | true =>
      obtain ⟨peer,found,inside⟩ := isPioplat_iff.mp pioplat
      rw [filter_cons_of_pos pioplat] at room ⊢
      have more : count < periPeersIp.card := room.resolve_right (cons_ne_nil _ _)
      obtain ⟨left,leftEq⟩ := Nat.exists_eq_add_of_lt more
      have countLeft : periPeersIp.card - count = left + 1 := by omega
      rw [offer_cons_of_pioplat found inside,countLeft,take_succ_cons,
        ← singleton_append,filter_append,← visit_calls found]
      by_cases last : periPeersIp.card ≤ count + 1
      · have nothing : left = 0 := by omega
        rw [if_pos last,nothing,take_zero,filter_nil,append_nil]
        exact ⟨rfl,lookup_visit found⟩
      · rw [if_neg last]
        -- The rest of the loop sees the peers that are still to come unchanged.
        have unchanged : ∀ other ∈ ids,
            (visit knows send id peer peers).1.lookup other = peers.lookup other := by
          intro other member
          rw [lookup_visit found,if_neg]
          intro called
          rw [mem_visit_calls called] at member
          exact fresh member
        obtain ⟨pioplatEq,lacksEq⟩ := @filters_congr periPeersIp knows _ _ _ unchanged
        obtain ⟨callsEq,lookupEq⟩ := @ih (visit knows send id peer peers).1 distinct (count + 1)
          (Or.inl (by omega))
        have leftLater : periPeersIp.card - (count + 1) = left := by omega
        have visited : (ids.filter (isPioplat periPeersIp peers)).take left ⊆ ids := by
          intro other member
          exact mem_of_mem_filter (mem_of_mem_take member)
        rw [pioplatEq,leftLater,lacksEq _ visited] at callsEq
        dsimp only
        refine ⟨by rw [callsEq],?_⟩
        intro other
        rw [lookupEq,lookup_visit found]
        by_cases called : other ∈ (visit knows send id peer peers).2
        · have notLater : other ∉ (offer periPeersIp knows send ids (count + 1)
              (visit knows send id peer peers).1).2 := by
            rw [callsEq,mem_visit_calls called]
            intro again
            exact fresh (visited (mem_of_mem_filter again))
          rw [if_neg notLater,if_pos called,if_pos (mem_append_left _ called)]
        · rw [if_neg called]
          simp [called]

/-- Exactly the pioplat peers that do not know the item have been called, each once. -/
structure Served (periPeersIp : Finset String) (knows : PioplatPeer → Bool)
    (peers : PioplatPeers) (calls : List String) : Prop where
  nodup : calls.Nodup
  mem_iff : ∀ id, id ∈ calls ↔
    ∃ peer, peers.lookup id = some peer ∧ peer.ip ∈ periPeersIp ∧ knows peer = false

def AllKnow (periPeersIp : Finset String) (knows : PioplatPeer → Bool) (peers : PioplatPeers) :
    Prop :=
  ∀ id peer, peers.lookup id = some peer → peer.ip ∈ periPeersIp → knows peer = true

def pioplatPeers (periPeersIp : Finset String) (peers : PioplatPeers) : Finset String :=
  peers.keys.filter fun id => isPioplat periPeersIp peers id = true

theorem waits_iff : isPioplat periPeersIp peers id = true ∧ lacks knows peers id = true ↔
      ∃ peer, peers.lookup id = some peer ∧ peer.ip ∈ periPeersIp ∧ knows peer = false := by
  rw [isPioplat_iff,lacks_iff]
  constructor
  · rintro ⟨⟨peer,found,inside⟩,⟨other,otherFound,unknown⟩⟩
    rw [found] at otherFound
    cases otherFound
    exact ⟨peer,found,inside,unknown⟩
  · rintro ⟨peer,found,inside,unknown⟩
    exact ⟨⟨peer,found,inside⟩,⟨peer,found,unknown⟩⟩

theorem served_nil_iff : Served periPeersIp knows peers [] ↔ AllKnow periPeersIp knows peers := by
  constructor
  · intro served id peer found inside
    by_contra unknown
    exact not_mem_nil ((served.mem_iff id).mpr
      ⟨peer,found,inside,Bool.eq_false_of_not_eq_true unknown⟩)
  · intro allKnow
    refine ⟨nodup_nil,?_⟩
    intro id
    simp only [not_mem_nil,false_iff]
    rintro ⟨peer,found,inside,unknown⟩
    rw [allKnow id peer found inside] at unknown
    cases unknown

section Order

variable (order : IterationOrder String)

theorem isPioplat_of_no_addresses (none : periPeersIp = ∅) (id : String) :
    isPioplat periPeersIp peers id = false := by
  rw [isPioplat,none]
  cases peers.lookup id <;> rfl

theorem offer_order_spec :
    (offer periPeersIp knows send (order.order peers.keys) 0 peers).2 =
        (((order.order peers.keys).filter (isPioplat periPeersIp peers)).take
          periPeersIp.card).filter (lacks knows peers) ∧
      ∀ id, (offer periPeersIp knows send (order.order peers.keys) 0 peers).1.lookup id =
        if id ∈ (offer periPeersIp knows send (order.order peers.keys) 0 peers).2 then
          (peers.lookup id).map (send id) else peers.lookup id := by
  apply offer_spec (order.nodup _)
  rcases periPeersIp.eq_empty_or_nonempty with none | some
  · right
    apply filter_eq_nil_iff.mpr
    intro id _
    rw [isPioplat_of_no_addresses none]
    decide
  · exact Or.inl some.card_pos

theorem length_filter_order :
    ((order.order peers.keys).filter (isPioplat periPeersIp peers)).length =
      (pioplatPeers periPeersIp peers).card := by
  rw [← toFinset_card_of_nodup ((order.nodup _).filter _),toFinset_filter,
    order.toFinset_order,pioplatPeers]

/-- With enough addresses the loop reaches all pioplat peers. -/
theorem offer_served (few : (pioplatPeers periPeersIp peers).card ≤ periPeersIp.card) :
    Served periPeersIp knows peers
      (offer periPeersIp knows send (order.order peers.keys) 0 peers).2 := by
  rw [(offer_order_spec order).1,take_of_length_le (by rwa [length_filter_order])]
  refine ⟨((order.nodup _).filter _).filter _,?_⟩
  intro id
  rw [mem_filter,mem_filter,order.mem_iff,Finmap.mem_keys,and_assoc,waits_iff]
  constructor
  · exact And.right
  · intro waits
    have ⟨_,found,_⟩ := waits
    exact ⟨mem_of_lookup_eq_some found,waits⟩

theorem offer_eq_of_allKnow (allKnow : AllKnow periPeersIp knows peers) :
    offer periPeersIp knows send (order.order peers.keys) 0 peers = (peers, []) := by
  have noCalls : (offer periPeersIp knows send (order.order peers.keys) 0 peers).2 = [] := by
    rw [(offer_order_spec order).1,filter_eq_nil_iff]
    intro id member lacking
    have pioplat := (mem_filter.mp (mem_of_mem_take member)).2
    obtain ⟨peer,found,inside,unknown⟩ := waits_iff.mp ⟨pioplat,lacking⟩
    rw [allKnow id peer found inside] at unknown
    cases unknown
  apply Prod.ext
  · apply ext_lookup
    intro id
    rw [(offer_order_spec order).2,noCalls,if_neg not_mem_nil]
  · exact noCalls

/-- With too few addresses the loop does not come to the last pioplat peer. -/
theorem offer_misses (many : periPeersIp.card < (pioplatPeers periPeersIp peers).card)
    {last : String} (pioplat : isPioplat periPeersIp peers last = true) :
    last ∉ (offer periPeersIp knows send ((order.lastly last).order peers.keys) 0 peers).2 := by
  have registered : last ∈ peers.keys := by
    obtain ⟨peer,found,_⟩ := isPioplat_iff.mp pioplat
    exact Finmap.mem_keys.mpr (mem_of_lookup_eq_some found)
  have orderEq : (order.lastly last).order peers.keys =
      order.order (peers.keys.erase last) ++ [last] := by
    rw [lastly]
    dsimp only
    rw [if_pos registered]
  have count : (((order.lastly last).order peers.keys).filter
      (isPioplat periPeersIp peers)).length = _ := length_filter_order (order.lastly last)
  rw [orderEq,filter_append,filter_cons_of_pos pioplat,filter_nil,
    length_append,length_singleton] at count
  rw [(offer_order_spec _).1,orderEq,filter_append,filter_cons_of_pos pioplat,
    filter_nil,take_append_of_le_length (by omega)]
  intro called
  have earlier := mem_of_mem_filter (mem_of_mem_take (mem_of_mem_filter called))
  rw [order.mem_iff,Finset.mem_erase] at earlier
  exact earlier.1 rfl

end Order

/-- The loop serves the pioplat peers, whatever the runtime decides, exactly if there are
enough addresses or nobody lacks the item. -/
theorem offer_served_iff (send : BroadcastChoices → String → PioplatPeer → PioplatPeer) :
    (∀ choices : BroadcastChoices, Served periPeersIp knows peers
      (offer periPeersIp knows (send choices) (choices.order.order peers.keys) 0 peers).2) ↔
      (pioplatPeers periPeersIp peers).card ≤ periPeersIp.card ∨
        AllKnow periPeersIp knows peers := by
  constructor
  · intro served
    by_contra neither
    rw [not_or,not_le,AllKnow] at neither
    obtain ⟨many,someLacks⟩ := neither
    push Not at someLacks
    obtain ⟨last,peer,found,inside,unknown⟩ := someLacks
    apply offer_misses .sorted many (isPioplat_iff.mpr ⟨peer,found,inside⟩)
    apply ((served { BroadcastChoices.plain with
      order := lastly .sorted last }).mem_iff last).mpr
    exact ⟨peer,found,inside,Bool.eq_false_of_not_eq_true unknown⟩
  · rintro (few | allKnow) choices
    · exact offer_served choices.order few
    · rw [offer_eq_of_allKnow choices.order allKnow]
      exact served_nil_iff.mpr allKnow

end Loop

/-! ### The two broadcasts -/

namespace PioplatHandler

variable {h : PioplatHandler}

def AllCounted (h : PioplatHandler) : Prop :=
  h.periBroadcast = true ∧ (pioplatPeers h.periPeersIp h.peers).card ≤ h.periPeersIp.card

def Close (current number : UInt64) : Prop :=
  -maxBlockDist ≤ (number.toNat : Int) - current.toNat ∧
    (number.toNat : Int) - current.toNat ≤ maxBlockDist

theorem toInt_toInt64 (number : UInt64) :
    number.toInt64.toInt = (number.toNat : Int).bmod (2 ^ 64) := by
  change number.toBitVec.toInt = _
  rw [BitVec.toInt_eq_toNat_bmod]
  rfl

theorem dist_eq {current number : UInt64} (close : Close current number) :
    (number.toInt64 - current.toInt64).toInt = (number.toNat : Int) - current.toNat := by
  rw [Int64.toInt_sub,toInt_toInt64,toInt_toInt64,Int.sub_bmod_bmod,Int.bmod_sub_bmod]
  obtain ⟨lower,upper⟩ := close
  rw [maxBlockDist] at lower upper
  exact Int.bmod_eq_of_le (by omega) (by omega)

theorem broadcastBlock_served_iff {number : UInt64} (close : Close h.currentBlock number)
    (hash : Hash) (td : Int) :
    (∀ choices, Served h.periPeersIp (fun peer => hash ∈ peer.knownBlocks) h.peers
      (h.broadcastBlockToPioplatPeer choices number hash td).2) ↔
      h.AllCounted ∨ AllKnow h.periPeersIp (fun peer => hash ∈ peer.knownBlocks) h.peers := by
  have within : ¬ ((number.toInt64 - h.currentBlock.toInt64).toInt < -maxBlockDist ∨
      (number.toInt64 - h.currentBlock.toInt64).toInt > maxBlockDist) := by
    rw [dist_eq close,not_or,not_lt,not_lt]
    exact close
  simp only [broadcastBlockToPioplatPeer,if_neg within,AllCounted]
  cases h.periBroadcast with
  | false =>
    simp only [Bool.false_eq_true,if_false,false_and,false_or,served_nil_iff]
    exact ⟨fun allKnow => allKnow .plain,fun allKnow _ => allKnow⟩
  | true =>
    simp only [true_and]
    exact offer_served_iff fun choices id => asyncSendNewBlock (choices.pops id) hash td

/-! ### Batches of transactions -/

variable {choices : Nat → BroadcastChoices}

theorem broadcastTransactions_off (off : h.periBroadcast = false) (txs : List Hash) :
    h.broadcastTransactionsToPioplatPeer choices txs = (h.peers, []) := by
  rw [broadcastTransactionsToPioplatPeer,off]
  rfl

/-- The last transaction of a batch is offered to the peers as the others left them. -/
theorem broadcastTransactions_concat (on : h.periBroadcast = true) (front : List Hash) (tx : Hash) :
    h.broadcastTransactionsToPioplatPeer choices (front ++ [tx]) =
      let state := h.broadcastTransactionsToPioplatPeer choices front
      let last := h.offerTransaction (choices front.length) tx state.1
      (last.1, state.2 ++ last.2.map fun id => (tx, id)) := by
  rw [broadcastTransactionsToPioplatPeer,broadcastTransactionsToPioplatPeer,if_pos on,if_pos on,
    zipIdx_append,foldl_append,Nat.zero_add]
  rfl

def SameAddresses (peers next : PioplatPeers) : Prop :=
  ∀ id, (next.lookup id).map PioplatPeer.ip = (peers.lookup id).map PioplatPeer.ip

theorem SameAddresses.pioplatPeers_eq {peers next : PioplatPeers} (same : SameAddresses peers next)
    (periPeersIp : Finset String) :
    pioplatPeers periPeersIp next = pioplatPeers periPeersIp peers := by
  have pioplatEq : ∀ id, isPioplat periPeersIp next id = isPioplat periPeersIp peers id := by
    intro id
    have anyEq := congrArg (Option.any fun ip => decide (ip ∈ periPeersIp)) (same id)
    rwa [Option.any_map,Option.any_map] at anyEq
  have keysEq : next.keys = peers.keys := by
    ext id
    have someEq := congrArg isSome (same id)
    rw [isSome_map,isSome_map] at someEq
    rw [Finmap.mem_keys,Finmap.mem_keys,← lookup_isSome,← lookup_isSome,someEq]
  rw [pioplatPeers,pioplatPeers,keysEq]
  simp [pioplatEq]

theorem asyncSendTransactions_ip (pops : IterationOrder Hash) (drops : Bool) (hashes : List Hash)
    (peer : PioplatPeer) : (asyncSendTransactions pops drops hashes peer).ip = peer.ip := by
  rw [asyncSendTransactions]
  split <;> rfl

theorem offerTransaction_sameAddresses (round : BroadcastChoices) (tx : Hash)
    (peers : PioplatPeers) : SameAddresses peers (h.offerTransaction round tx peers).1 := by
  intro id
  rw [offerTransaction,(offer_order_spec round.order).2]
  split
  · rw [Option.map_map]
    congr 1
    funext peer
    exact asyncSendTransactions_ip _ _ _ peer
  · rfl

theorem broadcastTransactions_sameAddresses (txs : List Hash) :
    SameAddresses h.peers (h.broadcastTransactionsToPioplatPeer choices txs).1 := by
  cases broadcast : h.periBroadcast with
  | false =>
    rw [broadcastTransactions_off broadcast]
    exact fun _ => rfl
  | true =>
    induction txs using reverseRecOn with
    | nil =>
      rw [broadcastTransactionsToPioplatPeer,if_pos broadcast]
      exact fun _ => rfl
    | append_singleton front tx ih =>
      rw [broadcastTransactions_concat broadcast]
      intro id
      exact (offerTransaction_sameAddresses _ tx _ id).trans (ih id)

/-- A transaction has been handed to the loops of the pioplat peers that did not know it,
and to no others. -/
structure TurnServed (h : PioplatHandler) (tx : Hash) (before after : PioplatPeers)
    (calls : List String) : Prop where
  served : Served h.periPeersIp (fun peer => tx ∈ peer.knownTxs) before calls
  queued : ∀ id peer, before.lookup id = some peer → ∃ next, after.lookup id = some next ∧
    (peer.closed = false →
      next.txBroadcast = peer.txBroadcast ++ if id ∈ calls then [tx] else [])

def BatchServed (h : PioplatHandler) (choices : Nat → BroadcastChoices) (txs : List Hash) : Prop :=
  ∀ front tx, front ++ [tx] <+: txs → ∃ calls,
    (h.broadcastTransactionsToPioplatPeer choices (front ++ [tx])).2 =
      (h.broadcastTransactionsToPioplatPeer choices front).2 ++ calls.map (fun id => (tx, id)) ∧
    h.TurnServed tx (h.broadcastTransactionsToPioplatPeer choices front).1
      (h.broadcastTransactionsToPioplatPeer choices (front ++ [tx])).1 calls

theorem offerTransaction_queued (round : BroadcastChoices) (tx : Hash) (before : PioplatPeers)
    (id : String) (peer : PioplatPeer) (found : before.lookup id = some peer) :
    ∃ next, (h.offerTransaction round tx before).1.lookup id = some next ∧
      (peer.closed = false → next.txBroadcast = peer.txBroadcast ++
        if id ∈ (h.offerTransaction round tx before).2 then [tx] else []) := by
  rw [offerTransaction,(offer_order_spec round.order).2,found]
  split
  · refine ⟨_,rfl,?_⟩
    intro isOpen
    rw [asyncSendTransactions,isOpen]
    rfl
  · exact ⟨peer,rfl,fun _ => (append_nil _).symm⟩

theorem broadcastTransactions_of_allKnow {txs : List Hash}
    (allKnow : ∀ tx ∈ txs, AllKnow h.periPeersIp (fun peer => tx ∈ peer.knownTxs) h.peers) :
    h.broadcastTransactionsToPioplatPeer choices txs = (h.peers, []) := by
  cases broadcast : h.periBroadcast with
  | false => exact broadcastTransactions_off broadcast txs
  | true =>
    induction txs using reverseRecOn with
    | nil => rw [broadcastTransactionsToPioplatPeer,if_pos broadcast]; rfl
    | append_singleton front tx ih =>
      rw [forall_mem_append,forall_mem_singleton] at allKnow
      rw [broadcastTransactions_concat broadcast,ih allKnow.1]
      dsimp only
      rw [offerTransaction,offer_eq_of_allKnow _ allKnow.2]
      rfl

theorem AllCounted.batchServed (counted : h.AllCounted) (choices : Nat → BroadcastChoices)
    (txs : List Hash) : h.BatchServed choices txs := by
  intro front tx _
  have few : (pioplatPeers h.periPeersIp
      (h.broadcastTransactionsToPioplatPeer choices front).1).card ≤ h.periPeersIp.card := by
    rw [(broadcastTransactions_sameAddresses front).pioplatPeers_eq]
    exact counted.2
  rw [broadcastTransactions_concat counted.1]
  exact ⟨_,rfl,offer_served _ few,offerTransaction_queued _ tx _⟩

theorem batchServed_of_allKnow {txs : List Hash}
    (allKnow : ∀ tx ∈ txs, AllKnow h.periPeersIp (fun peer => tx ∈ peer.knownTxs) h.peers) :
    h.BatchServed choices txs := by
  intro front tx isPrefix
  have known : ∀ other ∈ front ++ [tx],
      AllKnow h.periPeersIp (fun peer => other ∈ peer.knownTxs) h.peers := by
    intro other member
    exact allKnow other (isPrefix.subset member)
  have ⟨knownFront,knownLast⟩ := forall_mem_append.mp known
  rw [broadcastTransactions_of_allKnow known,broadcastTransactions_of_allKnow knownFront]
  refine ⟨[],rfl,served_nil_iff.mpr (knownLast tx mem_cons_self),?_⟩
  intro id peer found
  exact ⟨peer,found,fun _ => (append_nil _).symm⟩

theorem exists_first_not {Item : Type} {Good : Item → Prop} {items : List Item}
    (some_not : ¬ ∀ item ∈ items, Good item) :
    ∃ front item back, items = front ++ item :: back ∧ (∀ earlier ∈ front, Good earlier) ∧
      ¬ Good item := by
  induction items with
  | nil => exact absurd (forall_mem_nil _) some_not
  | cons first items ih =>
    by_cases good : Good first
    · obtain ⟨front,item,back,rfl,earlier,bad⟩ := ih fun all =>
        some_not (forall_mem_cons.mpr ⟨good,all⟩)
      exact ⟨first :: front,item,back,rfl,forall_mem_cons.mpr ⟨good,earlier⟩,bad⟩
    · exact ⟨[],first,items,rfl,forall_mem_nil _,good⟩

/-- A transaction that comes first in its batch for all that matters is served only if
there are enough addresses or nobody lacks it. -/
theorem allKnow_of_batchServed {txs front back : List Hash} {tx : Hash}
    (split : txs = front ++ tx :: back) (served : ∀ choices, h.BatchServed choices txs)
    (known : ∀ earlier ∈ front,
      AllKnow h.periPeersIp (fun peer => earlier ∈ peer.knownTxs) h.peers) :
    h.AllCounted ∨ AllKnow h.periPeersIp (fun peer => tx ∈ peer.knownTxs) h.peers := by
  have isFront : front ++ [tx] <+: txs := by
    refine ⟨back,?_⟩
    rw [split,append_assoc,singleton_append]
  have turn : ∀ choices, ∃ calls, (h.broadcastTransactionsToPioplatPeer choices (front ++ [tx])).2 =
        calls.map (fun id => (tx, id)) ∧
      Served h.periPeersIp (fun peer => tx ∈ peer.knownTxs) h.peers calls := by
    intro choices
    obtain ⟨calls,callsEq,turnServed⟩ := served choices front tx isFront
    have tail := turnServed.served
    rw [broadcastTransactions_of_allKnow known] at callsEq tail
    exact ⟨calls,callsEq,tail⟩
  cases broadcast : h.periBroadcast with
  | false =>
    right
    obtain ⟨calls,callsEq,callsServed⟩ := turn fun _ => .plain
    rw [broadcastTransactions_off broadcast,eq_comm,map_eq_nil_iff] at callsEq
    rw [callsEq] at callsServed
    exact served_nil_iff.mp callsServed
  | true =>
    have everyRound : ∀ round : BroadcastChoices, Served h.periPeersIp
        (fun peer => tx ∈ peer.knownTxs) h.peers (h.offerTransaction round tx h.peers).2 := by
      intro round
      obtain ⟨calls,callsEq,callsServed⟩ := turn fun _ => round
      rw [broadcastTransactions_concat broadcast,broadcastTransactions_of_allKnow known]
        at callsEq
      have injective : Function.Injective fun id : String => (tx, id) :=
        fun _ _ same => (Prod.mk.inj same).2
      rwa [← map_injective_iff.mpr injective callsEq] at callsServed
    rcases (offer_served_iff fun (round : BroadcastChoices) id =>
      asyncSendTransactions (round.pops id) (round.drops id) [tx]).mp everyRound
      with few | allKnow
    · exact Or.inl ⟨broadcast,few⟩
    · exact Or.inr allKnow

theorem batchServed_iff (txs : List Hash) : (∀ choices, h.BatchServed choices txs) ↔ h.AllCounted ∨
      ∀ tx ∈ txs, AllKnow h.periPeersIp (fun peer => tx ∈ peer.knownTxs) h.peers := by
  constructor
  · intro served
    by_contra neither
    obtain ⟨notCounted,someUnknown⟩ := not_or.mp neither
    obtain ⟨front,tx,back,split,known,unknown⟩ := exists_first_not someUnknown
    rcases allKnow_of_batchServed split served known with counted | allKnow
    · exact notCounted counted
    · exact unknown allKnow
  · rintro (counted | allKnow) choices
    · exact counted.batchServed choices txs
    · exact batchServed_of_allKnow allKnow

/-- Blocks close to the head and batches of transactions reach exactly the connected
pioplat peers that do not know them, whatever the runtime decides, if and only if there
are enough addresses or there is nobody to send to. -/
theorem broadcasts_served_iff (h : PioplatHandler) :
    (∀ number hash td, Close h.currentBlock number →
      ((∀ choices, Served h.periPeersIp (fun peer => hash ∈ peer.knownBlocks) h.peers
          (h.broadcastBlockToPioplatPeer choices number hash td).2) ↔ h.AllCounted ∨
          AllKnow h.periPeersIp (fun peer => hash ∈ peer.knownBlocks) h.peers)) ∧
      ∀ txs, (∀ choices, h.BatchServed choices txs) ↔ h.AllCounted ∨
        ∀ tx ∈ txs, AllKnow h.periPeersIp (fun peer => tx ∈ peer.knownTxs) h.peers := by
  constructor
  · intro number hash td close
    exact broadcastBlock_served_iff close hash td
  · exact batchServed_iff

def sharedAddress : PioplatHandler where
  periBroadcast := true
  periPeersIp := {"10.0.0.1"}
  peers := (Finmap.singleton "first" ⟨"10.0.0.1", ∅, ∅, [], [], false⟩).insert "second"
    ⟨"10.0.0.1", ∅, ∅, [], [], false⟩
  currentBlock := 7

def secondLast : BroadcastChoices :=
  { BroadcastChoices.plain with order := lastly .sorted "second" }

/-- The second peer gets neither the block nor the transaction. -/
theorem sharedAddress_misses_second :
    sharedAddress.peers.lookup "second" = some ⟨"10.0.0.1", ∅, ∅, [], [], false⟩ ∧
      "second" ∉ (sharedAddress.broadcastBlockToPioplatPeer secondLast 7 .zero 1).2 ∧
      (.zero, "second") ∉
        (sharedAddress.broadcastTransactionsToPioplatPeer (fun _ => secondLast) [.zero]).2 := by
  exact ⟨lookup_insert _,by decide +kernel,by decide +kernel⟩

end PioplatHandler

end Peri

end PioplatRelay
