import PioplatRelay.Peri
import PioplatRelay.StepRuns

/-!
# What Peri's maps hold

Both pairs of maps, for blocks and for transactions, hold the earliest arrival of an
item and the last time each peer delivered it.  This file relates the maps to the
deliveries that led to them.  The calls for bodies go through those for
announcements.
-/

namespace PioplatRelay

open Finmap List Option

namespace Arrivals

variable {Item : Type} [DecidableEq Item] {records : Arrivals Item}

def timeOf (records : Arrivals Item) (item : Item) (peer : String) : Option Int :=
  (records.arrivalPerPeer.lookup item).bind fun times => times.lookup peer

structure Aligned (records : Arrivals Item) : Prop where
  sameItems : records.arrivals.keys = records.arrivalPerPeer.keys
  late : ∀ item peer time, records.timeOf item peer = some time → records.arrivalOf item ≤ time

theorem Aligned.empty : (empty : Arrivals Item).Aligned where
  sameItems := rfl
  late _ _ _ found := by cases found

theorem Aligned.mem_iff (aligned : records.Aligned) (item : Item) :
    item ∈ records.arrivals ↔ item ∈ records.arrivalPerPeer := by
  rw [← Finmap.mem_keys,aligned.sameItems,Finmap.mem_keys]

structure Recorded (peer : String) (timestamp : Int) (item : Item)
    (records after : Arrivals Item) : Prop where
  aligned : after.Aligned
  lookup_eq : ∀ other, after.arrivals.lookup other =
    if other = item then some ((records.arrivals.lookup item).elim timestamp (min timestamp))
    else records.arrivals.lookup other
  timeOf_eq : ∀ other id, after.timeOf other id =
    if other = item ∧ id = peer then some timestamp else records.timeOf other id

/-- A delivery keeps the earlier of two arrivals, and overwrites the peer's time. -/
theorem record_eq (aligned : records.Aligned) (peer : String) (timestamp : Int) (item : Item) :
    ∃ arrivals, records.record peer timestamp item = some ⟨arrivals, records.arrivalPerPeer.insert
        item (((records.arrivalPerPeer.lookup item).getD ∅).insert peer timestamp)⟩ ∧
      ∀ other, arrivals.lookup other =
        if other = item then some ((records.arrivals.lookup item).elim timestamp (min timestamp))
        else records.arrivals.lookup other := by
  cases found : records.arrivals.lookup item with
  | none =>
    have absent : records.arrivalPerPeer.lookup item = none := by
      rw [lookup_eq_none,← aligned.mem_iff,← lookup_eq_none]
      exact found
    refine ⟨_,by rw [record,found,absent]; rfl,?_⟩
    intro other
    rw [lookup_insert_ite]
    rfl
  | some arrival =>
    obtain ⟨times,timesEq⟩ : ∃ times, records.arrivalPerPeer.lookup item = some times := by
      rw [← isSome_iff_exists,lookup_isSome,← aligned.mem_iff,← lookup_isSome,found]
      rfl
    refine ⟨_,by rw [record,found,timesEq]; rfl,?_⟩
    intro other
    rw [elim_some]
    split
    · rename_i earlier
      rw [lookup_insert_ite,min_eq_left earlier.le]
    · rename_i later
      rw [min_eq_right (not_lt.mp later)]
      split
      · rename_i same
        rw [same,found]
      · rfl

theorem record_recorded (aligned : records.Aligned) (peer : String) (timestamp : Int)
    (item : Item) : ∃ after, records.record peer timestamp item = some after ∧
      Recorded peer timestamp item records after := by
  obtain ⟨arrivals,recordEq,lookup_eq⟩ := record_eq aligned peer timestamp item
  refine ⟨_,recordEq,⟨?sameItems,?late⟩,lookup_eq,?timeOf⟩
  case timeOf =>
    intro other id
    rw [timeOf,timeOf,lookup_insert_ite]
    by_cases same : other = item
    · subst same
      cases found : records.arrivalPerPeer.lookup other <;> simp [lookup_insert_ite]
    · simp [same]
  case sameItems =>
    ext other
    rw [Finmap.mem_keys,Finmap.mem_keys,Finmap.mem_insert,← aligned.mem_iff,
      ← lookup_isSome,lookup_eq,← lookup_isSome]
    by_cases same : other = item <;> simp [same]
  case late =>
    intro other id time found
    rw [arrivalOf,lookup_eq]
    rw [timeOf,lookup_insert_ite] at found
    by_cases same : other = item
    · subst same
      rw [if_pos rfl,bind_some,lookup_insert_ite] at found
      rw [if_pos rfl,getD_some]
      split at found
      · -- the delivery itself
        cases found
        cases records.arrivals.lookup other with
        | none => exact le_refl _
        | some arrival => exact min_le_left _ _
      · -- another peer's earlier delivery of the item
        cases timesEq : records.arrivalPerPeer.lookup other with
        | none =>
          rw [timesEq] at found
          cases found
        | some times =>
          rw [timesEq,getD_some] at found
          have later := aligned.late other id time (by rw [timeOf,timesEq]; exact found)
          obtain ⟨arrival,arrivalEq⟩ := isSome_iff_exists.mp (lookup_isSome.mpr
            ((aligned.mem_iff other).mpr (mem_of_lookup_eq_some timesEq)))
          rw [arrivalOf,arrivalEq] at later
          rw [arrivalEq]
          exact le_trans (min_le_right _ _) later
    · rw [if_neg same] at found ⊢
      exact aligned.late other id time found

/-! ## Deliveries -/

structure Delivery (Item : Type) where
  peer : String
  time : Int
  item : Item
  kept : Bool

def deliver (delivery : Delivery Item) (records : Arrivals Item) : Option (Arrivals Item) :=
  if delivery.kept then records.record delivery.peer delivery.time delivery.item
  else some records

variable (deliveries : List (Delivery Item))

def keptOf (item : Item) : List (Delivery Item) :=
  deliveries.filter fun delivery => delivery.kept && (delivery.item = item : Bool)

def keptBy (item : Item) (peer : String) :
    List (Delivery Item) :=
  (keptOf deliveries item).filter fun delivery => delivery.peer = peer

/-- The maps that these deliveries lead to: the earliest recorded delivery of
every item, and the last one of every peer. -/
structure Traced (records : Arrivals Item) : Prop where
  aligned : records.Aligned
  lookup_eq : ∀ item,
    records.arrivals.lookup item = ((keptOf deliveries item).map Delivery.time).min?
  timeOf_eq : ∀ item peer,
    records.timeOf item peer = (keptBy deliveries item peer).getLast?.map Delivery.time

theorem Traced.empty : Traced [] (empty : Arrivals Item) where
  aligned := .empty
  lookup_eq _ := rfl
  timeOf_eq _ _ := rfl

variable {deliveries : List (Delivery Item)}

theorem mem_keptOf {item : Item} {delivery : Delivery Item} : delivery ∈ keptOf deliveries item ↔
      delivery ∈ deliveries ∧ delivery.kept ∧ delivery.item = item := by
  simp [keptOf]

theorem keptOf_concat (deliveries : List (Delivery Item)) (last : Delivery Item) (item : Item) :
    keptOf (deliveries ++ [last]) item =
      keptOf deliveries item ++ if last.kept ∧ last.item = item then [last] else [] := by
  simp [keptOf,filter_cons]

theorem keptBy_concat (deliveries : List (Delivery Item)) (last : Delivery Item) (item : Item)
    (peer : String) : keptBy (deliveries ++ [last]) item peer = keptBy deliveries item peer ++
      if last.kept ∧ last.item = item ∧ last.peer = peer then [last] else [] := by
  rw [keptBy,keptOf_concat,filter_append,← keptBy]
  by_cases ofItem : last.kept ∧ last.item = item
  · simp [ofItem,filter_cons]
  · rw [if_neg ofItem,if_neg fun all => ofItem ⟨all.1,all.2.1⟩,filter_nil]

theorem min?_concat (times : List Int) (time : Int) :
    (times ++ [time]).min? = some (times.min?.elim time (min time)) := by
  cases times with
  | nil => rfl
  | cons first rest => rw [cons_append,min?_cons',min?_cons',foldl_concat,elim_some,min_comm]

theorem Traced.concat (traced : Traced deliveries records) (last : Delivery Item) :
    ∃ after, deliver last records = some after ∧ Traced (deliveries ++ [last]) after := by
  cases keeps : last.kept with
  | false =>
    refine ⟨records,by rw [deliver,keeps]; rfl,traced.aligned,?_,?_⟩
    · intro item
      rw [traced.lookup_eq,keptOf_concat]
      simp [keeps]
    · intro item peer
      rw [traced.timeOf_eq,keptBy_concat]
      simp [keeps]
  | true =>
    obtain ⟨after,recordEq,recorded⟩ :=
      record_recorded traced.aligned last.peer last.time last.item
    refine ⟨after,by rw [deliver,keeps]; exact recordEq,recorded.aligned,?_,?_⟩
    · intro item
      rw [recorded.lookup_eq,keptOf_concat]
      by_cases same : item = last.item
      · subst same
        rw [if_pos rfl,if_pos ⟨keeps,rfl⟩,map_append,map_singleton,min?_concat,traced.lookup_eq]
      · rw [if_neg same,if_neg fun both => same both.2.symm,append_nil,traced.lookup_eq]
    · intro item peer
      rw [recorded.timeOf_eq,keptBy_concat]
      by_cases same : item = last.item ∧ peer = last.peer
      · rw [if_pos same,if_pos ⟨keeps,same.1.symm,same.2.symm⟩,getLast?_concat]
        rfl
      · rw [if_neg same,if_neg fun all => same ⟨all.2.1.symm,all.2.2.symm⟩,append_nil,
          traced.timeOf_eq]

theorem Traced.mem_iff (traced : Traced deliveries records) (item : Item) :
    item ∈ records.arrivals ↔ keptOf deliveries item ≠ [] := by
  rw [← lookup_isSome,traced.lookup_eq,isSome_min?_iff,ne_eq,map_eq_nil_iff]

theorem Traced.append {earlier : List (Delivery Item)} (traced : Traced earlier records)
    (deliveries : List (Delivery Item)) : ∃ after, runAll deliver records deliveries = some after ∧
      Traced (earlier ++ deliveries) after := by
  induction deliveries generalizing earlier records with
  | nil => exact ⟨records,rfl,by rwa [append_nil]⟩
  | cons delivery deliveries ih =>
    obtain ⟨middle,first,tracedMiddle⟩ := traced.concat delivery
    obtain ⟨after,rest,tracedAfter⟩ := ih tracedMiddle
    rw [append_assoc,singleton_append] at tracedAfter
    refine ⟨after,?_,tracedAfter⟩
    rw [runAll_cons,first]
    exact rest

end Arrivals

/-! ## The four calls -/

namespace Peri

open Arrivals

def recordBlockBody (peer : String) (timestamp : Int) (current : UInt64) (hash : Hash)
    (number : Nat) (p : Peri) : Option Peri :=
  p.recordBlockAnnounces peer timestamp current [hash] [UInt64.ofNat number]

def recordTransactionBody (peer : String) (timestamp : Int) (hashes : List Hash) (p : Peri) :
    Option Peri :=
  p.recordTransactionAnnounces peer timestamp hashes

/-- A call that records what a peer delivers.  The head of the chain is read when
the call checks a block. -/
inductive DeliveryCall
  | blockAnnounces (peer : String) (timestamp : Int) (current : UInt64) (hashes : List Hash)
      (numbers : List UInt64)
  | blockBody (peer : String) (timestamp : Int) (current : UInt64) (hash : Hash) (number : Nat)
  | transactionAnnounces (peer : String) (timestamp : Int) (hashes : List Hash)
  | transactionBody (peer : String) (timestamp : Int) (hashes : List Hash)

def takeCall : DeliveryCall → Peri → Option Peri
  | .blockAnnounces peer timestamp current hashes numbers =>
    recordBlockAnnounces peer timestamp current hashes numbers
  | .blockBody peer timestamp current hash number =>
    recordBlockBody peer timestamp current hash number
  | .transactionAnnounces peer timestamp hashes => recordTransactionAnnounces peer timestamp hashes
  | .transactionBody peer timestamp hashes => recordTransactionBody peer timestamp hashes

def DeliveryCall.timestamp : DeliveryCall → Int
  | .blockAnnounces _ timestamp _ _ _ => timestamp
  | .blockBody _ timestamp _ _ _ => timestamp
  | .transactionAnnounces _ timestamp _ => timestamp
  | .transactionBody _ timestamp _ => timestamp

def recentBlock (current number : UInt64) : Bool :=
  ¬ (number.toInt64 - current.toInt64).toInt < -maxBlockDist

def DeliveryCall.blocks : DeliveryCall → List (Delivery AnnouncedBlock)
  | .blockAnnounces peer timestamp current hashes numbers =>
    (hashes.zip numbers).map fun block =>
      ⟨peer,timestamp,block,recentBlock current block.2⟩
  | .blockBody peer timestamp current hash number =>
    [⟨peer, timestamp, (hash, UInt64.ofNat number), recentBlock current (UInt64.ofNat number)⟩]
  | .transactionAnnounces _ _ _ | .transactionBody _ _ _ => []

def DeliveryCall.transactions (old : Finmap fun _ : Hash => Int) :
    DeliveryCall → List (Delivery Hash)
  | .blockAnnounces _ _ _ _ _ | .blockBody _ _ _ _ _ => []
  | .transactionAnnounces peer timestamp hashes | .transactionBody peer timestamp hashes =>
    hashes.map fun hash => ⟨peer,timestamp,hash,hash ∉ old⟩

theorem recordBlockAnnounces_eq (peer : String) (timestamp : Int) (current : UInt64)
    (hashes : List Hash) (numbers : List UInt64) (p : Peri) :
    p.recordBlockAnnounces peer timestamp current hashes numbers = (runAll deliver p.blocks
        (DeliveryCall.blockAnnounces peer timestamp current hashes numbers).blocks).map
        fun blocks => { p with blocks } := by
  rw [recordBlockAnnounces,DeliveryCall.blocks]
  induction hashes.zip numbers generalizing p with
  | nil => rfl
  | cons block announced ih =>
    rw [map_cons,runAll_cons,foldlM_cons,deliver,recentBlock]
    by_cases stale : (block.2.toInt64 - current.toInt64).toInt < -maxBlockDist
    · simp only [stale]
      exact ih p
    · simp only [stale]
      cases p.blocks.record peer timestamp block with
      | none => rfl
      | some blocks => exact ih { p with blocks }

theorem recordTransactionAnnounces_eq (peer : String) (timestamp : Int) (hashes : List Hash)
    (p : Peri) : p.recordTransactionAnnounces peer timestamp hashes = (runAll deliver p.txs
        ((DeliveryCall.transactionAnnounces peer timestamp hashes).transactions
          p.txOldArrivals)).map fun txs => { p with txs } := by
  rw [recordTransactionAnnounces,DeliveryCall.transactions]
  induction hashes generalizing p with
  | nil => rfl
  | cons hash hashes ih =>
    rw [map_cons,runAll_cons,foldlM_cons,deliver]
    by_cases stale : hash ∈ p.txOldArrivals
    · simp only [stale]
      exact ih p
    · simp only [stale]
      cases p.txs.record peer timestamp hash with
      | none => rfl
      | some txs => exact ih { p with txs }

theorem takeCall_eq (call : DeliveryCall) (p : Peri) : takeCall call p =
    (runAll deliver p.blocks call.blocks).bind fun blocks =>
      (runAll deliver p.txs (call.transactions p.txOldArrivals)).map fun txs =>
        { p with blocks, txs } := by
  cases call with
  | blockAnnounces peer timestamp current hashes numbers =>
    rw [takeCall,recordBlockAnnounces_eq,map_eq_bind]
    rfl
  | blockBody peer timestamp current hash number =>
    rw [takeCall,recordBlockBody,recordBlockAnnounces_eq,map_eq_bind]
    rfl
  | transactionAnnounces peer timestamp hashes | transactionBody peer timestamp hashes =>
    exact recordTransactionAnnounces_eq peer timestamp hashes p

def blockDeliveries (calls : List DeliveryCall) : List (Delivery AnnouncedBlock) :=
  calls.flatMap DeliveryCall.blocks

def transactionDeliveries (old : Finmap fun _ : Hash => Int) (calls : List DeliveryCall) :
    List (Delivery Hash) :=
  calls.flatMap (DeliveryCall.transactions old)

/-- A run of calls changes nothing but the two pairs of maps, which follow what it
delivers. -/
theorem runAll_takeCall {p : Peri} {earlierBlocks : List (Delivery AnnouncedBlock)}
    {earlierTxs : List (Delivery Hash)} (blocksTraced : Traced earlierBlocks p.blocks)
    (txsTraced : Traced earlierTxs p.txs) (calls : List DeliveryCall) :
    ∃ blocks txs, runAll takeCall p calls = some { p with blocks, txs } ∧
      Traced (earlierBlocks ++ blockDeliveries calls) blocks ∧
      Traced (earlierTxs ++ transactionDeliveries p.txOldArrivals calls) txs := by
  induction calls generalizing p earlierBlocks earlierTxs with
  | nil =>
    refine ⟨p.blocks,p.txs,rfl,?_,?_⟩
    · rwa [blockDeliveries,flatMap_nil,append_nil]
    · rwa [transactionDeliveries,flatMap_nil,append_nil]
  | cons call calls ih =>
    obtain ⟨blocks,blocksEq,blocksNext⟩ := blocksTraced.append call.blocks
    obtain ⟨txs,txsEq,txsNext⟩ := txsTraced.append (call.transactions p.txOldArrivals)
    obtain ⟨lastBlocks,lastTxs,runEq,blocksLast,txsLast⟩ :=
      @ih { p with blocks, txs } _ _ blocksNext txsNext
    rw [append_assoc] at blocksLast txsLast
    refine ⟨lastBlocks,lastTxs,?_,blocksLast,txsLast⟩
    rw [runAll_cons,takeCall_eq,blocksEq,bind_some,txsEq]
    exact runEq

end Peri

end PioplatRelay
