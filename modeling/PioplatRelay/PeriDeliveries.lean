import PioplatRelay.PeriArrivals

/-!
# Delays and first deliveries

The delay of a peer is meant to tell how late it first delivered an item.  The
maps hold the last recorded delivery instead.  The delays are those of the first
deliveries exactly when no peer's delivery is recorded again at a later time.
-/

namespace PioplatRelay

open List

namespace Arrivals

variable {Item : Type} [DecidableEq Item] {records : Arrivals Item}
  {deliveries : List (Delivery Item)} {maxDelay : Int}

def firstBy (deliveries : List (Delivery Item)) (item : Item) (peer : String) :
    Option (Delivery Item) :=
  deliveries.find? fun delivery => delivery.item = item ∧ delivery.peer = peer

def firstOf (deliveries : List (Delivery Item)) (item : Item) : Option (Delivery Item) :=
  deliveries.find? fun delivery => delivery.item = item

/-- For every recorded item, the peers are measured by their first deliveries: the
first one has no delay, and a later one has a longer delay, up to the penalty. -/
structure FirstTimed (maxDelay : Int) (deliveries : List (Delivery Item))
    (records : Arrivals Item) : Prop where
  timed : ∀ item ∈ records.arrivals, ∀ peer first, firstBy deliveries item peer = some first →
    records.timeOf item peer = some first.time
  prompt : ∀ item ∈ records.arrivals, ∀ first, firstOf deliveries item = some first →
    records.delay maxDelay first.peer item = 0
  ordered : ∀ item ∈ records.arrivals, ∀ peer other first second,
    firstBy deliveries item peer = some first → firstBy deliveries item other = some second →
    (first.time ≤ second.time →
      records.delay maxDelay peer item ≤ records.delay maxDelay other item) ∧
    (first.time < second.time →
      records.delay maxDelay peer item < records.delay maxDelay other item ∨
        records.delay maxDelay peer item = maxDelay)

/-- Every peer that delivers a recorded item is recorded for it, and only at the
time of its first delivery; and the penalty is not negative. -/
structure NotRepeated (maxDelay : Int) (deliveries : List (Delivery Item)) : Prop where
  counted : ∀ item peer first, keptOf deliveries item ≠ [] →
    firstBy deliveries item peer = some first → keptBy deliveries item peer ≠ []
  once : ∀ item peer first, firstBy deliveries item peer = some first →
    ∀ delivery ∈ keptBy deliveries item peer, delivery.time = first.time
  penalty : (∃ delivery ∈ deliveries, delivery.kept) → 0 ≤ maxDelay

/-! ## Deliveries in order -/

section Sorted

variable (sorted : deliveries.Pairwise fun earlier later => earlier.time ≤ later.time)

include sorted

omit [DecidableEq Item] in
theorem find?_time_le {test : Delivery Item → Bool} {first : Delivery Item}
    (found : deliveries.find? test = some first) :
    ∀ delivery ∈ deliveries, test delivery → first.time ≤ delivery.time := by
  obtain ⟨-,before,after,rfl,others⟩ := find?_eq_some_iff_append.mp found
  intro delivery member matching
  rcases mem_append.mp member with skipped | later
  · have differs := others delivery skipped
    rw [matching] at differs
    cases differs
  · rcases mem_cons.mp later with rfl | later
    · exact le_refl _
    · have tail := (pairwise_append.mp sorted).2.1
      exact (pairwise_cons.mp tail).1 delivery later

omit [DecidableEq Item] in
theorem time_le_getLast? {last : Delivery Item} (found : deliveries.getLast? = some last) :
    ∀ delivery ∈ deliveries, delivery.time ≤ last.time := by
  obtain ⟨before,rfl⟩ := getLast?_eq_some_iff.mp found
  intro delivery member
  rcases mem_append.mp member with earlier | same
  · exact (pairwise_append.mp sorted).2.2 delivery earlier last (mem_singleton_self _)
  · rw [mem_singleton.mp same]

end Sorted

theorem mem_keptBy {item : Item} {peer : String} {delivery : Delivery Item} :
    delivery ∈ keptBy deliveries item peer ↔
      delivery ∈ keptOf deliveries item ∧ delivery.peer = peer := by
  simp [keptBy]

theorem firstBy_of_firstOf {item : Item} {first : Delivery Item}
    (found : firstOf deliveries item = some first) :
    firstBy deliveries item first.peer = some first := by
  obtain ⟨isItem,before,after,split,others⟩ := find?_eq_some_iff_append.mp found
  apply find?_eq_some_iff_append.mpr
  refine ⟨decide_eq_true ⟨of_decide_eq_true isItem,rfl⟩,before,after,split,?_⟩
  intro delivery member
  have differs := others delivery member
  simp only [Bool.not_eq_eq_eq_not,Bool.not_true,decide_eq_false_iff_not] at differs ⊢
  exact fun both => differs both.1

/-! ## Delays -/

theorem delay_of_timeOf {item : Item} {peer : String} {time : Int}
    (found : records.timeOf item peer = some time) :
    records.delay maxDelay peer item = min (time - records.arrivalOf item) maxDelay := by
  rw [timeOf] at found
  rw [delay,found]

section Traced

variable (sorted : deliveries.Pairwise fun earlier later => earlier.time ≤ later.time)
  (traced : Traced deliveries records)

include sorted traced

/-- A peer's recorded time is that of its first delivery when it is recorded only
then. -/
theorem timeOf_eq_some_iff {item : Item} {peer : String} {first : Delivery Item}
    (found : firstBy deliveries item peer = some first) :
    records.timeOf item peer = some first.time ↔ keptBy deliveries item peer ≠ [] ∧
      ∀ delivery ∈ keptBy deliveries item peer, delivery.time = first.time := by
  rw [traced.timeOf_eq,Option.map_eq_some_iff]
  constructor
  · rintro ⟨last,lastEq,sameTime⟩
    refine ⟨ne_nil_of_mem (mem_of_getLast? lastEq),?_⟩
    intro delivery member
    have isKept := mem_keptOf.mp (mem_keptBy.mp member).1
    have lower := find?_time_le sorted found delivery isKept.1
      (decide_eq_true ⟨isKept.2.2,(mem_keptBy.mp member).2⟩)
    have keptSorted : (keptBy deliveries item peer).Pairwise
        fun earlier later => earlier.time ≤ later.time :=
      (sorted.filter _).filter _
    have upper := time_le_getLast? keptSorted lastEq delivery member
    rw [sameTime] at upper
    exact le_antisymm upper lower
  · rintro ⟨counted,once⟩
    refine ⟨_,getLast?_eq_some_getLast counted,once _ (getLast_mem counted)⟩

/-- Where every peer is timed by its first delivery, the first one is the arrival. -/
theorem arrivalOf_eq_of_timed {item : Item} {first : Delivery Item}
    (found : firstOf deliveries item = some first)
    (timed : records.timeOf item first.peer = some first.time) :
    records.arrivalOf item = first.time := by
  have own := (timeOf_eq_some_iff sorted traced (firstBy_of_firstOf found)).mp timed
  obtain ⟨delivery,member⟩ := exists_mem_of_ne_nil _ own.1
  have isKept := (mem_keptBy.mp member).1
  have earliest : records.arrivals.lookup item = some first.time := by
    rw [traced.lookup_eq,min?_eq_some_iff]
    constructor
    · rw [← own.2 delivery member]
      exact mem_map_of_mem isKept
    · intro time timeMem
      obtain ⟨other,otherKept,rfl⟩ := mem_map.mp timeMem
      have isOther := mem_keptOf.mp otherKept
      exact find?_time_le sorted found other isOther.1 (decide_eq_true isOther.2.2)
  rw [arrivalOf,earliest,Option.getD_some]

/-- The delays are those of the first deliveries exactly when no delivery is
recorded again later. -/
theorem firstTimed_iff :
    FirstTimed maxDelay deliveries records ↔ NotRepeated maxDelay deliveries := by
  constructor
  · intro firstTimed
    have both (item : Item) (peer : String) (first : Delivery Item)
        (recorded : keptOf deliveries item ≠ [])
        (found : firstBy deliveries item peer = some first) :=
      (timeOf_eq_some_iff sorted traced found).mp
        (firstTimed.timed item ((traced.mem_iff item).mpr recorded) peer first found)
    constructor
    · intro item peer first recorded found
      exact (both item peer first recorded found).1
    · intro item peer first found delivery member
      have recorded := ne_nil_of_mem (mem_keptBy.mp member).1
      exact (both item peer first recorded found).2 delivery member
    · rintro ⟨delivery,member,keeps⟩
      have recorded : delivery.item ∈ records.arrivals := by
        rw [traced.mem_iff]
        exact ne_nil_of_mem (mem_keptOf.mpr ⟨member,keeps,rfl⟩)
      obtain ⟨first,found⟩ : ∃ first, firstOf deliveries delivery.item = some first := by
        rw [← Option.isSome_iff_exists,firstOf,find?_isSome]
        exact ⟨delivery,member,decide_eq_true rfl⟩
      have timed := firstTimed.timed _ recorded _ _ (firstBy_of_firstOf found)
      have prompt := firstTimed.prompt _ recorded _ found
      rw [delay_of_timeOf timed] at prompt
      rw [← prompt]
      exact min_le_right _ _
  · intro notRepeated
    have timed (item : Item) (recorded : item ∈ records.arrivals) (peer : String)
        (first : Delivery Item) (found : firstBy deliveries item peer = some first) :
        records.timeOf item peer = some first.time :=
      (timeOf_eq_some_iff sorted traced found).mpr
        ⟨notRepeated.counted item peer first ((traced.mem_iff item).mp recorded) found,
          notRepeated.once item peer first found⟩
    constructor
    · exact timed
    · intro item recorded first found
      have isTimed := timed item recorded _ _ (firstBy_of_firstOf found)
      obtain ⟨delivery,member⟩ :=
        exists_mem_of_ne_nil _ ((traced.mem_iff item).mp recorded)
      have isKept := mem_keptOf.mp member
      rw [delay_of_timeOf isTimed,arrivalOf_eq_of_timed sorted traced found isTimed,sub_self]
      exact min_eq_left (notRepeated.penalty ⟨delivery,isKept.1,isKept.2.1⟩)
    · intro item recorded peer other first second foundFirst foundSecond
      rw [delay_of_timeOf (timed item recorded peer first foundFirst),
        delay_of_timeOf (timed item recorded other second foundSecond)]
      omega

end Traced

end Arrivals

namespace Peri

open Arrivals

theorem DeliveryCall.time_blocks (call : DeliveryCall) :
    ∀ delivery ∈ call.blocks, delivery.time = call.timestamp := by
  cases call with
  | blockAnnounces peer timestamp current hashes numbers =>
    intro delivery member
    obtain ⟨block,-,rfl⟩ := mem_map.mp member
    rfl
  | blockBody peer timestamp current hash number =>
    intro delivery member
    rw [mem_singleton.mp member]
    rfl
  | transactionAnnounces peer timestamp hashes | transactionBody peer timestamp hashes =>
    exact forall_mem_nil _

theorem DeliveryCall.time_transactions (old : Finmap fun _ : Hash => Int) (call : DeliveryCall) :
    ∀ delivery ∈ call.transactions old, delivery.time = call.timestamp := by
  cases call with
  | blockAnnounces peer timestamp current hashes numbers
  | blockBody peer timestamp current hash number => exact forall_mem_nil _
  | transactionAnnounces peer timestamp hashes | transactionBody peer timestamp hashes =>
    intro delivery member
    obtain ⟨hash,-,rfl⟩ := mem_map.mp member
    rfl

theorem sorted_flatMap {Item : Type} {delivered : DeliveryCall → List (Delivery Item)}
    (time_eq : ∀ call, ∀ delivery ∈ delivered call, delivery.time = call.timestamp)
    {calls : List DeliveryCall}
    (sorted : calls.Pairwise fun earlier later => earlier.timestamp ≤ later.timestamp) :
    (calls.flatMap delivered).Pairwise fun earlier later => earlier.time ≤ later.time := by
  rw [pairwise_flatMap]
  constructor
  · intro call _
    apply pairwise_of_forall_mem_list
    intro first firstMem second secondMem
    rw [time_eq call first firstMem,time_eq call second secondMem]
  · apply sorted.imp
    intro earlier later ordered first firstMem second secondMem
    rw [time_eq earlier first firstMem,time_eq later second secondMem]
    exact ordered

/-- After a reset, calls with timestamps in order measure all peers by their first
deliveries exactly when no delivery of a block or transaction is recorded again
later. -/
theorem takeCalls_firstTimed_iff (p : Peri) (calls : List DeliveryCall)
    (sorted : calls.Pairwise fun earlier later => earlier.timestamp ≤ later.timestamp) :
    ∃ last, runAll takeCall { p with blocks := .empty, txs := .empty } calls = some last ∧
      (FirstTimed p.maxDelayDuration (blockDeliveries calls) last.blocks ∧
          FirstTimed p.maxDelayDuration (transactionDeliveries p.txOldArrivals calls) last.txs ↔
        NotRepeated p.maxDelayDuration (blockDeliveries calls) ∧
          NotRepeated p.maxDelayDuration (transactionDeliveries p.txOldArrivals calls)) := by
  obtain ⟨blocks,txs,run,blocksTraced,txsTraced⟩ :=
    @runAll_takeCall { p with blocks := .empty, txs := .empty } [] [] .empty .empty calls
  refine ⟨_,run,?_⟩
  apply and_congr
  · exact firstTimed_iff (sorted_flatMap DeliveryCall.time_blocks sorted) blocksTraced
  · exact firstTimed_iff (sorted_flatMap (DeliveryCall.time_transactions _) sorted) txsTraced

def bare : Peri := .fresh ⟨true, [], 0, 100⟩ ∅ 0 0 30000 ∅

def announcedByTwo : List DeliveryCall :=
  [.blockAnnounces "first" 1 0 [.zero] [7], .blockAnnounces "second" 2 0 [.zero] [7]]

theorem announcedByTwo_firstTimed : ∃ last, runAll takeCall bare announcedByTwo = some last ∧
    FirstTimed 30000 (blockDeliveries announcedByTwo) last.blocks ∧
      FirstTimed 30000 (transactionDeliveries ∅ announcedByTwo) last.txs := by
  obtain ⟨last,run,timed_iff⟩ := takeCalls_firstTimed_iff bare announcedByTwo (by decide)
  have found {item : Hash × UInt64} {peer : String} {first : Delivery (Hash × UInt64)}
      (isFirst : firstBy (blockDeliveries announcedByTwo) item peer = some first) :
      keptBy (blockDeliveries announcedByTwo) item peer = [first] := by
    have isMatch := find?_some isFirst
    rw [decide_eq_true_eq] at isMatch
    obtain ⟨rfl,rfl⟩ := isMatch
    rcases mem_pair.mp (mem_of_find?_eq_some isFirst) with rfl | rfl <;> rfl
  refine ⟨last,run,timed_iff.mpr ⟨⟨?_,?_,fun _ => by decide⟩,?_,?_,?_⟩⟩
  · intro item peer first _ isFirst
    rw [found isFirst]
    exact cons_ne_nil _ _
  · intro item peer first isFirst delivery member
    rw [found isFirst,mem_singleton] at member
    rw [member]
  · rintro item peer first - ⟨⟩
  · rintro item peer first ⟨⟩
  · rintro ⟨delivery,⟨⟩,-⟩

def announcedThenSent : List DeliveryCall :=
  [.blockAnnounces "first" 1 0 [.zero] [7], .blockBody "first" 2 0 .zero 7]

/-- The announcement counts for nothing: the peer is recorded at the time of the
body. -/
theorem announcedThenSent_not_firstTimed :
    announcedThenSent.Pairwise (fun earlier later => earlier.timestamp ≤ later.timestamp) ∧
      (firstBy (blockDeliveries announcedThenSent) (.zero, 7) "first").map Delivery.time = some 1 ∧
      ∃ last, runAll takeCall bare announcedThenSent = some last ∧
        last.blocks.timeOf (.zero, 7) "first" = some 2 ∧
        ¬ FirstTimed bare.maxDelayDuration (blockDeliveries announcedThenSent) last.blocks := by
  have firstAt : firstBy (blockDeliveries announcedThenSent) (.zero, 7) "first" =
      some ⟨"first",1,(.zero, 7),true⟩ := by
    rfl
  obtain ⟨last,run,recorded,timed⟩ : ∃ last, runAll takeCall bare announcedThenSent =
      some last ∧ (.zero, 7) ∈ last.blocks.arrivals ∧
        last.blocks.timeOf (.zero, 7) "first" = some 2 :=
    ⟨_,rfl,by decide,by decide⟩
  refine ⟨by decide,by rw [firstAt]; rfl,last,run,timed,?_⟩
  intro firstTimed
  have first := firstTimed.timed _ recorded _ _ firstAt
  rw [timed] at first
  cases first

end Peri

end PioplatRelay
