import PioplatRelay.PeriArrivals

/-!
# Old arrivals

A reset moves the transactions of a round to `txOldArrivals`.  If these are then more
than `PeriMaxTransactionAmount`, it forgets the earliest of them, but never more than
`transactionArrivalReplace`.  The map stays within the limit through a run exactly if no
reset finds more than both numbers together.
-/

namespace PioplatRelay.Peri

open Arrivals LittleEndian Finmap List Option

variable {p next : Peri} {choices : Choices}

/-! ### One reset -/

def allArrivals (p : Peri) : Finmap fun _ : Hash => Int := p.txs.arrivals ∪ p.txOldArrivals

/-- Arrivals in the order in which they are forgotten. -/
def listArrivals (choices : Choices) (arrivals : Finmap fun _ : Hash => Int) :
    List (Hash × Int) :=
  choices.sortOld.sort (fun x y => x.2 < y.2)
    ((choices.oldOrder.order arrivals.keys).map fun tx => (tx, (arrivals.lookup tx).getD 0))

def forgottenCount (p : Peri) : Nat :=
  if p.config.periMaxTransactionAmount < p.allArrivals.keys.card then
    min p.allArrivals.keys.card transactionArrivalReplace
  else 0

theorem foldl_insert_arrivals (order : IterationOrder Hash) (p : Peri) :
    (order.order p.txs.arrivals.keys).foldl
      (fun old tx => old.insert tx (p.txs.arrivalOf tx)) p.txOldArrivals = p.allArrivals := by
  apply ext_lookup
  intro tx
  rw [lookup_foldl_insert_ite,allArrivals]
  have listed : tx ∈ order.order p.txs.arrivals.keys ↔ tx ∈ p.txs.arrivals := by
    rw [order.mem_iff,Finmap.mem_keys]
  by_cases member : tx ∈ p.txs.arrivals
  · obtain ⟨arrival,found⟩ := mem_iff.mp member
    rw [if_pos (listed.mpr member),lookup_union_left member,arrivalOf,found,getD_some]
  · rw [if_neg (mt listed.mp member),lookup_union_right member]

theorem resetRecords_txOldArrivals (choices : Choices) (p : Peri) :
    (p.resetRecords choices).txOldArrivals =
      ((listArrivals choices p.allArrivals).take p.forgottenCount).foldl
        (fun old entry => old.erase entry.1) p.allArrivals := by
  rw [resetRecords,forgottenCount]
  rw [foldl_insert_arrivals]
  split <;> rfl

section List

variable (choices) (arrivals : Finmap fun _ : Hash => Int)

theorem listArrivals_perm : (listArrivals choices arrivals).Perm
    ((choices.oldOrder.order arrivals.keys).map fun tx => (tx, (arrivals.lookup tx).getD 0)) :=
  choices.sortOld.perm _ _

theorem mem_listArrivals_iff (entry : Hash × Int) :
    entry ∈ listArrivals choices arrivals ↔ arrivals.lookup entry.1 = some entry.2 := by
  rw [(listArrivals_perm choices arrivals).mem_iff,List.mem_map]
  constructor
  · rintro ⟨tx,member,rfl⟩
    rw [choices.oldOrder.mem_iff,Finmap.mem_keys] at member
    obtain ⟨arrival,found⟩ := mem_iff.mp member
    rw [found,getD_some]
  · intro found
    refine ⟨entry.1,?_,by rw [found]; rfl⟩
    rw [choices.oldOrder.mem_iff,Finmap.mem_keys]
    exact mem_of_lookup_eq_some found

theorem listArrivals_keys_perm :
    ((listArrivals choices arrivals).map Prod.fst).Perm (choices.oldOrder.order arrivals.keys) := by
  have mapped := (listArrivals_perm choices arrivals).map Prod.fst
  rwa [List.map_map,Function.comp_def,List.map_id'] at mapped

theorem listArrivals_keys_nodup : ((listArrivals choices arrivals).map Prod.fst).Nodup :=
  (listArrivals_keys_perm choices arrivals).nodup_iff.mpr (choices.oldOrder.nodup _)

theorem length_listArrivals : (listArrivals choices arrivals).length = arrivals.keys.card := by
  have lengthEq := (listArrivals_keys_perm choices arrivals).length_eq
  rwa [length_map,choices.oldOrder.length_order] at lengthEq

theorem listArrivals_ordered : (listArrivals choices arrivals).Pairwise fun x y => x.2 ≤ y.2 := by
  have weak : StrictWeak fun x y : Hash × Int => decide (x.2 < y.2) := by
    constructor
    · intro x y less
      exact decide_eq_false (not_lt.mpr (of_decide_eq_true less).le)
    · intro x y z less
      rcases lt_or_ge x.2 y.2 with before | after
      · exact Or.inl (decide_eq_true before)
      · exact Or.inr (decide_eq_true (lt_of_le_of_lt after (of_decide_eq_true less)))
  apply (choices.sortOld.ordered _ _ weak).imp
  intro x y notLess
  exact not_lt.mp (of_decide_eq_false notLess)

theorem lookup_forget_iff (count : Nat) {tx : Hash} {arrival : Int} :
    (((listArrivals choices arrivals).take count).foldl
      (fun old entry => old.erase entry.1) arrivals).lookup tx = some arrival ↔
      (tx, arrival) ∈ (listArrivals choices arrivals).drop count := by
  have distinct := listArrivals_keys_nodup choices arrivals
  rw [← take_append_drop count (listArrivals choices arrivals),map_append,nodup_append'] at distinct
  rw [lookup_foldl_erase_ite]
  constructor
  · intro found
    obtain ⟨notFirst,found⟩ := ite_none_left_eq_some.mp found
    have member := (mem_listArrivals_iff choices arrivals (tx, arrival)).mpr found
    rw [← take_append_drop count (listArrivals choices arrivals)] at member
    rcases mem_append.mp member with first | other
    · exact absurd ⟨_,first,rfl⟩ notFirst
    · exact other
  · intro other
    rw [if_neg]
    · exact (mem_listArrivals_iff choices arrivals _).mp (mem_of_mem_drop other)
    · rintro ⟨entry,first,same⟩
      apply distinct.2.2 (mem_map_of_mem first)
      rw [same]
      exact mem_map_of_mem other

end List

/-- Some arrivals have been forgotten, and none that is later than one that is left. -/
structure Forgot (arrivals : Finmap fun _ : Hash => Int) (count : Nat)
    (left : Finmap fun _ : Hash => Int) : Prop where
  subset : ∀ tx arrival, left.lookup tx = some arrival → arrivals.lookup tx = some arrival
  card : left.keys.card = arrivals.keys.card - count
  earliest : ∀ removed kept first second, arrivals.lookup removed = some first →
    removed ∉ left → left.lookup kept = some second → first ≤ second

theorem resetRecords_forgot (choices : Choices) (p : Peri) :
    Forgot p.allArrivals p.forgottenCount (p.resetRecords choices).txOldArrivals := by
  rw [resetRecords_txOldArrivals]
  constructor
  · intro tx arrival found
    rw [lookup_forget_iff] at found
    exact (mem_listArrivals_iff _ _ _).mp (mem_of_mem_drop found)
  · have keysEq : (((listArrivals choices p.allArrivals).take p.forgottenCount).foldl
        (fun old entry => old.erase entry.1) p.allArrivals).keys =
        (((listArrivals choices p.allArrivals).drop p.forgottenCount).map Prod.fst).toFinset := by
      ext tx
      rw [Finmap.mem_keys,mem_iff,List.mem_toFinset,List.mem_map]
      constructor
      · rintro ⟨arrival,found⟩
        exact ⟨_,(lookup_forget_iff _ _ _).mp found,rfl⟩
      · rintro ⟨entry,member,rfl⟩
        exact ⟨entry.2,(lookup_forget_iff _ _ _).mpr member⟩
    have distinct := listArrivals_keys_nodup choices p.allArrivals
    rw [keysEq,map_drop,toFinset_card_of_nodup (Nodup.sublist (drop_sublist _ _) distinct),
      length_drop,length_map,length_listArrivals]
  · intro removed kept first second found forgotten left
    rw [lookup_forget_iff] at left
    have member := (mem_listArrivals_iff choices p.allArrivals (removed, first)).mpr found
    have ordered := listArrivals_ordered choices p.allArrivals
    rw [← take_append_drop p.forgottenCount (listArrivals choices p.allArrivals)]
      at member ordered
    rcases mem_append.mp member with isFirst | other
    · exact (pairwise_append.mp ordered).2.2 _ isFirst _ left
    · refine absurd ?_ forgotten
      exact mem_of_lookup_eq_some ((lookup_forget_iff _ _ _).mpr other)

/-- A reset reaches the limit if it has not too much to forget. -/
theorem card_resetRecords_le_iff (choices : Choices)
    (amount : 0 ≤ p.config.periMaxTransactionAmount) :
    ((p.resetRecords choices).txOldArrivals.keys.card : Int) ≤ p.config.periMaxTransactionAmount ↔
      (p.allArrivals.keys.card : Int) ≤
        p.config.periMaxTransactionAmount + transactionArrivalReplace := by
  rw [(resetRecords_forgot choices p).card,forgottenCount]
  split <;> omega

/-! ### Runs -/

inductive RecordAction
  | record (call : DeliveryCall)
  | reset (choices : Choices)

def recordStep : RecordAction → Peri → Option Peri
  | .record call, p => takeCall call p
  | .reset choices, p => some (p.resetRecords choices)

def DeliveryCall.txHashes : DeliveryCall → List Hash
  | .blockAnnounces _ _ _ _ _ | .blockBody _ _ _ _ _ => []
  | .transactionAnnounces _ _ hashes | .transactionBody _ _ hashes => hashes

def RecordedAt (past : List RecordAction) (tx : Hash) (arrival : Int) : Prop :=
  ∃ call, .record call ∈ past ∧ call.timestamp = arrival ∧ tx ∈ call.txHashes

variable {past : List RecordAction} {config : PeriConfig}

theorem RecordedAt.append {tx : Hash} {arrival : Int} (recorded : RecordedAt past tx arrival)
    (later : List RecordAction) : RecordedAt (past ++ later) tx arrival := by
  obtain ⟨call,member,rest⟩ := recorded
  exact ⟨call,mem_append_left later member,rest⟩

/-- Everything in the maps comes from calls of the past. -/
structure Grounded (config : PeriConfig) (past : List RecordAction) (p : Peri) : Prop where
  config_eq : p.config = config
  traced : ∃ blocks txs, Traced blocks p.blocks ∧ Traced txs p.txs ∧
    ∀ delivery ∈ txs, RecordedAt past delivery.item delivery.time
  old : ∀ tx arrival, p.txOldArrivals.lookup tx = some arrival → RecordedAt past tx arrival

theorem Grounded.allArrivals (grounded : Grounded config past p) {tx : Hash} {arrival : Int}
    (found : p.allArrivals.lookup tx = some arrival) : RecordedAt past tx arrival := by
  rcases mem_lookup_union.mp found with now | ⟨_,earlier⟩
  · obtain ⟨_,txs,_,txsTraced,recorded⟩ := grounded.traced
    rw [Option.mem_def,txsTraced.lookup_eq] at now
    obtain ⟨delivery,member,rfl⟩ := List.mem_map.mp (min?_mem now)
    obtain ⟨delivered,_,rfl⟩ := mem_keptOf.mp member
    exact recorded delivery delivered
  · exact grounded.old tx arrival earlier

/-- No step fails, and all of them keep the maps grounded. -/
theorem Grounded.step (grounded : Grounded config past p) (action : RecordAction) :
    ∃ next, recordStep action p = some next ∧ Grounded config (past ++ [action]) next := by
  cases action with
  | record call =>
    obtain ⟨blocks,txs,blocksTraced,txsTraced,recorded⟩ := grounded.traced
    obtain ⟨nextBlocks,nextTxs,run,blocksNext,txsNext⟩ :=
      runAll_takeCall blocksTraced txsTraced [call]
    obtain ⟨next,taken,last⟩ := bind_eq_some_iff.mp run
    cases last
    refine ⟨_,taken,grounded.config_eq,⟨_,_,blocksNext,txsNext,?_⟩,?_⟩
    · intro delivery member
      rcases mem_append.mp member with earlier | now
      · exact (recorded delivery earlier).append _
      · rw [transactionDeliveries,flatMap_singleton] at now
        cases call with
        | blockAnnounces peer timestamp current hashes numbers
        | blockBody peer timestamp current hash number => cases now
        | transactionAnnounces peer timestamp hashes | transactionBody peer timestamp hashes =>
          obtain ⟨hash,delivered,rfl⟩ := List.mem_map.mp now
          exact ⟨_,mem_append_right _ mem_cons_self,rfl,delivered⟩
    · intro tx arrival found
      exact (grounded.old tx arrival found).append _
  | reset choices =>
    refine ⟨_,rfl,grounded.config_eq,⟨[],[],.empty,.empty,forall_mem_nil _⟩,?_⟩
    intro tx arrival found
    have before := (resetRecords_forgot choices p).subset tx arrival found
    exact (grounded.allArrivals before).append _

/-- Every run from the start succeeds and is grounded in itself. -/
theorem exists_run_grounded (config : PeriConfig) {start : Peri}
    (grounded : Grounded config [] start) (actions : List RecordAction) :
    ∃ p, runAll recordStep start actions = some p ∧ Grounded config actions p := by
  induction actions using reverseRecOn with
  | nil => exact ⟨start,rfl,grounded⟩
  | append_singleton actions action ih =>
    obtain ⟨p,run,pGrounded⟩ := ih
    obtain ⟨next,stepped,nextGrounded⟩ := pGrounded.step action
    refine ⟨next,?_,nextGrounded⟩
    rw [runAll_append,run,bind_some,runAll_cons,stepped]
    rfl

theorem fresh_grounded (config : PeriConfig) (peers : Finmap fun _ : String => EthPeer)
    (blockPeersCount txsPeerCount maxDelayDuration : Int)
    (blocklist : Finmap fun _ : String => BlockItem) : Grounded config []
      (fresh config peers blockPeersCount txsPeerCount maxDelayDuration blocklist) where
  config_eq := rfl
  traced := ⟨[],[],.empty,.empty,forall_mem_nil _⟩
  old tx arrival found := by cases found

/-- A reset after the past keeps the limit, keeps only what was recorded, and removes
nothing that arrived later than what it keeps. -/
structure ResetSound (past : List RecordAction) (before after : Peri) : Prop where
  bounded : (after.txOldArrivals.keys.card : Int) ≤ before.config.periMaxTransactionAmount
  recorded : ∀ tx arrival, after.txOldArrivals.lookup tx = some arrival →
    RecordedAt past tx arrival
  earliest : ∀ removed kept first second, before.allArrivals.lookup removed = some first →
    removed ∉ after.txOldArrivals → after.txOldArrivals.lookup kept = some second →
      first ≤ second

theorem Grounded.resetSound_iff (grounded : Grounded config past p)
    (amount : 0 ≤ config.periMaxTransactionAmount) :
    ResetSound past p (p.resetRecords choices) ↔ (p.allArrivals.keys.card : Int) ≤
        config.periMaxTransactionAmount + transactionArrivalReplace := by
  have forgot := resetRecords_forgot choices p
  rw [← grounded.config_eq] at amount ⊢
  rw [← card_resetRecords_le_iff choices amount]
  constructor
  · exact ResetSound.bounded
  · intro bounded
    refine ⟨bounded,?_,forgot.earliest⟩
    intro tx arrival found
    exact grounded.allArrivals (forgot.subset tx arrival found)

/-- All resets of a run are sound exactly if none finds more arrivals than the limit and
the number that it may forget. -/
theorem resets_sound_iff (config : PeriConfig) (peers : Finmap fun _ : String => EthPeer)
    (blockPeersCount txsPeerCount maxDelayDuration : Int)
    (blocklist : Finmap fun _ : String => BlockItem)
    (amount : 0 ≤ config.periMaxTransactionAmount) (actions : List RecordAction) :
    (∀ past choices, past ++ [.reset choices] <+: actions →
      ∃ p, runAll recordStep (fresh config peers blockPeersCount txsPeerCount maxDelayDuration
          blocklist) past = some p ∧ ResetSound past p (p.resetRecords choices)) ↔
      ∀ past choices, past ++ [.reset choices] <+: actions →
        ∃ p, runAll recordStep (fresh config peers blockPeersCount txsPeerCount maxDelayDuration
            blocklist) past = some p ∧ (p.allArrivals.keys.card : Int) ≤
            config.periMaxTransactionAmount + transactionArrivalReplace := by
  have start := fresh_grounded config peers blockPeersCount txsPeerCount maxDelayDuration blocklist
  apply forall_congr'
  intro past
  apply forall_congr'
  intro choices
  apply imp_congr_right
  intro _
  obtain ⟨p,run,grounded⟩ := exists_run_grounded config start past
  rw [run]
  simp only [some_inj,exists_eq_left']
  exact grounded.resetSound_iff amount

def hundredKept : Peri := fresh ⟨true, [], 0, 100⟩ ∅ 0 0 30000 ∅

def numberedHash (number : Nat) : Hash := ⟨bytesOf 32 number,bytesOf_length 32 number⟩

def announcedTwo : List RecordAction :=
  [.record (.transactionAnnounces "first" 5 [.zero]),
    .record (.transactionAnnounces "second" 6 [numberedHash 1])]

/-- A reset finds two arrivals where one may stay. -/
theorem resets_sound_pruning :
    ∃ p, runAll recordStep (fresh ⟨true, [], 0, 1⟩ ∅ 0 0 30000 ∅) announcedTwo = some p ∧
      p.allArrivals.keys.card = 2 ∧ ResetSound announcedTwo p (p.resetRecords .plain) := by
  have sound := (resets_sound_iff ⟨true,[],0,1⟩ ∅ 0 0 30000 ∅ (by decide)
    (announcedTwo ++ [.reset .plain])).mpr ?_ announcedTwo .plain ⟨[],rfl⟩
  · obtain ⟨p,run,resetSound⟩ := sound
    refine ⟨p,run,?_,resetSound⟩
    cases run
    decide +kernel
  · rintro past choices ⟨rest,same⟩
    match past with
    | [] | [_] => cases same
    | [_, _] =>
      cases same
      exact ⟨_,rfl,by decide +kernel⟩
    | _ :: _ :: _ :: later =>
      have lengths := congrArg length same
      simp [announcedTwo] at lengths

theorem numberedHash_injOn : Set.InjOn numberedHash {number | number < 256 ^ 32} := by
  intro first firstBound second secondBound same
  have values := congrArg (fun hash : Hash => value hash.bytes) same
  simp only [numberedHash] at values
  rwa [value_bytesOf_of_lt firstBound,value_bytesOf_of_lt secondBound] at values

theorem exists_announced {hashes : List Hash} (distinct : hashes.Nodup) :
    ∃ p, runAll recordStep hundredKept [.record (.transactionAnnounces "first" 5 hashes)] = some p ∧
      p.config = hundredKept.config ∧ p.allArrivals.keys.card = hashes.length := by
  obtain ⟨blocks,txs,run,blocksTraced,txsTraced⟩ :=
    @runAll_takeCall hundredKept [] [] .empty .empty [.transactionAnnounces "first" 5 hashes]
  rw [nil_append,transactionDeliveries,flatMap_singleton] at txsTraced
  have keysEq : txs.arrivals.keys = hashes.toFinset := by
    ext hash
    rw [Finmap.mem_keys,txsTraced.mem_iff,List.mem_toFinset]
    constructor
    · intro kept
      obtain ⟨delivery,member⟩ := exists_mem_of_ne_nil _ kept
      obtain ⟨delivered,_,rfl⟩ := mem_keptOf.mp member
      obtain ⟨hash,announced,rfl⟩ := List.mem_map.mp delivered
      exact announced
    · intro announced
      apply ne_nil_of_mem
      exact mem_keptOf.mpr ⟨mem_map_of_mem announced,rfl,rfl⟩
  refine ⟨_,run,rfl,?_⟩
  change (txs.arrivals ∪ ∅).keys.card = _
  rw [Finmap.union_empty,keysEq,toFinset_card_of_nodup distinct]

/-- After a round with too many transactions a reset leaves more than the limit. -/
theorem resets_unbounded :
    ∃ p, runAll recordStep hundredKept [.record (.transactionAnnounces "first" 5
        ((range 30201).map numberedHash))] = some p ∧
      p.config.periMaxTransactionAmount = 100 ∧
      (p.resetRecords .plain).txOldArrivals.keys.card = 201 := by
  have distinct : ((range 30201).map numberedHash).Nodup := by
    apply Nodup.map_on _ nodup_range
    intro first firstMem second secondMem same
    rw [mem_range] at firstMem secondMem
    exact numberedHash_injOn (lt_trans firstMem (by decide)) (lt_trans secondMem (by decide)) same
  obtain ⟨p,run,configEq,count⟩ := exists_announced distinct
  rw [length_map,length_range] at count
  refine ⟨p,run,by rw [configEq]; rfl,?_⟩
  rw [(resetRecords_forgot _ _).card,forgottenCount,count,configEq]
  rfl

end PioplatRelay.Peri
