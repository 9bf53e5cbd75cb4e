import PioplatRelay.TxFetcherDrops

/-!
# Runs of the transaction fetcher

On every run of the loop the stages of the hashes exclude each other, the
requests agree with what is being fetched, and no panic is reached.  That the
maps by peer are the transposes of the maps by hash takes more: a drop forgets
the peer everywhere but among the alternates of what is being fetched from
somebody else.
-/

namespace PioplatRelay.TxFetcher

open Record Finset Finmap SetIndex

variable {Peer TxHash : Type} {Q : TxHash → Record Peer → Prop}
  {f after : TxFetcher Peer TxHash} {hash : TxHash} {record : Record Peer} {peer : Peer}

/-! ## Announcers and origins -/

/-- The announcers and the origins of a record gain and lose the same peers. -/
def Record.Paired (record record' : Record Peer) : Prop :=
  ∃ gained lost : Set Peer, record'.announcers = (record.announcers ∪ gained) \ lost ∧
    (record'.stage.origins : Set Peer) = ((record.stage.origins : Set Peer) ∪ gained) \ lost

namespace Record

theorem paired_refl (record : Record Peer) : record.Paired record := ⟨∅,∅,by simp,by simp⟩

theorem paired_queue (record : Record Peer) : record.Paired record.queue := by
  obtain ⟨stage,announcers⟩ := record
  cases stage with
  | waiting origins => exact ⟨origins,∅,by simp [queue],by simp [queue,Stage.origins]⟩
  | unknown | queued origins | fetching owner others => exact paired_refl _

theorem paired_fetch (peer : Peer) (record : Record Peer) : record.Paired (record.fetch peer) := by
  obtain ⟨stage,announcers⟩ := record
  cases stage with
  | queued origins => exact ⟨∅,∅,by simp [fetch],by simp [fetch,Stage.origins]⟩
  | unknown | waiting origins | fetching owner others => exact paired_refl _

variable [DecidableEq Peer]

theorem paired_announce (peer : Peer) (record : Record Peer) :
    record.Paired (record.announce peer) := by
  obtain ⟨stage,announcers⟩ := record
  cases stage with
  | unknown => exact ⟨∅,∅,by simp [announce],by simp [announce,Stage.origins]⟩
  | waiting origins => exact ⟨∅,∅,by simp [announce],by simp [announce,Stage.origins]⟩
  | queued origins => exact ⟨{peer},∅,by simp [announce],by simp [announce,Stage.origins]⟩
  | fetching owner others => exact ⟨{peer},∅,by simp [announce],by simp [announce,Stage.origins]⟩

theorem paired_requeue (peer : Peer) (record : Record Peer) :
    record.Paired (record.requeue peer) := by
  obtain ⟨stage,announcers⟩ := record
  cases stage with
  | fetching owner others =>
    refine ⟨∅,{peer},by simp [requeue],?_⟩
    simp only [requeue,Stage.origins_ofOrigins,coe_erase,Set.union_empty]
    rfl
  | unknown | waiting origins | queued origins => exact paired_refl _

theorem paired_release (record : Record Peer) : record.Paired record.release := by
  obtain ⟨stage,announcers⟩ := record
  cases stage with
  | fetching owner others =>
    refine ⟨∅,∅,by simp [release],?_⟩
    simp only [release,Stage.origins_ofOrigins,Set.union_empty,Set.sdiff_empty]
    rfl
  | unknown | waiting origins | queued origins => exact paired_refl _

end Record

variable [DecidableEq Peer]

/-- A relation of announcers and origins that survives common gains and losses
survives all moves but those of a drop. -/
theorem Kept.of_paired {R : Set Peer → Set Peer → Prop} (empty : R ∅ ∅)
    (listed : ∀ {announcers origins}, R announcers origins → announcers ⊆ origins)
    (paired : ∀ {announcers origins} gained lost, R announcers origins →
      R ((announcers ∪ gained) \ lost) ((origins ∪ gained) \ lost)) :
    Kept fun (_ : TxHash) (record : Record Peer) => R record.announcers record.stage.origins := by
  have moves {record record' : Record Peer} (move : record.Paired record')
      (holds : R record.announcers record.stage.origins) :
      R record'.announcers record'.stage.origins := by
    obtain ⟨gained,lost,announcersEq,originsEq⟩ := move
    rw [announcersEq,originsEq]
    exact paired gained lost holds
  exact {
    listed := listed
    fetch := fun holds _ => moves (paired_fetch _ _) holds
    forgotten := fun _ => by simpa [Record.forgotten,Stage.origins] using empty
    announce := fun peer => moves (paired_announce peer _)
    queue := moves (paired_queue _)
    requeue := fun peer => moves (paired_requeue peer _)
    release := moves (paired_release _) }

def Listed (_ : TxHash) (record : Record Peer) : Prop := record.announcers ⊆ record.stage.origins

def Matched (_ : TxHash) (record : Record Peer) : Prop := record.announcers = record.stage.origins

theorem kept_listed : Kept (Listed : TxHash → Record Peer → Prop) :=
  Kept.of_paired (Set.empty_subset ∅) id
    fun _ _ listed => Set.sdiff_subset_sdiff_left (Set.union_subset_union_left _ listed)

theorem kept_matched : Kept (Matched : TxHash → Record Peer → Prop) :=
  Kept.of_paired rfl (fun same => same.subset) fun _ _ same => by rw [same]

theorem listed_drop (peer : Peer) (listed : Listed hash record) :
    Listed hash (record.drop peer) := by
  intro other member
  rw [announcers_drop] at member
  have origin : other ∈ record.stage.origins := listed member.1
  rw [mem_coe,origins_drop]
  split
  · exact mem_erase.mpr ⟨member.2,origin⟩
  · exact origin

/-- Whoever is asked for a hash is among its announcers. -/
def Owned (hash : TxHash) (record : Record Peer) : Prop :=
  Listed hash record ∧ ∀ owner, record.stage.owner = some owner → owner ∈ record.announcers

theorem kept_owned : Kept (Owned : TxHash → Record Peer → Prop) where
  listed owned := owned.1
  fetch owned member := by
    refine ⟨kept_listed.fetch owned.1 member,?_⟩
    unfold Record.fetch
    split
    · rintro _ ⟨⟩
      exact member
    · exact owned.2
  forgotten hash := ⟨kept_listed.forgotten hash,by rintro _ ⟨⟩⟩
  announce peer owned := by
    refine ⟨kept_listed.announce peer owned.1,fun owner isOwner => ?_⟩
    have before := owned.2 owner (by simpa using isOwner)
    unfold Record.announce
    split <;> simp [before]
  queue owned := by
    refine ⟨kept_listed.queue owned.1,fun owner isOwner => ?_⟩
    have before := owned.2 owner (by simpa using isOwner)
    unfold Record.queue
    split <;> simp [before]
  requeue peer owned := ⟨kept_listed.requeue peer owned.1,by simp⟩
  release owned := ⟨kept_listed.release owned.1,by simp⟩

theorem owned_drop (peer : Peer) (owned : Owned hash record) : Owned hash (record.drop peer) := by
  refine ⟨listed_drop peer owned.1,fun owner isOwner => ?_⟩
  rw [owner_drop] at isOwner
  split at isOwner
  · cases isOwner
  · rename_i other
    rw [announcers_drop]
    exact ⟨owned.2 owner isOwner,fun same => other (same ▸ isOwner)⟩

variable [DecidableEq TxHash]

theorem newTxFetcher_invariant (forgotten : ∀ hash, Q hash .forgotten) :
    (newTxFetcher : TxFetcher Peer TxHash).Invariant Q := by
  constructor
  · intro hash
    refine ⟨.forgotten,?_,forgotten hash,?_⟩
    · constructor <;> simp [newTxFetcher,Record.forgotten]
    · simp [Record.forgotten,Stage.owner,Asked,newTxFetcher]
  · simp [newTxFetcher]

theorem handle_invariant (kept : Kept Q) (event : Event Peer TxHash × Choices Peer TxHash)
    (drops : ∀ peer, event.1 = .drop peer → ∀ hash record, f.Holds hash record →
      Q hash record → Q hash (record.drop peer)) (invariant : f.Invariant Q) :
    ∃ after, f.handle event = .ok after ∧ after.Invariant Q := by
  obtain ⟨event,choices⟩ := event
  cases event with
  | notify origin hashes => exact handleNotify_invariant kept choices origin hashes invariant
  | waitTrigger => exact handleWaitTrigger_invariant kept choices invariant
  | timeoutTrigger => exact handleTimeoutTrigger_invariant kept choices invariant
  | cleanup origin hashes direct =>
    exact handleCleanup_invariant kept choices origin hashes direct invariant
  | drop peer =>
    obtain ⟨after,dropEq,invariantAfter,-⟩ :=
      handleDrop_invariant kept.toFetchable choices peer invariant (drops peer rfl)
    exact ⟨after,dropEq,invariantAfter⟩

variable (events : List (Event Peer TxHash × Choices Peer TxHash))

theorem loop_listed : ∃ f, loop events = .ok f ∧ f.Invariant Listed :=
  Loop.foldlM_invariant (Invariant Listed)
    (fun _ event invariant =>
      handle_invariant kept_listed event (fun peer _ _ _ _ => listed_drop peer) invariant)
    events (newTxFetcher_invariant kept_listed.forgotten)

/-! ## The stages exclude each other -/

/-- The maps by hash agree with each other and with the requests. -/
structure Consistent (f : TxFetcher Peer TxHash) : Prop where
  waitlist_announced : Disjoint f.waitlist.keys f.announced.keys
  waitlist_fetching : Disjoint f.waitlist.keys f.fetching.keys
  announced_fetching : Disjoint f.announced.keys f.fetching.keys
  waittime_keys : f.waittime.keys = f.waitlist.keys
  alternates_keys : f.alternates.keys = f.fetching.keys
  fetching_iff : ∀ hash peer, f.fetching.lookup hash = some peer ↔ Asked f.requests peer hash

theorem Invariant.disjoint_keys (invariant : f.Invariant Q) {V W : Type}
    {first : Finmap fun _ : TxHash => V} {second : Finmap fun _ : TxHash => W}
    (exclude : ∀ hash record, f.Holds hash record →
      (first.lookup hash).isSome → (second.lookup hash).isSome → False) :
    Disjoint first.keys second.keys := by
  rw [disjoint_left]
  intro hash member member'
  obtain ⟨record,held,-⟩ := invariant.sound hash
  rw [mem_keys,← lookup_isSome] at member member'
  exact exclude hash record held member member'

theorem Invariant.keys_eq (invariant : f.Invariant Q) {V W : Type}
    {first : Finmap fun _ : TxHash => V} {second : Finmap fun _ : TxHash => W}
    (agree : ∀ hash record, f.Holds hash record →
      (first.lookup hash).isSome = (second.lookup hash).isSome) : first.keys = second.keys := by
  ext hash
  obtain ⟨record,held,-⟩ := invariant.sound hash
  rw [mem_keys,mem_keys,← lookup_isSome,← lookup_isSome,agree hash record held]

theorem Invariant.consistent (invariant : f.Invariant Q) : f.Consistent := by
  constructor
  · apply invariant.disjoint_keys
    rintro hash ⟨stage,announcers⟩ held
    rw [held.waitlist,held.announced]
    cases stage <;> simp
  · apply invariant.disjoint_keys
    rintro hash ⟨stage,announcers⟩ held
    rw [held.waitlist,held.fetching]
    cases stage <;> simp
  · apply invariant.disjoint_keys
    rintro hash ⟨stage,announcers⟩ held
    rw [held.announced,held.fetching]
    cases stage <;> simp
  · apply invariant.keys_eq
    rintro hash ⟨stage,announcers⟩ held
    rw [held.waittime,held.waitlist]
    cases stage <;> rfl
  · apply invariant.keys_eq
    rintro hash ⟨stage,announcers⟩ held
    rw [held.alternates,held.fetching]
    cases stage <;> rfl
  · intro hash peer
    obtain ⟨record,held,-,owner⟩ := invariant.sound hash
    rw [held.fetching,entry_fetching]
    exact owner peer

/-- Whatever happens, in whatever order the maps are iterated and at whatever
times, the loop does not panic and the maps agree. -/
theorem loop_consistent : ∃ f, loop events = .ok f ∧ f.Consistent := by
  obtain ⟨f,loopEq,invariant⟩ := loop_listed events
  exact ⟨f,loopEq,invariant.consistent⟩

/-- A peer is asked only for what it has announced, and nobody else is asked for it. -/
theorem loop_asks_announcers : ∃ f, loop events = .ok f ∧ ∀ peer hash,
    Asked f.requests peer hash → hash ∈ f.announces.slots peer ∧
      ∀ other, Asked f.requests other hash → other = peer := by
  obtain ⟨f,loopEq,invariant⟩ := Loop.foldlM_invariant (Invariant Owned)
    (fun _ event => handle_invariant kept_owned event fun peer _ _ _ _ => owned_drop peer)
    events (newTxFetcher_invariant kept_owned.forgotten)
  refine ⟨f,loopEq,fun peer hash asked => ?_⟩
  obtain ⟨record,held,owned,owner⟩ := invariant.sound hash
  have isOwner := (owner peer).mpr asked
  rw [held.announces,entry_announces]
  refine ⟨owned.2 peer isOwner,fun other askedToo => ?_⟩
  exact Option.some_inj.mp (((owner other).mpr askedToo).symm.trans isOwner)

/-! ## The maps by peer and the maps by hash -/

/-- The maps by peer are the transposes of the maps by hash. -/
structure Transposed (f : TxFetcher Peer TxHash) : Prop where
  waiting : ∀ hash peer, peer ∈ f.waitlist.slots hash ↔ hash ∈ f.waitslots.slots peer
  announced : ∀ hash peer, peer ∈ f.announced.slots hash ∨ peer ∈ f.alternates.slots hash ↔
    hash ∈ f.announces.slots peer

structure NoTrace (f : TxFetcher Peer TxHash) (peer : Peer) : Prop where
  waitlist : ∀ hash, peer ∉ f.waitlist.slots hash
  announced : ∀ hash, peer ∉ f.announced.slots hash
  alternates : ∀ hash, peer ∉ f.alternates.slots hash
  fetching : ∀ hash, f.fetching.lookup hash ≠ some peer
  requests : peer ∉ f.requests
  waitslots : peer ∉ f.waitslots
  announces : peer ∉ f.announces

/-- A dropped peer is no alternate of what is being fetched from somebody else. -/
def CleanDrop (f : TxFetcher Peer TxHash) : Event Peer TxHash → Prop
  | .drop peer => ∀ hash ∈ f.alternates.keys, peer ∈ f.alternates.slots hash →
      f.fetching.lookup hash = some peer
  | _ => True

def CleanDrops (f : TxFetcher Peer TxHash) :
    List (Event Peer TxHash × Choices Peer TxHash) → Prop
  | [] => True
  | event :: events => f.CleanDrop event.1 ∧
      ∀ after, f.handle event = .ok after → after.CleanDrops events

theorem Holds.mem_waitlist (held : f.Holds hash record) (peer : Peer) :
    peer ∈ f.waitlist.slots hash ↔ peer ∈ record.stage.waiters := by
  unfold slots
  rw [held.waitlist]
  obtain ⟨stage,announcers⟩ := record
  cases stage <;> rfl

theorem Holds.mem_origins (held : f.Holds hash record) (peer : Peer) :
    peer ∈ f.announced.slots hash ∨ peer ∈ f.alternates.slots hash ↔
      peer ∈ record.stage.origins := by
  unfold slots
  rw [held.announced,held.alternates]
  obtain ⟨stage,announcers⟩ := record
  cases stage <;> simp [Stage.origins]

theorem Holds.mem_alternates (held : f.Holds hash record) (peer : Peer) :
    peer ∈ f.alternates.slots hash ↔ record.stage.owner ≠ none ∧ peer ∈ record.stage.origins := by
  unfold slots
  rw [held.alternates]
  obtain ⟨stage,announcers⟩ := record
  cases stage <;> simp [Stage.origins,Stage.owner]

theorem Invariant.transposed (invariant : f.Invariant Matched) : f.Transposed := by
  constructor
  · intro hash peer
    obtain ⟨record,held,-⟩ := invariant.sound hash
    rw [held.mem_waitlist,held.waitslots,entry_waitslots,mem_coe]
  · intro hash peer
    obtain ⟨record,held,matched,-⟩ := invariant.sound hash
    rw [held.mem_origins,held.announces,entry_announces,matched,mem_coe]

theorem Invariant.mono {Q' : TxHash → Record Peer → Prop} (invariant : f.Invariant Q)
    (weaker : ∀ hash record, Q hash record → Q' hash record) : f.Invariant Q' := by
  refine ⟨fun hash => ?_,invariant.distinct⟩
  obtain ⟨record,held,holds,owner⟩ := invariant.sound hash
  exact ⟨record,held,weaker hash record holds,owner⟩

/-! ### Clean drops -/

theorem CleanDrop.owner (clean : f.CleanDrop (.drop peer)) (held : f.Holds hash record)
    (origin : peer ∈ record.stage.origins) :
    record.stage.owner = some peer ∨ record.stage.owner = none := by
  obtain ⟨stage,announcers⟩ := record
  cases stage with
  | fetching owner others =>
    have found : f.alternates.lookup hash = some others := held.alternates
    have fetched := clean hash (mem_keys.mpr (mem_of_lookup_eq_some found))
      (by rwa [slots_of_lookup found])
    exact Or.inl (held.fetching.symm.trans fetched)
  | unknown | waiting origins | queued origins => exact Or.inr rfl

structure Without (peer : Peer) (hash : TxHash) (record : Record Peer) : Prop where
  matched : Matched hash record
  waiter : peer ∉ record.stage.waiters
  origin : peer ∉ record.stage.origins
  owner : record.stage.owner ≠ some peer

theorem without_drop (clean : f.CleanDrop (.drop peer)) (held : f.Holds hash record)
    (matched : Matched hash record) : Without peer hash (record.drop peer) := by
  have originsEq : (record.drop peer).stage.origins = record.stage.origins.erase peer := by
    rw [origins_drop]
    split
    · rfl
    · rename_i spared
      refine (erase_eq_of_notMem fun origin => spared ?_).symm
      have announcer : peer ∈ record.announcers := by
        rw [matched]
        exact origin
      exact (clean.owner held origin).imp_right fun idle => ⟨idle,announcer⟩
  refine ⟨?_,?_,?_,?_⟩
  · rw [Matched,originsEq,announcers_drop,matched,coe_erase]
  · rw [waiters_drop]
    exact notMem_erase peer _
  · rw [originsEq]
    exact notMem_erase peer _
  · rw [owner_drop]
    split
    · exact fun impossible => by cases impossible
    · assumption

omit [DecidableEq Peer] [DecidableEq TxHash] in
theorem fetchable_without (peer : Peer) :
    Fetchable (Without peer : TxHash → Record Peer → Prop) where
  listed without := without.matched.subset
  fetch := by
    rintro hash other ⟨stage,announcers⟩ ⟨matched,waiter,origin,owner⟩ announcer
    cases stage with
    | queued origins =>
      refine ⟨matched,waiter,origin,?_⟩
      rintro ⟨⟩
      rw [matched] at announcer
      exact origin announcer
    | unknown | waiting origins | fetching owner others => exact ⟨matched,waiter,origin,owner⟩

/-- A clean drop leaves no trace of the peer. -/
theorem handleDrop_clean (choices : Choices Peer TxHash) (invariant : f.Invariant Matched)
    (clean : f.CleanDrop (.drop peer)) :
    ∃ after, f.handleDrop choices peer = .ok after ∧ after.Invariant Matched ∧
      after.NoTrace peer := by
  obtain ⟨after,dropEq,invariantAfter,requests,waitslots,announces⟩ :=
    handleDrop_invariant (fetchable_without peer) choices peer invariant
      fun hash record held matched => without_drop clean held matched
  refine ⟨after,dropEq,invariantAfter.mono fun _ _ without => without.matched,?_⟩
  have absent (hash : TxHash) : ∃ record, after.Holds hash record ∧ Without peer hash record := by
    obtain ⟨record,held,without,-⟩ := invariantAfter.sound hash
    exact ⟨record,held,without⟩
  constructor
  · intro hash
    obtain ⟨record,held,without⟩ := absent hash
    rw [held.mem_waitlist]
    exact without.waiter
  · intro hash member
    obtain ⟨record,held,without⟩ := absent hash
    exact without.origin ((held.mem_origins peer).mp (Or.inl member))
  · intro hash member
    obtain ⟨record,held,without⟩ := absent hash
    exact without.origin ((held.mem_origins peer).mp (Or.inr member))
  · intro hash
    obtain ⟨record,held,without⟩ := absent hash
    rw [held.fetching,entry_fetching]
    exact without.owner
  · exact lookup_eq_none.mp requests
  · exact waitslots
  · exact announces

theorem handle_matched {event : Event Peer TxHash × Choices Peer TxHash}
    (invariant : f.Invariant Matched) (clean : f.CleanDrop event.1) :
    ∃ after, f.handle event = .ok after ∧ after.Invariant Matched := by
  apply handle_invariant kept_matched event ?_ invariant
  intro peer isDrop hash record held matched
  rw [isDrop] at clean
  exact (without_drop clean held matched).matched

theorem foldlM_matched {done rest : List (Event Peer TxHash × Choices Peer TxHash)}
    (invariant : f.Invariant Matched) (clean : f.CleanDrops (done ++ rest)) :
    ∃ after, done.foldlM handle f = .ok after ∧ after.Invariant Matched ∧
      after.CleanDrops rest := by
  induction done generalizing f with
  | nil => exact ⟨f,rfl,invariant,clean⟩
  | cons event done ih =>
    obtain ⟨middle,handleEq,invariantMiddle⟩ := handle_matched invariant clean.1
    obtain ⟨after,loopEq,holds⟩ := ih invariantMiddle (clean.2 middle handleEq)
    refine ⟨after,?_,holds⟩
    rw [List.foldlM_cons,handleEq]
    exact loopEq

/-! ### Other drops -/

/-- An alternate of a hash that is being fetched from somebody else outlives a
drop. -/
theorem handleDrop_unclean (choices : Choices Peer TxHash) (invariant : f.Invariant Listed)
    (alternate : peer ∈ f.alternates.slots hash) (other : f.fetching.lookup hash ≠ some peer) :
    ∃ after, f.handleDrop choices peer = .ok after ∧ ¬ after.NoTrace peer := by
  have fetchable : Fetchable fun (other : TxHash) (record : Record Peer) =>
      Listed other record ∧ (other = hash → peer ∈ record.stage.origins) := by
    refine ⟨fun holds => kept_listed.listed holds.1,?_⟩
    intro hash' fetcher record holds announcer
    refine ⟨kept_listed.fetch holds.1 announcer,fun same => ?_⟩
    rw [origins_fetch]
    exact holds.2 same
  obtain ⟨after,dropEq,invariantAfter,-⟩ := handleDrop_invariant fetchable choices peer invariant
    fun hash' record held listed => by
      refine ⟨listed_drop peer listed,?_⟩
      rintro rfl
      obtain ⟨busy,origin⟩ := (held.mem_alternates peer).mp alternate
      rw [held.fetching,entry_fetching] at other
      rw [origins_drop,if_neg]
      · exact origin
      · rintro (own | ⟨idle,-⟩)
        · exact other own
        · exact busy idle
  refine ⟨after,dropEq,fun noTrace => ?_⟩
  obtain ⟨record,held,holds,-⟩ := invariantAfter.sound hash
  rcases (held.mem_origins peer).mpr (holds.2 rfl) with queued | fetched
  · exact noTrace.announced hash queued
  · exact noTrace.alternates hash fetched

theorem loop_snoc {done : List (Event Peer TxHash × Choices Peer TxHash)}
    (loopEq : loop done = .ok f) (event : Event Peer TxHash × Choices Peer TxHash) :
    loop (done ++ [event]) = f.handle event := by
  unfold loop at loopEq ⊢
  rw [List.foldlM_append,loopEq]
  change (f.handle event).bind .ok = f.handle event
  cases f.handle event <;> rfl

theorem cleanDrops_of_noTrace {done rest : List (Event Peer TxHash × Choices Peer TxHash)}
    (loopEq : loop done = .ok f)
    (noTrace : ∀ before peer choices, before ++ [(.drop peer, choices)] <+: done ++ rest →
      ∀ after, loop (before ++ [(.drop peer, choices)]) = .ok after → after.NoTrace peer) :
    f.CleanDrops rest := by
  -- The induction is on what is still to come; the run so far grows by one event.
  induction rest generalizing done f with
  | nil => trivial
  | cons event rest ih =>
    have onward : done ++ event :: rest = (done ++ [event]) ++ rest := by simp
    refine ⟨?_,fun after handleEq => ?_⟩
    · obtain ⟨event,choices⟩ := event
      cases event with
      | drop peer =>
        intro hash _ alternate
        by_contra other
        obtain ⟨listed,listedEq,invariant⟩ := loop_listed done
        cases loopEq.symm.trans listedEq
        obtain ⟨after,dropEq,traces⟩ :=
          handleDrop_unclean choices invariant alternate other
        refine traces (noTrace done peer choices ?_ after ?_)
        · rw [onward]
          exact List.prefix_append _ rest
        · exact (loop_snoc loopEq _).trans dropEq
      | notify | waitTrigger | timeoutTrigger | cleanup => trivial
    · refine ih ((loop_snoc loopEq event).trans handleEq) ?_
      rwa [← onward]

/-- On a run, the maps by peer stay the transposes of the maps by hash and every
drop removes all traces of its peer, exactly if each dropped peer is no
alternate of a hash that is being fetched from somebody else. -/
theorem transposed_iff_cleanDrops :
    (∀ done, done <+: events → ∃ f, loop done = .ok f ∧ f.Transposed ∧
      ∀ before peer choices, done = before ++ [(.drop peer, choices)] → f.NoTrace peer) ↔
    (newTxFetcher : TxFetcher Peer TxHash).CleanDrops events := by
  constructor
  · intro holds
    have started : loop [] = .ok (newTxFetcher : TxFetcher Peer TxHash) := rfl
    refine cleanDrops_of_noTrace started ?_
    intro before peer choices isPrefix after loopEq
    obtain ⟨f,foundEq,-,noTrace⟩ := holds _ isPrefix
    cases loopEq.symm.trans foundEq
    exact noTrace before peer choices rfl
  · rintro clean done ⟨rest,rfl⟩
    have initial := newTxFetcher_invariant
      (kept_matched : Kept (Matched : TxHash → Record Peer → Prop)).forgotten
    obtain ⟨f,loopEq,invariant,-⟩ := foldlM_matched initial clean
    refine ⟨f,loopEq,invariant.transposed,?_⟩
    rintro before peer choices rfl
    rw [List.append_assoc] at clean
    obtain ⟨g,beforeEq,invariantBefore,cleanRest⟩ := foldlM_matched initial clean
    obtain ⟨after,dropEq,-,noTrace⟩ := handleDrop_clean choices invariantBefore cleanRest.1
    cases loopEq.symm.trans ((loop_snoc beforeEq _).trans dropEq)
    exact noTrace

def choicesAt (now : AbsTime) : Choices Nat Nat where
  slotPeers := .increasing
  slotHashes := .increasing
  activePeers := .increasing
  announcedHashes _ := .increasing
  timerHashes := .increasing
  timerPeers := .increasing
  hashNow _ := now
  peerNow _ := now
  requestNow _ := now
  waitNow := now
  timeoutNow := now

/-- Two peers announce a hash, which is then fetched from the first one; the
second one is dropped but stays an alternate. -/
theorem dropped_peer_stays_alternate :
    (loop [(.notify 0 [7], choicesAt 0), (.notify 1 [7], choicesAt 0),
        (.waitTrigger, choicesAt txArriveTimeout), (.drop 1, choicesAt txArriveTimeout)]).map
      (fun f => (f.fetching.lookup 7, f.alternates.slots 7, f.announces.slots 1)) =
    .ok (some 0, {1, 0}, ∅) := by
  decide

end PioplatRelay.TxFetcher
