import PioplatRelay.TxFetcher

/-!
# What the fetcher knows about one hash

For a single hash the nine maps of the fetcher boil down to one of four stages,
and the set of peers that are charged with an announcement of it.  Each operation of
the source makes its move between the stages on its own hash and leaves all other
hashes alone.
-/

namespace PioplatRelay.TxFetcher

open SetIndex Finmap

variable {Peer TxHash : Type}

/-- The stage of a hash, with the peers known to have the transaction. -/
inductive Stage (Peer : Type)
  | unknown
  | waiting (origins : Finset Peer)
  | queued (origins : Finset Peer)
  | fetching (owner : Peer) (alternates : Finset Peer)

/-- A stage, and the peers among whose announcements the hash is counted. -/
structure Record (Peer : Type) where
  stage : Stage Peer
  announcers : Set Peer

/-- Everything that the maps of the fetcher hold on one hash. -/
@[ext]
structure Entry (Peer : Type) where
  waitlist : Option (Finset Peer)
  waittime : Bool
  waitslots : Set Peer
  announces : Set Peer
  announced : Option (Finset Peer)
  fetching : Option Peer
  alternates : Option (Finset Peer)

namespace Stage

def origins : Stage Peer → Finset Peer
  | unknown => ∅
  | waiting _ => ∅
  | queued origins => origins
  | fetching _ alternates => alternates

def waiters : Stage Peer → Finset Peer
  | waiting origins => origins
  | _ => ∅

def owner : Stage Peer → Option Peer
  | fetching owner _ => some owner
  | _ => none

end Stage

/-- How the maps of the fetcher hold a record. -/
def Record.entry (record : Record Peer) : Entry Peer :=
  match record.stage with
  | .unknown => ⟨none,false,∅,record.announcers,none,none,none⟩
  | .waiting origins => ⟨some origins,true,origins,record.announcers,none,none,none⟩
  | .queued origins => ⟨none,false,∅,record.announcers,some origins,none,none⟩
  | .fetching owner alternates =>
    ⟨none,false,∅,record.announcers,none,some owner,some alternates⟩

namespace Record

variable (origins : Finset Peer) (announcers : Set Peer)

@[simp]
theorem entry_unknown : (⟨.unknown,announcers⟩ : Record Peer).entry =
    ⟨none,false,∅,announcers,none,none,none⟩ := rfl

@[simp]
theorem entry_waiting : (⟨.waiting origins,announcers⟩ : Record Peer).entry =
    ⟨some origins,true,origins,announcers,none,none,none⟩ := rfl

@[simp]
theorem entry_queued : (⟨.queued origins,announcers⟩ : Record Peer).entry =
    ⟨none,false,∅,announcers,some origins,none,none⟩ := rfl

@[simp]
theorem entry_owned (owner : Peer) : (⟨.fetching owner origins,announcers⟩ : Record Peer).entry =
    ⟨none,false,∅,announcers,none,some owner,some origins⟩ := rfl

theorem entry_injective : Function.Injective (entry : Record Peer → Entry Peer) := by
  rintro ⟨stage,announcers⟩ ⟨stage',announcers'⟩ same
  cases stage <;> cases stage' <;> simp_all [entry]

@[simp]
theorem entry_announces (record : Record Peer) : record.entry.announces = record.announcers := by
  obtain ⟨stage,announcers⟩ := record
  cases stage <;> rfl

@[simp]
theorem entry_fetching (record : Record Peer) : record.entry.fetching = record.stage.owner := by
  obtain ⟨stage,announcers⟩ := record
  cases stage <;> rfl

theorem entry_waitslots (record : Record Peer) : record.entry.waitslots = record.stage.waiters := by
  obtain ⟨stage,announcers⟩ := record
  cases stage <;> simp [entry,Stage.waiters]

end Record

variable [DecidableEq Peer] [DecidableEq TxHash]

def entry (f : TxFetcher Peer TxHash) (hash : TxHash) : Entry Peer where
  waitlist := f.waitlist.lookup hash
  waittime := (f.waittime.lookup hash).isSome
  waitslots := { peer | hash ∈ f.waitslots.slots peer }
  announces := { peer | hash ∈ f.announces.slots peer }
  announced := f.announced.lookup hash
  fetching := f.fetching.lookup hash
  alternates := f.alternates.lookup hash

namespace Stage

variable (origins : Finset Peer)

/-- A hash with no origins is not queued but forgotten. -/
def ofOrigins : Stage Peer :=
  if origins = ∅ then unknown else queued origins

@[simp]
theorem origins_ofOrigins : (ofOrigins origins).origins = origins := by
  unfold ofOrigins
  split
  · rename_i empty
    rw [empty]
    rfl
  · rfl

@[simp]
theorem owner_ofOrigins : (ofOrigins origins).owner = none := by
  unfold ofOrigins
  split <;> rfl

@[simp]
theorem waiters_ofOrigins : (ofOrigins origins).waiters = ∅ := by
  unfold ofOrigins
  split <;> rfl

end Stage

/-! ## Moves -/

namespace Record

variable (peer : Peer) (record : Record Peer)

def announce : Record Peer :=
  match record.stage with
  | .unknown => ⟨.waiting {peer},record.announcers⟩
  | .waiting origins => ⟨.waiting (insert peer origins), record.announcers⟩
  | .queued origins => ⟨.queued (insert peer origins), insert peer record.announcers⟩
  | .fetching owner alternates =>
    ⟨.fetching owner (insert peer alternates), insert peer record.announcers⟩

def queue (record : Record Peer) : Record Peer :=
  match record.stage with
  | .waiting origins => ⟨.queued origins,record.announcers ∪ origins⟩
  | _ => record

def fetch : Record Peer :=
  match record.stage with
  | .queued origins => ⟨.fetching peer origins,record.announcers⟩
  | _ => record

def release (record : Record Peer) : Record Peer :=
  match record.stage with
  | .fetching _ alternates => ⟨.ofOrigins alternates,record.announcers⟩
  | _ => record

/-- The hash goes back to the queue without a peer that failed to deliver it. -/
def requeue : Record Peer :=
  match record.stage with
  | .fetching _ alternates => ⟨.ofOrigins (alternates.erase peer), record.announcers \ {peer}⟩
  | _ => record

def forgotten : Record Peer := ⟨.unknown,∅⟩

def dropWait : Record Peer :=
  match record.stage with
  | .waiting origins =>
    if peer ∈ origins then
      ⟨if origins.erase peer = ∅ then .unknown else .waiting (origins.erase peer),
        record.announcers⟩
    else record
  | _ => record

def dropFetch : Record Peer :=
  match record.stage with
  | .fetching owner alternates =>
    if owner = peer then ⟨.ofOrigins (alternates.erase peer), record.announcers⟩ else record
  | _ => record

def dropQueued : Record Peer :=
  match record.stage with
  | .queued origins => ⟨.ofOrigins (origins.erase peer), record.announcers⟩
  | _ => record

open Classical in
/-- A dropped peer is taken off the announcers, and off the queue if it is one. -/
noncomputable def dropAnnounce : Record Peer :=
  ⟨if peer ∈ record.announcers then (record.dropQueued peer).stage else record.stage,
    record.announcers \ {peer}⟩

noncomputable def drop : Record Peer :=
  ((record.dropWait peer).dropFetch peer).dropAnnounce peer

variable {peer : Peer} {record : Record Peer}

theorem dropWait_of_not_waiting
    (absent : peer ∉ record.stage.waiters) : record.dropWait peer = record := by
  obtain ⟨stage,announcers⟩ := record
  cases stage with
  | waiting origins =>
    have missing : peer ∉ origins := absent
    simp [dropWait,missing]
  | unknown | queued origins | fetching owner others => rfl

theorem dropFetch_of_owner_ne
    (other : record.stage.owner ≠ some peer) : record.dropFetch peer = record := by
  obtain ⟨stage,announcers⟩ := record
  cases stage with
  | fetching owner others =>
    have different : owner ≠ peer := by
      rintro rfl
      exact other rfl
    simp [dropFetch,different]
  | unknown | waiting origins | queued origins => rfl

theorem dropFetch_of_owner_eq (own : record.stage.owner = some peer) : record.dropFetch peer =
      ⟨.ofOrigins (record.stage.origins.erase peer), record.announcers⟩ := by
  obtain ⟨stage,announcers⟩ := record
  cases stage with
  | fetching owner others =>
    cases own
    simp [dropFetch,Stage.origins]
  | unknown | waiting origins | queued origins => cases own

variable (peer record)

@[simp]
theorem owner_announce : (record.announce peer).stage.owner = record.stage.owner := by
  obtain ⟨stage,announcers⟩ := record
  cases stage <;> rfl

omit [DecidableEq Peer] in
@[simp]
theorem owner_queue : record.queue.stage.owner = record.stage.owner := by
  obtain ⟨stage,announcers⟩ := record
  cases stage <;> rfl

omit [DecidableEq Peer] in
@[simp]
theorem origins_fetch : (record.fetch peer).stage.origins = record.stage.origins := by
  obtain ⟨stage,announcers⟩ := record
  cases stage <;> rfl

@[simp]
theorem owner_release : record.release.stage.owner = none := by
  obtain ⟨stage,announcers⟩ := record
  cases stage <;> first | rfl | exact Stage.owner_ofOrigins _

@[simp]
theorem owner_requeue : (record.requeue peer).stage.owner = none := by
  obtain ⟨stage,announcers⟩ := record
  cases stage <;> first | rfl | exact Stage.owner_ofOrigins _

/-! ### What a drop does to a record -/

@[simp]
theorem owner_dropWait : (record.dropWait peer).stage.owner = record.stage.owner := by
  unfold dropWait
  split
  · split_ifs <;> simp_all [Stage.owner]
  · rfl

@[simp]
theorem origins_dropWait : (record.dropWait peer).stage.origins = record.stage.origins := by
  unfold dropWait
  split
  · split_ifs <;> simp_all [Stage.origins]
  · rfl

@[simp]
theorem announcers_dropWait : (record.dropWait peer).announcers = record.announcers := by
  unfold dropWait
  split
  · split_ifs <;> rfl
  · rfl

@[simp]
theorem waiters_dropWait :
    (record.dropWait peer).stage.waiters = record.stage.waiters.erase peer := by
  obtain ⟨stage,announcers⟩ := record
  cases stage with
  | waiting origins =>
    simp only [dropWait]
    split_ifs with member empty
    · exact empty.symm
    · rfl
    · exact (Finset.erase_eq_of_notMem member).symm
  | unknown | queued origins | fetching owner others => rfl

@[simp]
theorem waiters_dropFetch : (record.dropFetch peer).stage.waiters = record.stage.waiters := by
  by_cases own : record.stage.owner = some peer
  · rw [dropFetch_of_owner_eq own,Stage.waiters_ofOrigins]
    obtain ⟨stage,announcers⟩ := record
    cases stage <;> first | rfl | cases own
  · rw [dropFetch_of_owner_ne own]

@[simp]
theorem announcers_dropFetch : (record.dropFetch peer).announcers = record.announcers := by
  by_cases own : record.stage.owner = some peer
  · rw [dropFetch_of_owner_eq own]
  · rw [dropFetch_of_owner_ne own]

theorem origins_dropQueued :
    (record.dropQueued peer).stage.origins =
      if record.stage.owner = none then record.stage.origins.erase peer
      else record.stage.origins := by
  obtain ⟨stage,announcers⟩ := record
  cases stage with
  | queued origins => exact Stage.origins_ofOrigins _
  | unknown | waiting origins | fetching owner others => rfl

@[simp]
theorem waiters_dropQueued : (record.dropQueued peer).stage.waiters = record.stage.waiters := by
  obtain ⟨stage,announcers⟩ := record
  cases stage <;> first | rfl | exact Stage.waiters_ofOrigins _

@[simp]
theorem owner_dropQueued : (record.dropQueued peer).stage.owner = record.stage.owner := by
  obtain ⟨stage,announcers⟩ := record
  cases stage <;> first | rfl | exact Stage.owner_ofOrigins _

@[simp]
theorem announcers_dropQueued : (record.dropQueued peer).announcers = record.announcers := by
  obtain ⟨stage,announcers⟩ := record
  cases stage <;> rfl

theorem owner_drop : (record.drop peer).stage.owner =
      if record.stage.owner = some peer then none else record.stage.owner := by
  have fetched : (record.drop peer).stage.owner =
      ((record.dropWait peer).dropFetch peer).stage.owner := by
    simp only [drop,dropAnnounce]
    split_ifs <;> simp
  rw [fetched]
  split_ifs with own
  · rw [dropFetch_of_owner_eq (by simpa using own),Stage.owner_ofOrigins]
  · rw [dropFetch_of_owner_ne (by simpa using own),owner_dropWait]

theorem waiters_drop : (record.drop peer).stage.waiters = record.stage.waiters.erase peer := by
  simp only [drop,dropAnnounce]
  split_ifs <;> simp

@[simp]
theorem announcers_drop : (record.drop peer).announcers = record.announcers \ {peer} := by
  simp [drop,dropAnnounce]

open Classical in
/-- A queued hash keeps a peer that is no announcer, and a hash that is being
fetched from somebody else keeps the dropped peer as an alternate. -/
theorem origins_drop :
    (record.drop peer).stage.origins =
      if record.stage.owner = some peer ∨ record.stage.owner = none ∧ peer ∈ record.announcers
      then record.stage.origins.erase peer else record.stage.origins := by
  by_cases own : record.stage.owner = some peer
  · have fetched : (record.dropWait peer).stage.owner = some peer := by simpa using own
    rw [if_pos (Or.inl own), drop, dropAnnounce, dropFetch_of_owner_eq fetched]
    split_ifs <;> simp [origins_dropQueued]
  · have unfetched : (record.dropWait peer).stage.owner ≠ some peer := by simpa using own
    rw [drop,dropAnnounce,dropFetch_of_owner_ne unfetched]
    split_ifs <;> simp_all [origins_dropQueued]

@[simp]
theorem entry_ofOrigins (origins : Finset Peer) (announcers : Set Peer) :
    (⟨.ofOrigins origins,announcers⟩ : Record Peer).entry =
      ⟨none, false, ∅, announcers, if origins = ∅ then none else some origins, none, none⟩ := by
  unfold Stage.ofOrigins
  split <;> rfl

end Record

/-! ## Operations -/

variable {f : TxFetcher Peer TxHash} {hash : TxHash} {record : Record Peer}

/-- The maps of the fetcher hold a record on a hash. -/
structure Holds (f : TxFetcher Peer TxHash) (hash : TxHash) (record : Record Peer) : Prop where
  waitlist : f.waitlist.lookup hash = record.entry.waitlist
  waittime : (f.waittime.lookup hash).isSome = record.entry.waittime
  waitslots : ∀ peer, hash ∈ f.waitslots.slots peer ↔ peer ∈ record.entry.waitslots
  announces : ∀ peer, hash ∈ f.announces.slots peer ↔ peer ∈ record.entry.announces
  announced : f.announced.lookup hash = record.entry.announced
  fetching : f.fetching.lookup hash = record.entry.fetching
  alternates : f.alternates.lookup hash = record.entry.alternates

theorem holds_iff : f.Holds hash record ↔ f.entry hash = record.entry := by
  rw [Entry.ext_iff]
  simp only [Set.ext_iff]
  constructor <;>
  · rintro ⟨waitlist,waittime,waitslots,announces,announced,fetching,alternates⟩
    exact ⟨waitlist,waittime,waitslots,announces,announced,fetching,alternates⟩

/-- Nothing changes but the record on one hash. -/
structure Moves (f after : TxFetcher Peer TxHash) (hash : TxHash) (record : Record Peer) :
    Prop where
  entry_eq : after.entry = Function.update f.entry hash record.entry
  requests_eq : after.requests = f.requests

variable {after : TxFetcher Peer TxHash} {origins others : Finset Peer} {announcers : Set Peer}
  {peer owner origin : Peer} {stolen : Finset TxHash} {delivered : List TxHash} {cutoff index : Nat}

theorem entry_update {entry : Entry Peer} (here : after.entry hash = entry)
    (elsewhere : ∀ other, other ≠ hash → after.entry other = f.entry other) :
    after.entry = Function.update f.entry hash entry := by
  funext other
  by_cases same : other = hash
  · rw [same,here,Function.update_self]
  · rw [elsewhere other same,Function.update_of_ne same]

theorem Moves.of (requestsEq : after.requests = f.requests) (here : after.Holds hash record)
    (elsewhere : ∀ other, other ≠ hash → after.entry other = f.entry other) :
    Moves f after hash record :=
  ⟨entry_update (holds_iff.mp here) elsewhere,requestsEq⟩

theorem Moves.holds (moves : Moves f after hash record) : after.Holds hash record :=
  holds_iff.mpr (by rw [moves.entry_eq,Function.update_self])

theorem Moves.trans {middle : TxFetcher Peer TxHash} {record' : Record Peer}
    (first : Moves f middle hash record) (second : Moves middle after hash record') :
    Moves f after hash record' :=
  ⟨by rw [second.entry_eq,first.entry_eq,Function.update_idem],
    second.requests_eq.trans first.requests_eq⟩

/-- An announced hash is looked for in the stages, from the last to the first. -/
theorem announce_moves (choices : Choices Peer TxHash) (origin : Peer)
    (held : f.Holds hash record) :
    Moves f (f.announce choices origin hash) hash (record.announce origin) := by
  obtain ⟨stage,announcers⟩ := record
  cases stage with
  | unknown =>
    simp only [announce,lookup_eq_none.mp held.alternates,lookup_eq_none.mp held.announced,
      lookup_eq_none.mp held.waitlist,if_false]
    cases held
    refine Moves.of rfl ?_ fun other different => by simp [entry,different]
    constructor <;> simp_all [Record.announce]
  | waiting origins =>
    have slotsEq := slots_of_lookup held.waitlist
    simp only [announce,lookup_eq_none.mp held.alternates,lookup_eq_none.mp held.announced,
      mem_of_lookup_eq_some held.waitlist,if_false,if_true]
    cases held
    refine Moves.of rfl ?_ fun other different => by simp [entry,different]
    constructor <;> simp_all [Record.announce]
  | queued origins =>
    have slotsEq := slots_of_lookup held.announced
    simp only [announce,lookup_eq_none.mp held.alternates,
      mem_of_lookup_eq_some held.announced,if_false,if_true]
    cases held
    refine Moves.of rfl ?_ fun other different => by simp [entry,different]
    constructor <;> simp_all [Record.announce]
  | fetching owner others =>
    have slotsEq := slots_of_lookup held.alternates
    simp only [announce,mem_of_lookup_eq_some held.alternates,if_true]
    cases held
    refine Moves.of rfl ?_ fun other different => by simp [entry,different]
    constructor <;> simp_all [Record.announce]

theorem allot_moves (peer : Peer) (held : f.Holds hash ⟨.queued origins,announcers⟩) :
    ∃ after, f.allot peer hash = .ok after ∧
      Moves f after hash (Record.fetch peer ⟨.queued origins,announcers⟩) := by
  simp only [allot,lookup_eq_none.mp held.alternates,held.announced]
  cases held
  refine ⟨_,rfl,Moves.of rfl ?_ fun other different => by simp [entry,different]⟩
  constructor <;> simp_all [Record.fetch]

theorem expireWait_moves (choices : Choices Peer TxHash) (actives : Finset Peer) {time : AbsTime}
    (held : f.Holds hash ⟨.waiting origins,announcers⟩)
    (since : f.waittime.lookup hash = some time)
    (expired : txArriveTimeout < choices.hashNow hash - time + txGatherSlack) :
    ∃ after, expireWait choices (f, actives) hash = .ok (after, actives ∪ origins) ∧
      Moves f after hash (Record.queue ⟨.waiting origins,announcers⟩) := by
  simp only [expireWait,since,expired,if_true,lookup_eq_none.mp held.announced,
    if_false,held.waitlist]
  cases held
  refine ⟨_,rfl,Moves.of rfl ?_ fun other different => by simp [entry,different]⟩
  constructor <;>
    simp_all [Record.queue,choices.slotPeers.mem_iff,or_comm]

theorem requeue_moves (held : f.Holds hash ⟨.fetching owner others,announcers⟩)
    (kept : hash ∉ stolen) : ∃ after, f.requeue peer stolen hash = .ok after ∧
      Moves f after hash (Record.requeue peer ⟨.fetching owner others,announcers⟩) := by
  have alternates : f.alternates.lookup hash = some others := held.alternates
  simp only [requeue,kept,lookup_eq_none.mp held.announced,alternates]
  cases held
  refine ⟨_,rfl,Moves.of rfl ?_ fun other different => by simp [entry,different]⟩
  constructor <;> simp_all [Record.requeue,and_comm]

/-! ### Deliveries -/

section

variable (choices : Choices Peer TxHash)

theorem untrack_waiting_moves (origin : Peer) (direct : Bool)
    (held : f.Holds hash ⟨.waiting origins,∅⟩) :
    ∃ after, f.untrack choices origin direct hash = .ok after ∧ Moves f after hash .forgotten := by
  have present : hash ∈ f.waitlist := mem_of_lookup_eq_some held.waitlist
  have swept := f.waitslots.mem_slots_sweep_all
    (choices.slotPeers.order f.waitslots.keys)
    (fun key member => (choices.slotPeers.mem_iff _ _).mpr (mem_keys.mpr member)) hash
  simp only [untrack,present]
  refine ⟨_,rfl,Moves.of rfl ?_ fun other different => by simp [entry,different]⟩
  constructor <;> simp [Record.forgotten,swept,held.announces,held.announced,held.fetching,
    held.alternates]

theorem clean_moves (held : f.Holds hash record) (notWaiting : f.waitlist.lookup hash = none) :
    Moves f (f.clean choices hash) hash .forgotten := by
  obtain ⟨stage,announcers⟩ := record
  have swept := f.announces.mem_slots_sweep_all
    (choices.slotPeers.order f.announces.keys)
    (fun key member => (choices.slotPeers.mem_iff _ _).mpr (mem_keys.mpr member)) hash
  have unwaited : (f.waittime.lookup hash).isSome = false ∧
      ∀ peer, hash ∉ f.waitslots.slots peer := by
    cases stage with
    | waiting origins => cases notWaiting.symm.trans held.waitlist
    | unknown | queued origins | fetching owner others =>
      exact ⟨held.waittime,fun peer member => (held.waitslots peer).mp member⟩
  refine Moves.of rfl ?_ fun other different => by simp [clean,entry,different]
  constructor <;> simp [clean,Record.forgotten,swept,notWaiting,unwaited]

theorem untrack_moves {direct : Bool} (held : f.Holds hash record)
    (notWaiting : f.waitlist.lookup hash = none)
    (own : ∀ owner, record.stage.owner = some owner → owner = origin ∧ direct = true) :
    ∃ after, f.untrack choices origin direct hash = .ok after ∧ Moves f after hash .forgotten := by
  have moves := clean_moves choices held notWaiting
  have fetching := held.fetching
  simp only [untrack,lookup_eq_none.mp notWaiting]
  obtain ⟨stage,announcers⟩ := record
  cases stage with
  | fetching owner others =>
    obtain ⟨rfl,rfl⟩ := own owner rfl
    simp only [Record.entry] at fetching
    simp only [fetching,ne_eq]
    exact ⟨_,rfl,moves⟩
  | unknown | waiting origins | queued origins =>
    simp only [fetching]
    exact ⟨_,rfl,moves⟩

theorem untrack_stolen {direct : Bool} {req : TxRequest TxHash}
    (held : f.Holds hash ⟨.fetching owner others,announcers⟩)
    (stolen : owner ≠ origin ∨ direct = false) (found : f.requests.lookup owner = some req) :
    ∃ after, f.untrack choices origin direct hash = .ok after ∧
      after.entry = Function.update f.entry hash Record.forgotten.entry ∧
      after.requests = f.requests.insert owner { req with stolen := insert hash req.stolen } := by
  have notWaiting : f.waitlist.lookup hash = none := held.waitlist
  have fetching : f.fetching.lookup hash = some owner := held.fetching
  simp only [untrack,lookup_eq_none.mp notWaiting,fetching,stolen,found]
  exact ⟨_,rfl,(clean_moves choices held notWaiting).entry_eq,rfl⟩

end

theorem settle_stolen (taken : hash ∈ stolen) :
    f.settle origin delivered stolen cutoff (hash, index) = .ok f := by
  simp [settle,taken]

theorem settle_delivered (held : f.Holds hash .forgotten) (kept : hash ∉ stolen)
    (arrived : hash ∈ delivered) :
    ∃ after, f.settle origin delivered stolen cutoff (hash, index) = .ok after ∧
      Moves f after hash .forgotten := by
  cases held
  simp only [settle,kept,arrived]
  refine ⟨_,rfl,Moves.of rfl ?_ fun other different => by simp [entry,different]⟩
  constructor <;> simp_all [Record.forgotten]

theorem passOver_moves (origin : Peer) (held : f.Holds hash ⟨.fetching owner others,announcers⟩) :
    Moves f (f.passOver origin hash) hash
      ⟨.fetching owner (others.erase origin), announcers \ {origin}⟩ := by
  cases held
  refine Moves.of rfl ?_ fun other different => by simp [passOver,entry,different]
  constructor <;> simp_all [passOver,and_comm]

theorem reschedule_moves (held : f.Holds hash ⟨.fetching owner others,announcers⟩) :
    ∃ after, f.reschedule hash = .ok after ∧
      Moves f { after with
          alternates := after.alternates.erase hash
          fetching := after.fetching.erase hash } hash
        (Record.release ⟨.fetching owner others,announcers⟩) := by
  have notQueued := lookup_eq_none.mp held.announced
  have slotsEq := slots_of_lookup held.alternates
  simp only [reschedule,slotsEq,notQueued]
  cases held
  by_cases empty : others = ∅ <;> simp only [empty] <;>
  · refine ⟨_,rfl,Moves.of rfl ?_ fun other different => by simp [entry,different]⟩
    constructor <;> simp_all [Record.release]

/-- A requested hash that has not arrived goes back to the queue, without the
origin if a later one has arrived. -/
theorem settle_moves (held : f.Holds hash ⟨.fetching owner others,announcers⟩)
    (kept : hash ∉ stolen) (missing : hash ∉ delivered) :
    ∃ after, f.settle origin delivered stolen cutoff (hash, index) = .ok after ∧
      Moves f after hash (if index < cutoff
        then Record.requeue origin ⟨.fetching owner others,announcers⟩
        else Record.release ⟨.fetching owner others,announcers⟩) := by
  simp only [settle,kept,missing]
  by_cases early : index < cutoff
  · have passedOver := passOver_moves origin held
    obtain ⟨after,rescheduleEq,moves⟩ := reschedule_moves passedOver.holds
    simp only [early,if_true,rescheduleEq]
    exact ⟨_,rfl,passedOver.trans moves⟩
  · obtain ⟨after,rescheduleEq,moves⟩ := reschedule_moves held
    simp only [early,if_false,rescheduleEq]
    exact ⟨_,rfl,moves⟩

/-! ### Dropped peers -/

theorem dropWait_entry (held : f.Holds hash ⟨.waiting origins,announcers⟩)
    (member : peer ∈ origins) :
    ∃ after, f.dropWait peer hash = .ok after ∧
      after.entry = Function.update f.entry hash
        { (Record.dropWait peer ⟨.waiting origins,announcers⟩).entry with
          waitslots := origins } ∧
      after.requests = f.requests := by
  have slotsEq := slots_of_lookup held.waitlist
  simp only [dropWait,slots_discard_self,slotsEq]
  cases held
  by_cases empty : origins.erase peer = ∅ <;> simp only [empty] <;>
  · refine ⟨_,rfl,entry_update ?_ fun other different => by simp [entry,different],rfl⟩
    simp_all [entry,Record.dropWait]

theorem dropFetch_moves (held : f.Holds hash ⟨.fetching peer others,announcers⟩)
    (kept : hash ∉ stolen) : ∃ after, f.dropFetch peer stolen hash = .ok after ∧
      Moves f after hash (Record.dropFetch peer ⟨.fetching peer others,announcers⟩) := by
  have slotsEq := slots_of_lookup held.alternates
  simp only [dropFetch,kept,slots_discard_self,slotsEq]
  cases held
  by_cases empty : others.erase peer = ∅ <;> simp only [empty] <;>
  · refine ⟨_,rfl,Moves.of rfl ?_ fun other different => by simp [entry,different]⟩
    constructor <;> simp_all [Record.dropFetch]

theorem dropAnnounce_moves (held : f.Holds hash record) :
    ∃ after, f.dropAnnounce peer hash = .ok after ∧
      Moves f after hash (record.dropQueued peer) := by
  obtain ⟨stage,announcers⟩ := record
  refine ⟨_,rfl,Moves.of rfl ?_ fun other different => by simp [entry,different]⟩
  cases stage with
  | queued origins =>
    have slotsEq := slots_of_lookup held.announced
    cases held
    constructor <;> simp_all [Record.dropQueued]
  | unknown | waiting origins | fetching owner others =>
    cases held
    constructor <;> simp_all [Record.dropQueued]

end PioplatRelay.TxFetcher
