import PioplatRelay.TxFetcherRecords

/-!
# Invariants of the transaction fetcher

Between two events every hash has a record, and the peer it is being fetched
from, if any, is the one whose request still counts on it.  Each handler keeps
this, for any property of records that the moves keep, and none of its panics is
reached.
-/

namespace PioplatRelay.TxFetcher

open List

variable {Peer TxHash : Type} [DecidableEq Peer] [DecidableEq TxHash]

variable (Q : TxHash → Record Peer → Prop)

/-- Every hash has a record with some property, and is being fetched from the
peer that is asked for it. -/
def Sound (asked : Peer → TxHash → Prop)
    (f : TxFetcher Peer TxHash) : Prop :=
  ∀ hash, ∃ record, f.Holds hash record ∧ Q hash record ∧
    ∀ peer, record.stage.owner = some peer ↔ asked peer hash

/-- A peer has a request for a hash that nobody else has delivered. -/
def Asked (requests : Finmap fun _ : Peer => TxRequest TxHash) (peer : Peer) (hash : TxHash) :
    Prop :=
  ∃ req, requests.lookup peer = some req ∧ hash ∈ req.hashes ∧ hash ∉ req.stolen

structure Invariant (f : TxFetcher Peer TxHash) : Prop where
  sound : f.Sound Q (Asked f.requests)
  distinct : ∀ peer req, f.requests.lookup peer = some req → req.hashes.Nodup

/-- A property of records that scheduling keeps. -/
structure Fetchable : Prop where
  listed {hash : TxHash} {record : Record Peer} :
    Q hash record → record.announcers ⊆ record.stage.origins
  fetch {hash : TxHash} {peer : Peer} {record : Record Peer} :
    Q hash record → peer ∈ record.announcers → Q hash (record.fetch peer)

/-- A property of records that all moves keep but those of a drop. -/
structure Kept : Prop extends Fetchable Q where
  forgotten (hash : TxHash) : Q hash .forgotten
  announce {hash : TxHash} {record : Record Peer} (peer : Peer) :
    Q hash record → Q hash (record.announce peer)
  queue {hash : TxHash} {record : Record Peer} : Q hash record → Q hash record.queue
  requeue {hash : TxHash} {record : Record Peer} (peer : Peer) :
    Q hash record → Q hash (record.requeue peer)
  release {hash : TxHash} {record : Record Peer} : Q hash record → Q hash record.release

variable {Q Q' : TxHash → Record Peer → Prop} {asked asked' : Peer → TxHash → Prop}
  {f after : TxFetcher Peer TxHash} {hash : TxHash} {record : Record Peer}

theorem Holds.unique {record' : Record Peer} (held : f.Holds hash record)
    (held' : f.Holds hash record') : record' = record :=
  Record.entry_injective ((holds_iff.mp held').symm.trans (holds_iff.mp held))

theorem Holds.of_entry_eq (held : f.Holds hash record) (same : after.entry hash = f.entry hash) :
    after.Holds hash record :=
  holds_iff.mpr (same.trans (holds_iff.mp held))

theorem Moves.refl (held : f.Holds hash record) : Moves f f hash record :=
  ⟨by rw [← holds_iff.mp held,Function.update_eq_self],rfl⟩

theorem Sound.congr (sound : f.Sound Q asked) (entryEq : after.entry = f.entry)
    (same : ∀ peer hash, asked peer hash ↔ asked' peer hash) : after.Sound Q asked' := by
  intro hash
  obtain ⟨record,held,holds,owner⟩ := sound hash
  exact ⟨record,held.of_entry_eq (congrFun entryEq hash),holds,
    fun peer => (owner peer).trans (same peer hash)⟩

theorem Sound.owner_iff (sound : f.Sound Q asked) (held : f.Holds hash record) (peer : Peer) :
    record.stage.owner = some peer ↔ asked peer hash := by
  obtain ⟨known,heldKnown,-,owner⟩ := sound hash
  rw [← owner peer,held.unique heldKnown]

/-- The other hashes need no care when one of them moves. -/
theorem Sound.moves (sound : f.Sound Q asked)
    (entryEq : after.entry = Function.update f.entry hash record.entry) (holds : Q hash record)
    (here : ∀ peer, record.stage.owner = some peer ↔ asked' peer hash)
    (elsewhere : ∀ peer other, other ≠ hash → (asked peer other ↔ asked' peer other)) :
    after.Sound Q asked' := by
  intro other
  by_cases same : other = hash
  · subst same
    exact ⟨record,holds_iff.mpr (by rw [entryEq,Function.update_self]),holds,here⟩
  · obtain ⟨kept,held,holds,owner⟩ := sound other
    refine ⟨kept,held.of_entry_eq ?_,holds,fun peer => ?_⟩
    · rw [entryEq,Function.update_of_ne same]
    · exact (owner peer).trans (elsewhere peer other same)

/-- A peer stops fetching: all that was being fetched from it is put somewhere
else. -/
theorem Sound.retire (sound : f.Sound Q asked) (peer : Peer)
    (retired : ∀ hash record, f.Holds hash record → Q hash record →
      ∃ record', after.Holds hash record' ∧ Q' hash record' ∧
        record'.stage.owner = if record.stage.owner = some peer then none
          else record.stage.owner) :
    after.Sound Q' fun other hash => other ≠ peer ∧ asked other hash := by
  intro hash
  obtain ⟨record,held,holds,owner⟩ := sound hash
  obtain ⟨record',held',holds',ownerEq⟩ := retired hash record held holds
  refine ⟨record',held',holds',fun other => ?_⟩
  rw [ownerEq]
  change _ ↔ other ≠ peer ∧ asked other hash
  rw [← owner other]
  split
  · rename_i owned
    rw [owned,Option.some.injEq]
    constructor
    · intro impossible
      cases impossible
    · rintro ⟨different,same⟩
      exact absurd same.symm different
  · rename_i free
    constructor
    · intro owned
      refine ⟨?_,owned⟩
      rintro rfl
      exact free owned
    · exact And.right

theorem Invariant.of_eq (invariant : f.Invariant Q) (entryEq : after.entry = f.entry)
    (requestsEq : after.requests = f.requests) : after.Invariant Q := by
  refine ⟨invariant.sound.congr entryEq ?_,by rw [requestsEq]; exact invariant.distinct⟩
  intro peer hash
  rw [requestsEq]

theorem Invariant.moves {record' : Record Peer} (invariant : f.Invariant Q)
    (held : f.Holds hash record) (moves : Moves f after hash record') (holds : Q hash record')
    (sameOwner : record'.stage.owner = record.stage.owner) : after.Invariant Q := by
  refine ⟨?_,by rw [moves.requests_eq]; exact invariant.distinct⟩
  rw [moves.requests_eq]
  refine invariant.sound.moves moves.entry_eq holds ?_ (fun _ _ _ => Iff.rfl)
  intro peer
  rw [sameOwner,invariant.sound.owner_iff held peer]

theorem foldlM_moves {Item : Type} (key : Item → TxHash) (Ready : Item → Record Peer → Prop)
    (move : Item → Record Peer → Record Peer)
    (body : TxFetcher Peer TxHash → Item → Except FetcherPanic (TxFetcher Peer TxHash))
    (round : ∀ f item record, f.Holds (key item) record → Ready item record →
      ∃ after, body f item = .ok after ∧ Moves f after (key item) (move item record))
    {items : List Item} (distinct : (items.map key).Nodup)
    (ready : ∀ item ∈ items, ∃ record, f.Holds (key item) record ∧ Ready item record) :
    ∃ last, items.foldlM body f = .ok last ∧ (∀ item ∈ items, ∀ record, f.Holds (key item) record →
        last.Holds (key item) (move item record)) ∧
      (∀ other ∉ items.map key, ∀ record, f.Holds other record → last.Holds other record) ∧
      last.requests = f.requests := by
  obtain ⟨last,loopEq,visited,others,requestsEq⟩ := Loop.foldlM_pointwise entry requests key
    (fun item entry => ∃ record : Record Peer, entry = record.entry ∧ Ready item record)
    (fun item entry entry' => ∀ record : Record Peer, entry = record.entry →
      entry' = (move item record).entry)
    (fun g item ready => by
      obtain ⟨record,entryEq,isReady⟩ := ready
      obtain ⟨after,bodyEq,moves⟩ := round g item record (holds_iff.mpr entryEq) isReady
      refine ⟨after,_,bodyEq,?_,moves.entry_eq,moves.requests_eq⟩
      intro record' entryEq'
      rw [Record.entry_injective (entryEq.symm.trans entryEq')])
    distinct
    (fun item member => by
      obtain ⟨record,held,isReady⟩ := ready item member
      exact ⟨record,holds_iff.mp held,isReady⟩)
  refine ⟨last,loopEq,?_,?_,requestsEq⟩
  · intro item member record held
    exact holds_iff.mpr (visited item member record (holds_iff.mp held))
  · intro other absent record held
    exact held.of_entry_eq (others other absent)

variable {peer : Peer}

theorem Sound.fetching (sound : f.Sound Q asked) (asks : asked peer hash)
    (held : f.Holds hash record) :
    ∃ others announcers, record = ⟨.fetching peer others,announcers⟩ := by
  have owned := (sound.owner_iff held peer).mpr asks
  obtain ⟨stage,announcers⟩ := record
  cases stage with
  | fetching owner others =>
    cases owned
    exact ⟨others,announcers,rfl⟩
  | unknown | waiting origins | queued origins => cases owned

open Classical in
/-- A loop over the request of a peer, which moves what is being fetched from it
and passes over the rest. -/
theorem Sound.retire_loop {Item : Type} (sound : f.Sound Q asked) (peer : Peer)
    (key : Item → TxHash)
    (move : Item → Record Peer → Record Peer)
    (body : TxFetcher Peer TxHash → Item → Except FetcherPanic (TxFetcher Peer TxHash))
    {items : List Item} (distinct : (items.map key).Nodup)
    (complete : ∀ hash, asked peer hash → hash ∈ items.map key)
    (active : ∀ g, ∀ item ∈ items, asked peer (key item) → ∀ others announcers,
      g.Holds (key item) ⟨.fetching peer others,announcers⟩ →
      ∃ after, body g item = .ok after ∧
        Moves g after (key item) (move item ⟨.fetching peer others,announcers⟩))
    (idle : ∀ g, ∀ item ∈ items, ¬ asked peer (key item) → ∀ record,
      f.Holds (key item) record → g.Holds (key item) record →
      ∃ after, body g item = .ok after ∧ Moves g after (key item) record) :
    ∃ last, items.foldlM body f = .ok last ∧ last.requests = f.requests ∧
      (∀ hash, asked peer hash → ∃ item ∈ items, key item = hash ∧
        ∀ record, f.Holds hash record → last.Holds hash (move item record)) ∧
      (∀ hash, ¬ asked peer hash → ∀ record, f.Holds hash record → last.Holds hash record) := by
  obtain ⟨last,loopEq,visited,others,requestsEq⟩ := foldlM_moves key
    (fun item record => item ∈ items ∧ f.Holds (key item) record)
    (fun item record => if asked peer (key item) then move item record else record) body
    (fun g item record held ready => by
      obtain ⟨member,initial⟩ := ready
      by_cases asks : asked peer (key item)
      · obtain ⟨others,announcers,rfl⟩ := sound.fetching asks initial
        simp only [asks]
        exact active g item member asks others announcers held
      · simp only [asks]
        exact idle g item member asks record initial held)
    distinct
    (fun item member => by
      obtain ⟨record,held,-⟩ := sound (key item)
      exact ⟨record,held,member,held⟩)
  refine ⟨last,loopEq,requestsEq,?_,?_⟩
  · intro hash asks
    obtain ⟨item,member,rfl⟩ := mem_map.mp (complete hash asks)
    refine ⟨item, member, rfl, fun record held => ?_⟩
    simpa only [asks,if_true] using visited item member record held
  · intro hash free record held
    by_cases listed : hash ∈ items.map key
    · obtain ⟨item,member,rfl⟩ := mem_map.mp listed
      simpa only [free,if_false] using visited item member record held
    · exact others hash listed record held

theorem Sound.retire_moved {Item : Type} (sound : f.Sound Q asked) (peer : Peer)
    {key : Item → TxHash} {move : Item → Record Peer → Record Peer} {items : List Item}
    (moved : ∀ hash, asked peer hash → ∃ item ∈ items, key item = hash ∧
      ∀ record, f.Holds hash record → after.Holds hash (move item record))
    (unmoved : ∀ hash, ¬ asked peer hash → ∀ record, f.Holds hash record → after.Holds hash record)
    (closed : ∀ item hash record, Q hash record → Q hash (move item record))
    (ownerless : ∀ item record, (move item record).stage.owner = none) :
    after.Sound Q fun other hash => other ≠ peer ∧ asked other hash := by
  apply sound.retire peer
  intro hash record held holds
  by_cases asks : asked peer hash
  · obtain ⟨item,-,-,heldAfter⟩ := moved hash asks
    refine ⟨move item record,heldAfter record held,closed item hash record holds,?_⟩
    rw [ownerless,if_pos ((sound.owner_iff held peer).mpr asks)]
  · refine ⟨record,unmoved hash asks record held,holds,?_⟩
    rw [if_neg (mt (sound.owner_iff held peer).mp asks)]

/-! ## Scheduling -/

/-- The maps that are indexed by peers, but for the requests. -/
def peerSlots (f : TxFetcher Peer TxHash) : SetIndex Peer TxHash × SetIndex Peer TxHash :=
  (f.waitslots, f.announces)

section Frame

variable {Kept : Type} {view : TxFetcher Peer TxHash → Kept}
  (blind : ∀ (f : TxFetcher Peer TxHash) fetching alternates announced requests, view { f with
    fetching := fetching
    alternates := alternates
    announced := announced
    requests := requests } = view f)

include blind

omit [DecidableEq Peer] in
theorem allot_frame (allotEq : f.allot peer hash = .ok after) : view after = view f := by
  unfold allot at allotEq
  split_ifs at allotEq
  split at allotEq <;> cases allotEq
  exact blind f _ _ _ f.requests

omit [DecidableEq Peer] in
theorem allotHashes_frame {list hashes : List TxHash} {result : TxFetcher Peer TxHash × List TxHash}
    (loopEq : allotHashes peer list f hashes = .ok result) : view result.1 = view f := by
  induction list generalizing f hashes with
  | nil =>
    cases loopEq
    rfl
  | cons hash list ih =>
    unfold allotHashes at loopEq
    split at loopEq
    · exact ih loopEq
    · obtain ⟨middle,allotEq,restEq⟩ := Loop.bind_eq_ok loopEq
      split at restEq
      · cases restEq
        exact allot_frame blind allotEq
      · rw [ih restEq,allot_frame blind allotEq]

theorem scheduleFetch_frame {choices : Choices Peer TxHash}
    (scheduleEq : f.scheduleFetch choices peer = .ok after) : view after = view f := by
  unfold scheduleFetch at scheduleEq
  split_ifs at scheduleEq
  · cases scheduleEq
    rfl
  · cases scheduleEq
    rfl
  · obtain ⟨⟨allotted,hashes⟩,loopEq,restEq⟩ := Loop.bind_eq_ok scheduleEq
    rw [← allotHashes_frame blind loopEq]
    dsimp only at restEq
    split at restEq <;> cases restEq
    · rfl
    · exact blind allotted _ _ _ _

end Frame

theorem scheduleFetches_frame {choices : Choices Peer TxHash} {whitelist : Option (Finset Peer)}
    (scheduleEq : f.scheduleFetches choices whitelist = .ok after) :
    after.peerSlots = f.peerSlots := by
  unfold scheduleFetches at scheduleEq
  dsimp only at scheduleEq
  split at scheduleEq
  · cases scheduleEq
    rfl
  · obtain ⟨scheduled,loopEq,restEq⟩ := Loop.bind_eq_ok scheduleEq
    have frame := Loop.foldlM_frame peerSlots
      (fun _ _ _ bodyEq => scheduleFetch_frame (fun _ _ _ _ _ => rfl) bodyEq) loopEq
    split at restEq <;> cases restEq <;> exact frame

theorem queued_of_announced (held : f.Holds hash record)
    (listed : record.announcers ⊆ record.stage.origins) (announced : hash ∈ f.announces.slots peer)
    (idle : hash ∉ f.fetching) :
    ∃ origins, record = ⟨.queued origins,record.announcers⟩ ∧ peer ∈ record.announcers := by
  obtain ⟨stage,announcers⟩ := record
  have member : peer ∈ announcers := by simpa using (held.announces peer).mp announced
  have origin : peer ∈ stage.origins := listed member
  cases stage with
  | unknown => exact absurd origin (Finset.notMem_empty peer)
  | waiting origins => exact absurd origin (Finset.notMem_empty peer)
  | queued origins => exact ⟨origins,rfl,member⟩
  | fetching owner others => exact absurd (Finmap.mem_of_lookup_eq_some held.fetching) idle

/-- Allotting a hash asks the peer for it, and nobody was asked for it before. -/
theorem allot_sound (fetchable : Fetchable Q) (sound : f.Sound Q asked)
    (announced : hash ∈ f.announces.slots peer) (idle : hash ∉ f.fetching) :
    ∃ after, f.allot peer hash = .ok after ∧
      after.Sound Q (fun other hash' => asked other hash' ∨ other = peer ∧ hash' = hash) ∧
      (∀ other, ¬ asked other hash) ∧ after.requests = f.requests := by
  obtain ⟨record,held,holds,owner⟩ := sound hash
  obtain ⟨origins,recordEq,member⟩ :=
    queued_of_announced held (fetchable.listed holds) announced idle
  have free : ∀ other, ¬ asked other hash := by
    intro other asks
    have fetched := (owner other).mpr asks
    rw [recordEq] at fetched
    cases fetched
  have fetched := fetchable.fetch holds member
  rw [recordEq] at held fetched
  obtain ⟨after,allotEq,moves⟩ := allot_moves peer held
  refine ⟨after,allotEq,sound.moves moves.entry_eq fetched ?_ ?_,free,moves.requests_eq⟩
  · intro other
    simp [Record.fetch,Stage.owner,free,eq_comm]
  · intro other hash' different
    simp [different]

theorem allotHashes_sound (fetchable : Fetchable Q) (peer : Peer) {list : List TxHash}
    (hashes : List TxHash) (sound : f.Sound Q asked)
    (announced : ∀ hash ∈ list, hash ∈ f.announces.slots peer) :
    ∃ after new, allotHashes peer list f hashes = .ok (after, hashes ++ new) ∧
      after.Sound Q (fun other hash => asked other hash ∨ other = peer ∧ hash ∈ new) ∧
      new.Nodup ∧ (∀ hash ∈ new, ∀ other, ¬ asked other hash) ∧ after.requests = f.requests := by
  -- Every round asks the peer for one more hash, so `asked` is generalised too.
  induction list generalizing f asked hashes with
  | nil => exact ⟨f,[],by simp [allotHashes],by simpa using sound,nodup_nil,by simp,rfl⟩
  | cons hash list ih =>
    have later : ∀ other ∈ list, other ∈ f.announces.slots peer :=
      fun other member => announced other (mem_cons_of_mem _ member)
    unfold allotHashes
    by_cases busy : hash ∈ f.fetching
    · rw [if_pos busy]
      exact ih hashes sound later
    · obtain ⟨middle,allotEq,soundMiddle,free,requestsEq⟩ :=
        allot_sound fetchable sound (announced hash mem_cons_self) busy
      have announcesEq : middle.announces = f.announces :=
        allot_frame (fun _ _ _ _ _ => rfl) allotEq
      rw [if_neg busy,allotEq]
      dsimp only [bind,Except.bind]
      split
      · refine ⟨middle,[hash],rfl,?_,nodup_singleton hash,?_,requestsEq⟩
        · simpa using soundMiddle
        · simpa using free
      · obtain ⟨after,new,loopEq,soundAfter,distinct,fresh,requestsEq'⟩ :=
          ih (hashes ++ [hash]) soundMiddle fun other listed => announcesEq ▸ later other listed
        refine ⟨after,hash :: new,by simpa using loopEq,?_,?_,?_,requestsEq'.trans requestsEq⟩
        · apply soundAfter.congr rfl
          intro other hash'
          rw [mem_cons]
          tauto
        · rw [nodup_cons]
          exact ⟨fun again => fresh hash again peer (Or.inr ⟨rfl,rfl⟩),distinct⟩
        · intro hash' member' other asks
          rcases mem_cons.mp member' with rfl | new'
          · exact free other asks
          · exact fresh hash' new' other (Or.inl asks)

omit [DecidableEq TxHash] in
theorem asked_insert (requests : Finmap fun _ : Peer => TxRequest TxHash) (peer other : Peer)
    (req : TxRequest TxHash) (hash : TxHash) :
    Asked (requests.insert peer req) other hash ↔
      if other = peer then hash ∈ req.hashes ∧ hash ∉ req.stolen
        else Asked requests other hash := by
  unfold Asked
  simp only [lookup_insert_ite]
  split <;> simp

theorem scheduleFetch_invariant (fetchable : Fetchable Q) (choices : Choices Peer TxHash)
    (peer : Peer) (invariant : f.Invariant Q) :
    ∃ after, f.scheduleFetch choices peer = .ok after ∧ after.Invariant Q ∧
      ∀ other, f.announces.slots other = ∅ →
        after.requests.lookup other = f.requests.lookup other := by
  unfold scheduleFetch
  by_cases busy : peer ∈ f.requests
  · rw [if_pos busy]
    exact ⟨f,rfl,invariant,fun _ _ => rfl⟩
  rw [if_neg busy]
  by_cases nothing : f.announces.slots peer = ∅
  · rw [if_pos nothing]
    exact ⟨f,rfl,invariant,fun _ _ => rfl⟩
  rw [if_neg nothing]
  obtain ⟨after,new,loopEq,sound,distinct,-,requestsEq⟩ :=
    allotHashes_sound fetchable peer [] invariant.sound
      (fun hash member => ((choices.announcedHashes peer).mem_iff _ _).mp member)
  rw [loopEq,nil_append]
  dsimp only [bind,Except.bind]
  split
  · rename_i empty
    refine ⟨after,rfl,⟨sound.congr rfl ?_,by rw [requestsEq]; exact invariant.distinct⟩,
      fun _ _ => by rw [requestsEq]⟩
    intro other hash
    rw [requestsEq,empty]
    simp
  · refine ⟨_,rfl,⟨sound.congr rfl ?_,?_⟩,?_⟩
    · intro other hash
      rw [asked_insert,requestsEq]
      by_cases same : other = peer
      · have idle : ¬ Asked f.requests peer hash := by
          rintro ⟨req,found,-⟩
          exact busy (Finmap.mem_of_lookup_eq_some found)
        subst same
        simp [idle]
      · simp [same]
    · rw [requestsEq]
      exact forall_lookup_insert distinct invariant.distinct
    · intro other none
      have different : other ≠ peer := by
        rintro rfl
        exact nothing none
      simp [Finmap.lookup_insert_of_ne _ different,requestsEq]

theorem scheduleFetches_invariant (fetchable : Fetchable Q) (choices : Choices Peer TxHash)
    (whitelist : Option (Finset Peer)) (invariant : f.Invariant Q) :
    ∃ after, f.scheduleFetches choices whitelist = .ok after ∧ after.Invariant Q ∧
      ∀ other, f.announces.slots other = ∅ →
        after.requests.lookup other = f.requests.lookup other := by
  unfold scheduleFetches
  dsimp only
  split
  · exact ⟨f,rfl,invariant,fun _ _ => rfl⟩
  · obtain ⟨after,loopEq,invariantAfter,-,untouched⟩ := Loop.foldlM_invariant
      (fun g : TxFetcher Peer TxHash => g.Invariant Q ∧ g.announces = f.announces ∧
        ∀ other, f.announces.slots other = ∅ →
          g.requests.lookup other = f.requests.lookup other)
      (fun g peer kept => by
        obtain ⟨holds,announcesEq,untouched⟩ := kept
        obtain ⟨after,bodyEq,holdsAfter,untouched'⟩ :=
          scheduleFetch_invariant fetchable choices peer holds
        have frame : after.announces = g.announces := 
          scheduleFetch_frame (fun _ _ _ _ _ => rfl) bodyEq
        refine ⟨after,bodyEq,holdsAfter,frame.trans announcesEq,?_⟩
        intro other none
        rw [untouched' other (by rw [announcesEq]; exact none),untouched other none])
      (choices.activePeers.order (whitelist.getD f.announces.keys))
      ⟨invariant,rfl,fun _ _ => rfl⟩
    rw [loopEq]
    dsimp only [bind,Except.bind]
    split
    · exact ⟨_,rfl,invariantAfter.of_eq rfl rfl,untouched⟩
    · exact ⟨after,rfl,invariantAfter,untouched⟩

theorem scheduleFetches_kept (fetchable : Fetchable Q) (choices : Choices Peer TxHash)
    (whitelist : Option (Finset Peer)) (invariant : f.Invariant Q) :
    ∃ after, f.scheduleFetches choices whitelist = .ok after ∧ after.Invariant Q := by
  obtain ⟨after,scheduleEq,invariantAfter,-⟩ :=
    scheduleFetches_invariant fetchable choices whitelist invariant
  exact ⟨after,scheduleEq,invariantAfter⟩

end PioplatRelay.TxFetcher
