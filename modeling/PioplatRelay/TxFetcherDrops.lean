import PioplatRelay.TxFetcherHandlers

/-!
# Dropped peers

A drop goes through the waitlist, the request of the peer and its announcements,
in this order.  Each part does its move on every hash.
-/

namespace PioplatRelay.TxFetcher

open Record SetIndex Finset

variable {Peer TxHash : Type} [DecidableEq Peer] [DecidableEq TxHash]
  {Q Q' : TxHash → Record Peer → Prop} {asked : Peer → TxHash → Prop}
  {f after : TxFetcher Peer TxHash} {hash : TxHash} {record : Record Peer} {peer : Peer}

/-! ## The waitlist -/

def waitDropped (peer : Peer) (record : Record Peer) : Entry Peer :=
  { (record.dropWait peer).entry with waitslots := record.entry.waitslots }

theorem foldlM_dropWait (tracked : ∀ hash, ∃ record, f.Holds hash record)
    (order : IterationOrder TxHash) (peer : Peer) :
    ∃ after, (order.order (f.waitslots.slots peer)).foldlM (dropWait peer) f = .ok after ∧
      (∀ hash record, f.Holds hash record → after.entry hash = waitDropped peer record) ∧
      after.requests = f.requests := by
  obtain ⟨after,loopEq,visited,others,requestsEq⟩ := Loop.foldlM_pointwise entry requests id
    (fun _ entry => ∃ origins announcers,
      entry = (⟨.waiting origins,announcers⟩ : Record Peer).entry ∧ peer ∈ origins)
    (fun _ entry entry' => ∀ record : Record Peer, entry = record.entry →
      entry' = waitDropped peer record)
    (fun (g : TxFetcher Peer TxHash) (hash : TxHash) ready => by
      obtain ⟨origins,announcers,entryEq,member⟩ := ready
      obtain ⟨after,dropEq,afterEq,requestsEq⟩ :=
        dropWait_entry (holds_iff.mpr entryEq) member
      refine ⟨after,_,dropEq,?_,afterEq,requestsEq⟩
      intro record entryEq'
      rw [← entry_injective (entryEq.symm.trans entryEq')]
      rfl)
    (by simpa using order.nodup (f.waitslots.slots peer))
    (fun hash member => by
      obtain ⟨⟨stage,announcers⟩,held⟩ := tracked hash
      have waits := (held.waitslots peer).mp ((order.mem_iff _ _).mp member)
      cases stage with
      | waiting origins => exact ⟨origins,announcers,holds_iff.mp held,waits⟩
      | unknown | queued origins | fetching owner others => exact absurd waits (Set.notMem_empty _))
  refine ⟨after,loopEq,?_,requestsEq⟩
  intro hash record held
  by_cases member : hash ∈ f.waitslots.slots peer
  · exact visited hash ((order.mem_iff _ _).mpr member) record (holds_iff.mp held)
  · have absent : peer ∉ record.stage.waiters := by
      rw [held.waitslots peer,entry_waitslots] at member
      exact member
    have unlisted : hash ∉ (order.order (f.waitslots.slots peer)).map id := by
      simpa [order.mem_iff] using member
    rw [others hash unlisted,holds_iff.mp held,waitDropped,dropWait_of_not_waiting absent]

theorem entry_erase_waitslots (f : TxFetcher Peer TxHash) (peer : Peer) (hash : TxHash) :
    { f with waitslots := f.waitslots.erase peer }.entry hash =
      { f.entry hash with waitslots := (f.entry hash).waitslots \ {peer} } := by
  ext other <;> simp only [entry,Set.mem_ofPred_eq,mem_slots_erase,Set.mem_sdiff,
    Set.mem_singleton_iff,and_comm]

theorem entry_erase_announces (f : TxFetcher Peer TxHash) (peer : Peer) (hash : TxHash) :
    { f with announces := f.announces.erase peer }.entry hash =
      { f.entry hash with announces := (f.entry hash).announces \ {peer} } := by
  ext other <;> simp only [entry,Set.mem_ofPred_eq,mem_slots_erase,Set.mem_sdiff,
    Set.mem_singleton_iff,and_comm]

theorem dropWaits_holds (tracked : ∀ hash, ∃ record, f.Holds hash record)
    (choices : Choices Peer TxHash) (peer : Peer) : ∃ after, f.dropWaits choices peer = .ok after ∧
      (∀ hash record, f.Holds hash record → after.Holds hash (record.dropWait peer)) ∧
      after.requests = f.requests ∧ peer ∉ after.waitslots := by
  unfold dropWaits
  by_cases member : peer ∈ f.waitslots
  · obtain ⟨g,loopEq,dropped,requestsEq⟩ := foldlM_dropWait tracked choices.slotHashes peer
    have cleared : ∀ hash record, f.Holds hash record →
        { g with waitslots := g.waitslots.erase peer }.Holds hash (record.dropWait peer) := by
      intro hash record held
      have slotsEq : (record.dropWait peer).entry.waitslots = record.entry.waitslots \ {peer} := by
        simp [entry_waitslots,waiters_dropWait,coe_erase]
      rw [holds_iff,entry_erase_waitslots,dropped hash record held]
      simp only [waitDropped,← slotsEq]
    rw [if_pos member,loopEq]
    dsimp only [bind,Except.bind]
    refine ⟨_,rfl,?_,?_,?_⟩
    · intro hash record held
      apply (cleared hash record held).of_entry_eq
      split <;> rfl
    · split <;> exact requestsEq
    · split <;> simp [rescheduleWait]
  · rw [if_neg member]
    refine ⟨f,rfl,?_,rfl,member⟩
    intro hash record held
    have absent : peer ∉ record.stage.waiters := by
      rw [← mem_coe,← record.entry_waitslots,← held.waitslots peer,slots_of_notMem member]
      exact notMem_empty hash
    rwa [dropWait_of_not_waiting absent]

theorem dropFetch_frame {stolen : Finset TxHash}
    (dropEq : f.dropFetch peer stolen hash = .ok after) : after.waitslots = f.waitslots := by
  unfold dropFetch at dropEq
  split_ifs at dropEq <;> cases dropEq <;> rfl

theorem dropRequest_holds (sound : f.Sound Q (Asked f.requests)) {req : TxRequest TxHash}
    (found : f.requests.lookup peer = some req) (distinct : req.hashes.Nodup) :
    ∃ after, f.dropRequest peer req = .ok after ∧
      (∀ hash record, f.Holds hash record → after.Holds hash (record.dropFetch peer)) ∧
      after.requests = f.requests.erase peer ∧ after.waitslots = f.waitslots := by
  obtain ⟨g,loopEq,requestsEq,moved,unmoved⟩ := sound.retire_loop peer
    id (fun _ => Record.dropFetch peer) (dropFetch peer req.stolen)
    (by simpa using distinct)
    (by simpa using fun hash asks => ((asked_of_found found hash).mp asks).1)
    (fun g hash _ asks others announcers held => by
      exact dropFetch_moves held ((asked_of_found found hash).mp asks).2)
    (fun g hash member free record _ held => by
      have stolen : hash ∈ req.stolen := by
        by_contra unstolen
        exact free ((asked_of_found found hash).mpr ⟨member,unstolen⟩)
      exact ⟨g,by simp [dropFetch,stolen],Moves.refl held⟩)
  have frame : g.waitslots = f.waitslots :=
    Loop.foldlM_frame waitslots (fun _ _ _ dropEq => dropFetch_frame dropEq) loopEq
  unfold dropRequest
  rw [loopEq]
  refine ⟨_,rfl,?_,congrArg (Finmap.erase peer) requestsEq,frame⟩
  intro hash record held
  by_cases asks : Asked f.requests peer hash
  · obtain ⟨-,-,-,heldAfter⟩ := moved hash asks
    exact (heldAfter record held).of_entry_eq rfl
  · rw [dropFetch_of_owner_ne (mt (sound.owner_iff held peer).mp asks)]
    exact (unmoved hash asks record held).of_entry_eq rfl

theorem Holds.erase_announces (held : f.Holds hash record) (peer : Peer) :
    { f with announces := f.announces.erase peer }.Holds hash
      ⟨record.stage,record.announcers \ {peer}⟩ := by
  rw [holds_iff,entry_erase_announces,holds_iff.mp held]
  obtain ⟨stage,announcers⟩ := record
  cases stage <;> rfl

theorem dropAnnounces_holds (tracked : ∀ hash, ∃ record, f.Holds hash record)
    (choices : Choices Peer TxHash) (peer : Peer) :
    ∃ after, f.dropAnnounces choices peer = .ok after ∧
      (∀ hash record, f.Holds hash record → after.Holds hash (record.dropAnnounce peer)) ∧
      after.requests = f.requests ∧ after.waitslots = f.waitslots ∧ peer ∉ after.announces := by
  unfold dropAnnounces
  by_cases member : peer ∈ f.announces
  · obtain ⟨g,loopEq,visited,others,requestsEq⟩ := foldlM_moves id
      (fun _ _ => True) (fun _ => dropQueued peer) (dropAnnounce peer)
      (fun g hash record held _ => dropAnnounce_moves held)
      (by simpa using choices.slotHashes.nodup (f.announces.slots peer))
      (fun hash _ => by
        obtain ⟨record,held⟩ := tracked hash
        exact ⟨record,held,trivial⟩)
    have frame := Loop.foldlM_frame waitslots (fun _ _ _ dropEq => by cases dropEq; rfl) loopEq
    rw [if_pos member,loopEq]
    refine ⟨_,rfl,?_,requestsEq,frame,by simp⟩
    intro hash record held
    have announcer : hash ∈ f.announces.slots peer ↔ peer ∈ record.announcers := by
      rw [held.announces peer,record.entry_announces]
    by_cases charged : peer ∈ record.announcers
    · have moved := visited hash ((choices.slotHashes.mem_iff _ _).mpr (announcer.mpr charged))
        record held
      simpa [Record.dropAnnounce,charged] using moved.erase_announces peer
    · have unlisted : hash ∉ (choices.slotHashes.order (f.announces.slots peer)).map id := by
        simpa [choices.slotHashes.mem_iff] using mt announcer.mp charged
      have unmoved := others hash unlisted record held
      simpa [Record.dropAnnounce,charged] using unmoved.erase_announces peer
  · rw [if_neg member]
    refine ⟨f,rfl,?_,rfl,rfl,member⟩
    intro hash record held
    have absent : peer ∉ record.announcers := by
      rw [← record.entry_announces,← held.announces peer,slots_of_notMem member]
      exact notMem_empty hash
    simpa [Record.dropAnnounce,absent,Set.sdiff_singleton_eq_self absent] using held

/-! ## The whole drop -/

structure Cleared (f after : TxFetcher Peer TxHash) (peer : Peer) : Prop where
  holds : ∀ hash record, f.Holds hash record → after.Holds hash (record.drop peer)
  requests_eq : after.requests = f.requests.erase peer
  waitslots : peer ∉ after.waitslots
  announces : peer ∉ after.announces

theorem Cleared.invariant (cleared : Cleared f after peer) (invariant : f.Invariant Q)
    (drops : ∀ hash record, f.Holds hash record → Q hash record → Q' hash (record.drop peer)) :
    after.Invariant Q' := by
  constructor
  · have retired : after.Sound Q' fun other hash => other ≠ peer ∧ Asked f.requests other hash :=
      invariant.sound.retire peer fun hash record held holds =>
        ⟨_,cleared.holds hash record held,drops hash record held holds,record.owner_drop peer⟩
    apply retired.congr rfl
    intro other hash
    rw [cleared.requests_eq,asked_erase]
  · rw [cleared.requests_eq]
    exact distinct_erase invariant.distinct

/-- The parts that a drop goes through, with a request or without. -/
theorem drop_cleared (choices : Choices Peer TxHash) (peer : Peer) (invariant : f.Invariant Q) :
    ∃ unwaited, f.dropWaits choices peer = .ok unwaited ∧
      unwaited.requests = f.requests ∧ (f.requests.lookup peer = none →
        ∃ after, unwaited.dropAnnounces choices peer = .ok after ∧ Cleared f after peer) ∧
      (∀ req, f.requests.lookup peer = some req →
        ∃ unfetched, unwaited.dropRequest peer req = .ok unfetched ∧
          ∃ after, unfetched.dropAnnounces choices peer = .ok after ∧ Cleared f after peer) := by
  have tracked : ∀ hash, ∃ record, f.Holds hash record := by
    intro hash
    obtain ⟨record,held,-⟩ := invariant.sound hash
    exact ⟨record,held⟩
  obtain ⟨unwaited,waitsEq,waits,requestsEq,unslotted⟩ := dropWaits_holds tracked choices peer
  have sound : unwaited.Sound (fun _ _ => True) (Asked unwaited.requests) := by
    intro hash
    obtain ⟨record,held,-,owner⟩ := invariant.sound hash
    refine ⟨_,waits hash record held,trivial,fun other => ?_⟩
    rw [owner_dropWait,requestsEq]
    exact owner other
  refine ⟨unwaited,waitsEq,requestsEq,?_,?_⟩
  · intro missing
    have idle : ∀ hash, ¬ Asked unwaited.requests peer hash := by
      intro hash
      simp [Asked,requestsEq,missing]
    obtain ⟨after,announcesEq,announces,afterEq,waitslotsEq,unannounced⟩ :=
      dropAnnounces_holds (fun hash => (tracked hash).imp' _ (waits hash)) choices peer
    refine ⟨after,announcesEq,?_,?_,by rwa [waitslotsEq],unannounced⟩
    · intro hash record held
      have other := mt (sound.owner_iff (waits hash record held) peer).mp (idle hash)
      rw [drop,dropFetch_of_owner_ne other]
      exact announces hash _ (waits hash record held)
    · rw [afterEq,requestsEq,erase_of_lookup_eq_none missing]
  · intro req found
    rw [← requestsEq] at found
    obtain ⟨unfetched,requestEq,fetches,unfetchedEq,waitslotsEq⟩ := dropRequest_holds sound
      found (invariant.distinct peer req (by rwa [requestsEq] at found))
    obtain ⟨after,announcesEq,announces,afterEq,waitslotsEq',unannounced⟩ :=
      dropAnnounces_holds (fun hash => (tracked hash).imp' _ fun record held =>
        fetches hash _ (waits hash record held)) choices peer
    refine ⟨unfetched,requestEq,after,announcesEq,?_,?_,
      by rwa [waitslotsEq',waitslotsEq],unannounced⟩
    · intro hash record held
      exact announces hash _ (fetches hash _ (waits hash record held))
    · rw [afterEq,unfetchedEq,requestsEq]

/-- A drop takes each record to what is left of it without the peer, and then
fetches may be scheduled. -/
theorem handleDrop_invariant (fetchable : Fetchable Q') (choices : Choices Peer TxHash)
    (peer : Peer) (invariant : f.Invariant Q)
    (drops : ∀ hash record, f.Holds hash record → Q hash record → Q' hash (record.drop peer)) :
    ∃ after, f.handleDrop choices peer = .ok after ∧ after.Invariant Q' ∧
      after.requests.lookup peer = none ∧ peer ∉ after.waitslots ∧ peer ∉ after.announces := by
  obtain ⟨unwaited,waitsEq,requestsEq,without,withRequest⟩ :=
    drop_cleared choices peer invariant
  have unrequested {g : TxFetcher Peer TxHash} (cleared : Cleared f g peer) :
      g.requests.lookup peer = none := by
    rw [cleared.requests_eq,Finmap.lookup_erase]
  unfold handleDrop
  rw [waitsEq]
  dsimp only [bind,Except.bind]
  cases found : f.requests.lookup peer with
  | none =>
    obtain ⟨after,announcesEq,cleared⟩ := without found
    rw [requestsEq,found]
    exact ⟨after,announcesEq,cleared.invariant invariant drops,unrequested cleared,
      cleared.waitslots,cleared.announces⟩
  | some req =>
    obtain ⟨unfetched,requestEq,g,announcesEq,cleared⟩ := withRequest req found
    obtain ⟨after,scheduleEq,invariantAfter,untouched⟩ := scheduleFetches_invariant fetchable
      choices none (cleared.invariant invariant drops)
    have frame := scheduleFetches_frame scheduleEq
    have waitslotsEq : after.waitslots = g.waitslots := congrArg Prod.fst frame
    have announcesAfter : after.announces = g.announces := congrArg Prod.snd frame
    simp only [requestsEq,found,requestEq,announcesEq,scheduleEq]
    refine ⟨_,rfl,invariantAfter.of_eq rfl rfl,?_,?_,?_⟩
    · exact (untouched peer (slots_of_notMem cleared.announces)).trans
        (unrequested cleared)
    · exact waitslotsEq ▸ cleared.waitslots
    · exact announcesAfter ▸ cleared.announces

end PioplatRelay.TxFetcher
